import Xv6Container.Names.Edits

/-! `create` and the calls that are made of it, `sys_mkdir`, `sys_mknod` and `sys_open`: they
keep the references right and make at most one new entry. -/

namespace Xv6Container.Names

open Lib Fs

variable {B W : Prop} {R K : Entry → ℤ} {s t u : State} {e dp ip : Entry} {i d : Inum} {p q : Slot}
  {f : FileId} {n n' m : Inum → Node} {name : Name} {off : ℕ} {path : CString}
  {adds makes : Option Inum}

/-! ### `dirlink` -/

theorem dirlookup_none (htype : (s.cache dp).copy.type = .dir)
    (hf : findEntry (s.node (s.cache dp).inum).entries name = none) :
    dirlookup dp name s = .ok none s := by
  simp only [dirlookup, run_get_bind, htype, hf, ne_eq, not_true_eq_false, if_false]
  rfl

/-- The directory does not have the name. -/
theorem dirlink_absent (htype : (s.cache dp).copy.type = .dir)
    (hf : findEntry (s.node (s.cache dp).inum).entries name = none) (hi : i ≠ 0) :
    Ends (fun b t => b = true ∧ t = s.setEntries (s.cache dp).inum
      (insertFree (s.node (s.cache dp).inum).entries (some (name, i)))) (Legal B)
      (dirlink dp name i s) := by
  simp only [dirlink]
  rw [run_bind_ok (dirlookup_none htype hf)]
  simp only [run_get_bind, dirent, if_neg hi]
  split_ifs
  · rw [writeEntry_bind, put_freeEntry]
    exact ends_ok.2 ⟨rfl, rfl⟩
  · exact ends_error.2 (legal_panic (by decide))

/-- References of a lookup that is done. -/
theorem Settled.mono (h : Settled R s) (e : Entry) : Settled (R + one e) s := by
  intro i hi hn
  obtain ⟨x, hx, hxi⟩ := h i hi hn
  exact ⟨x, lt_add_one hx e, hxi⟩

theorem dirlink_ends (h : Cached B (R + one dp) s) (hR : ∀ x, 0 ≤ R x)
    (hv : (s.cache dp).valid = true) (hB : B → Whole s.node) (hi : i ≠ 0) :
    Ends (fun b t => Cached B (R + one dp) t ∧ Stable (R + one dp) s t ∧
      if b then (s.node (s.cache dp).inum).attr.type = .dir ∧
          findEntry (s.node (s.cache dp).inum).entries name = none ∧
          t.node = Function.update s.node (s.cache dp).inum
            ⟨(s.node (s.cache dp).inum).attr,
              insertFree (s.node (s.cache dp).inum).entries (some (name, i))⟩
        else t.node = s.node) (Legal B) (dirlink dp name i s) := by
  have hdp : 0 < (R + one dp) dp := add_one_pos (hR dp)
  by_cases htype : (s.node (s.cache dp).inum).attr.type = .dir
  · have hcopy := (h.type_eq hdp hv).trans htype
    cases hf : findEntry (s.node (s.cache dp).inum).entries name with
    | none =>
      refine (dirlink_absent hcopy hf hi).post fun b t ⟨hb, ht⟩ => ?_
      subst hb ht
      exact ⟨h.setEntries _, .setEntries _, htype, rfl, rfl⟩
    | some x =>
      refine (dirlookup_ends h hdp hv hB name).bind fun o t ⟨ht, hl, _, hfind⟩ => ?_
      rw [hf] at hfind
      cases o with
      | none => cases hfind
      | some y =>
        obtain ⟨x, off⟩ := y
        refine (iput_looks ht (add_one_nonneg hR dp x) (hl.settled h.settled)).bind
          fun _ u ⟨hu, hlu⟩ => ends_ok.2 ⟨hu, ?_⟩
        exact ⟨(hl.trans hlu).toStable, (hl.trans hlu).node⟩
  · refine (dirlookup_ends h hdp hv hB name).bind fun o t ⟨_, _, hdir, _⟩ => ?_
    exact absurd hdir htype

/-! ### `create` -/

/-- What `create` does and the inode that it returns. -/
inductive Created (s : State) (p : Slot) (path : CString) (a : Attr) (n' : Inum → Node) :
    Option Inum → Prop
  | fail (hn : n' = s.node) : Created s p path a n' none
  | old {d : Inum} {name : Name} {x : ℕ × Inum} (hp : s.parentOf p path = some (d, name))
      (hf : findEntry (s.node d).entries name = some x) (hn : n' = s.node)
      (hx : (s.node x.2).attr.type = .file) : Created s p path a n' (some x.2)
  | new {d i : Inum} {name : Name} {m : Inum → Node}
      (hp : s.parentOf p path = some (d, name)) (hf : findEntry (s.node d).entries name = none)
      (hi : freeInum s.node = some i) (hm : m = made s.node d name i a)
      (hn : n' = m ∨ a.type = .dir ∧ Collected d m n') : Created s p path a n' (some i)

theorem made_attr {a : Attr} (ha : a.type ≠ .dir) : (made n d name i a d).attr = (n d).attr := by
  rw [made, Function.update_self, if_neg ha]

/-- A link more, written through to the disk. -/
theorem incLink_bind {α : Type} {Q : α → State → Prop} {k : Unit → Run α}
    (h : Ends Q (Legal B) (k () (s.setAttr e
      { (s.cache e).copy with nlink := (s.cache e).copy.nlink + 1 }))) :
    Ends Q (Legal B) ((incLink e >>= fun _ => iupdate e >>= k) s) := by
  by_cases hover : (s.cache e).copy.nlink ≥ SHRT_MAX
  · have hrun : incLink e s = .error .overflow s := by
      simp only [incLink, run_get_bind, if_pos hover, run_throw]
    rw [run_bind_error hrun]
    exact ends_error.2 legal_overflow
  · have hrun : incLink e s = setCopy e (fun a => { a with nlink := a.nlink + 1 }) s := by
      simp only [incLink, run_get_bind, if_neg hover]
    have hset := setCopy_iupdate_bind (s := s) (e := e)
      (fun a => { a with nlink := a.nlink + 1 }) k
    simp only [setCopy, setInode, run_modify_bind, run_modify] at hrun hset
    rw [run_bind_ok hrun, hset]
    exact h

theorem dot_ne_dotdot : Name.dot ≠ Name.dotdot := by decide

/-- The dots of a new directory. -/
theorem createDots_ends (h : Cached B R s) (hdp : 0 < R dp) (hip : 0 < R ip)
    (hvd : (s.cache dp).valid = true) (hvi : (s.cache ip).valid = true)
    (hd0 : (s.cache dp).inum ≠ 0) (hi0 : (s.cache ip).inum ≠ 0)
    (hne : (s.cache dp).inum ≠ (s.cache ip).inum) {a : Attr} (ha : a.type = .dir)
    (hnode : s.node (s.cache ip).inum = ⟨a, []⟩) :
    Ends (fun _ t => Cached B R t ∧ Stable R s t ∧ t.node =
      Function.update (Function.update s.node (s.cache dp).inum
        ⟨{ (s.node (s.cache dp).inum).attr with
          nlink := (s.node (s.cache dp).inum).attr.nlink + 1 },
          (s.node (s.cache dp).inum).entries⟩) (s.cache ip).inum
        ⟨a, [some (.dot, (s.cache ip).inum), some (.dotdot, (s.cache dp).inum)]⟩) (Legal B)
      (createDots dp ip s) := by
  refine incLink_bind ?_
  obtain ⟨s₁, hs₁⟩ : ∃ s₁, s₁ = s.setAttr dp
    { (s.cache dp).copy with nlink := (s.cache dp).copy.nlink + 1 } := ⟨_, rfl⟩
  rw [← hs₁]
  have h₁ : Cached B R s₁ := hs₁ ▸ h.setAttr hdp hvd rfl
  have hst : Stable R s s₁ := hs₁ ▸ .setAttr _
  have hn₁ : s₁.node = Function.update s.node (s.cache dp).inum
      ⟨{ (s.node (s.cache dp).inum).attr with
        nlink := (s.node (s.cache dp).inum).attr.nlink + 1 },
        (s.node (s.cache dp).inum).entries⟩ := by
    rw [hs₁, State.setAttr_node, h.copy_eq hdp hvd]
  have hi₁ : s₁.node (s.cache ip).inum = ⟨a, []⟩ := by
    rw [hn₁, Function.update_of_ne hne.symm, hnode]
  have htype : (s₁.cache ip).copy.type = .dir := by
    rw [h₁.type_eq hip (hst.valid ip hip hvi), hst.inum ip hip, hi₁]
    exact ha
  simp only [run_get_bind]
  refine (dirlink_absent htype ?_ ?_).bind fun b s₂ ⟨hb, hs₂⟩ => ?_
  · rw [hst.inum ip hip, hi₁]
    rfl
  · rw [hst.inum ip hip]
    exact hi0
  · rw [hst.inum ip hip, hi₁] at hs₂
    have hi₂ : s₂.node (s.cache ip).inum = ⟨a, [some (.dot, (s.cache ip).inum)]⟩ := by
      rw [hs₂, State.setEntries_node, Function.update_self, hi₁]
      rfl
    have hst₂ : Stable R s₁ s₂ := hs₂ ▸ .setEntries _
    have hcache : s₂.cache ip = s₁.cache ip := by rw [hs₂]; rfl
    simp only [hb, if_true]
    refine (dirlink_absent (hcache ▸ htype) ?_ ?_).bind fun b' s₃ ⟨hb', hs₃⟩ => ?_
    · rw [hst₂.inum ip hip, hst.inum ip hip, hi₂]
      simp [findEntry, dot_ne_dotdot]
    · rw [hst.inum dp hdp]
      exact hd0
    · rw [hst₂.inum ip hip, hst.inum ip hip, hst.inum dp hdp, hi₂] at hs₃
      simp only [hb', if_true, run_pure, ends_ok]
      refine ⟨?_, hst.trans (hst₂.trans (hs₃ ▸ .setEntries _)), ?_⟩
      · have h₂ : Cached B R s₂ := hs₂ ▸ h₁.setEntries _
        exact hs₃ ▸ h₂.setEntries _
      · rw [hs₃, State.setEntries_node, hi₂, hs₂, State.setEntries_node, Function.update_idem, hn₁]
        rfl

/-- The entry for a new inode. -/
theorem createEntry_ends (h : Cached B (R + one dp + one ip) s) (hR : ∀ x, 0 ≤ R x)
    (hvd : (s.cache dp).valid = true) (hvi : (s.cache ip).valid = true)
    (hdir : (s.node (s.cache dp).inum).attr.type = .dir) (hi0 : (s.cache ip).inum ≠ 0)
    (hf : findEntry (s.node (s.cache dp).inum).entries name = none)
    (hm : m = Function.update s.node (s.cache dp).inum ⟨(s.node (s.cache dp).inum).attr,
      insertFree (s.node (s.cache dp).inum).entries (some (name, (s.cache ip).inum))⟩) :
    Ends (fun o t => o = some ip ∧ Cached B (R + one ip) t ∧ Stable (R + one ip) s t ∧
      (t.cache ip).valid = true ∧
      (t.node = m ∨ R dp = 0 ∧ Collected (s.cache dp).inum m t.node)) (Legal B)
      ((do
        if ← dirlink dp name ((← get).cache ip).inum then
          iunlockput dp
          return some ip
        else throw (Stop.panic "create: dirlink")) s) := by
  have hip : 0 < (R + one ip) ip := add_one_pos (hR ip)
  have hdp : 0 < (R + one dp + one ip) dp := lt_add_one (add_one_pos (hR dp)) ip
  have hcopy : (s.cache dp).copy.type = .dir := (h.type_eq hdp hvd).trans hdir
  simp only [run_get_bind]
  refine (dirlink_absent hcopy hf hi0).bind fun b t ⟨hb, ht⟩ => ?_
  have hst : Stable (R + one ip + one dp) s t := ht ▸ .setEntries _
  have hct : Cached B (R + one ip + one dp) t := by
    rw [add_right_comm]
    exact ht ▸ h.setEntries _
  have hnt : t.node = m := by
    rw [ht, hm]
    rfl
  simp only [hb, if_true]
  refine (iunlockput_ends hct (add_one_nonneg hR ip dp)).bind fun _ u ⟨hu, hsu, hnu⟩ => ?_
  refine ends_ok.2 ⟨rfl, hu, hst.drop.trans hsu, hsu.valid ip hip (hst.drop.valid ip hip hvi), ?_⟩
  rw [hnt, hst.inum dp (add_one_pos (add_one_nonneg hR ip dp))] at hnu
  refine hnu.imp_right fun ⟨hR0, hc⟩ => ⟨?_, hc⟩
  have h1 := one_nonneg ip dp
  have h2 := hR dp
  rw [Pi.add_apply] at hR0
  omega

/-- `create` once it has found that the name is free. -/
theorem createNew_ends (h : Cached B (R + one dp) s) (hR : ∀ x, 0 ≤ R x)
    (hv : (s.cache dp).valid = true) (hdir : (s.node (s.cache dp).inum).attr.type = .dir)
    (hd0 : (s.cache dp).inum ≠ 0) (hf : findEntry (s.node (s.cache dp).inum).entries name = none)
    {type : FileType} {major minor : ℤ} (htype : type ≠ .free) :
    Ends (fun o t => ∃ ip i m, o = some ip ∧ (t.cache ip).inum = i ∧
      (t.cache ip).valid = true ∧ Cached B (R + one ip) t ∧ Stable R s t ∧
      freeInum s.node = some i ∧ m = made s.node (s.cache dp).inum name i ⟨type, major, minor, 1⟩ ∧
      (t.node = m ∨ R dp = 0 ∧ Collected (s.cache dp).inum m t.node)) (Legal B)
      ((do
        let ip ← newInode p type major minor
        if type = FileType.dir then createDots dp ip
        if ← dirlink dp name ((← get).cache ip).inum then
          iunlockput dp
          return some ip
        else throw (Stop.panic "create: dirlink")) s) := by
  have hdp : 0 < (R + one dp) dp := add_one_pos (hR dp)
  refine (newInode_ends h (add_one_nonneg hR dp) htype).bind
    fun ip t ⟨i, ht, hst, hi, hvi, hnum, hnode⟩ => ?_
  obtain ⟨hi0, hfree⟩ := freeInum_free hnum
  have hip : 0 < (R + one dp + one ip) ip := add_one_pos (add_one_nonneg hR dp ip)
  have hdp' : 0 < (R + one dp + one ip) dp := lt_add_one hdp ip
  have hdt : (t.cache dp).inum = (s.cache dp).inum := hst.inum dp hdp
  have hvt := hst.valid dp hdp hv
  have hne : (s.cache dp).inum ≠ i := by
    rintro heq
    rw [heq, hfree] at hdir
    exact absurd hdir (by decide)
  obtain ⟨a, ha⟩ : ∃ a : Attr, a = ⟨type, major, minor, 1⟩ := ⟨_, rfl⟩
  have hat : a.type = type := by rw [ha]
  rw [← ha] at hnode ⊢
  obtain ⟨d, hd⟩ : ∃ d, d = (s.cache dp).inum := ⟨_, rfl⟩
  rw [← hd] at hdt hne hdir hd0 hf ⊢
  have hnd : t.node d = s.node d := by rw [hnode, Function.update_of_ne hne]
  have hni : t.node i = ⟨a, []⟩ := by rw [hnode, Function.update_self]
  -- the entry is written into `u`, which has the dots of a new directory
  have hrest : ∀ u, Cached B (R + one dp + one ip) u → Stable (R + one dp + one ip) t u →
      u.node = Function.update (Function.update s.node i
        ⟨a, if a.type = .dir then [some (.dot, i), some (.dotdot, d)] else []⟩) d
        ⟨if a.type = .dir then { (s.node d).attr with nlink := (s.node d).attr.nlink + 1 }
          else (s.node d).attr, (s.node d).entries⟩ →
      Ends (fun o t => ∃ ip i m, o = some ip ∧ (t.cache ip).inum = i ∧
        (t.cache ip).valid = true ∧ Cached B (R + one ip) t ∧ Stable R s t ∧
        freeInum s.node = some i ∧ m = made s.node d name i a ∧
        (t.node = m ∨ R dp = 0 ∧ Collected d m t.node)) (Legal B)
        ((do
          if ← dirlink dp name ((← get).cache ip).inum then
            iunlockput dp
            return some ip
          else throw (Stop.panic "create: dirlink")) u) := by
    intro u hu hsu hnu
    have hdu : (u.cache dp).inum = d := (hsu.inum dp hdp').trans hdt
    have hiu : (u.cache ip).inum = i := (hsu.inum ip hip).trans hi
    have hud : u.node d = ⟨if a.type = .dir then
        { (s.node d).attr with nlink := (s.node d).attr.nlink + 1 } else (s.node d).attr,
        (s.node d).entries⟩ := by rw [hnu, Function.update_self]
    have hm : made s.node d name i a = Function.update u.node (u.cache dp).inum
        ⟨(u.node (u.cache dp).inum).attr,
          insertFree (u.node (u.cache dp).inum).entries (some (name, (u.cache ip).inum))⟩ := by
      rw [hdu, hiu, hud, hnu, Function.update_idem]
      rfl
    refine (createEntry_ends hu hR (hsu.valid dp hdp' hvt) (hsu.valid ip hip hvi) ?_ ?_ ?_
      hm).post fun o v ⟨ho, hv', hsv, hvv, hnv⟩ => ?_
    · rw [hdu, hud]
      split_ifs
      · exact hdir
      · exact hdir
    · rw [hiu]
      exact hi0
    · rw [hdu, hud]
      exact hf
    · rw [hdu] at hnv
      exact ⟨ip, i, _, ho, (hsv.inum ip (add_one_pos (hR ip))).trans hiu, hvv, hv',
        hst.drop.trans (hsu.drop.drop.trans hsv.drop), hnum, rfl, hnv⟩
  dsimp only
  split_ifs with hif
  · have := createDots_ends ht hdp' hip hvt hvi (hdt ▸ hd0) (hi ▸ hi0)
      (by rw [hdt, hi]; exact hne) (hat.trans hif) (by rw [hi]; exact hni)
    rw [hdt, hi, hnd] at this
    refine this.bind fun _ u ⟨hu, hsu, hnu⟩ => hrest u hu hsu ?_
    rw [hat, if_pos hif, if_pos hif, hnu, hnode, Function.update_comm hne.symm,
      Function.update_idem, Function.update_comm hne.symm]
  · refine hrest t ht (.refl _ t) ?_
    rw [hat, if_neg hif, if_neg hif, hnode]
    exact (Function.update_eq_self_iff.2 (by rw [Function.update_of_ne hne])).symm

theorem Looked.whole (h : Looked R s t) (hB : B → Whole s.node) (b : B) : Whole t.node := by
  rw [h.node]
  exact hB b

theorem create_ends (h : Cached B R s) (hR : ∀ x, 0 ≤ R x) (hcwd : Seated R s)
    (hB : B → Whole s.node) {type : FileType} {major minor : ℤ} (htype : type ≠ .free) :
    Ends (fun o t => Cached B (R + ptr o) t ∧ Stable R s t ∧
      (∀ ip, o = some ip → (t.cache ip).valid = true) ∧
      Created s p path ⟨type, major, minor, 1⟩ t.node (o.map fun ip => (t.cache ip).inum))
      (Legal B) (create p path type major minor s) := by
  have hsame : ∀ {u}, Cached B R u → Looked R s u →
      Cached B (R + ptr none) u ∧ Stable R s u ∧
      (∀ ip, (none : Option Entry) = some ip → (u.cache ip).valid = true) ∧
      Created s p path ⟨type, major, minor, 1⟩ u.node (none.map fun ip => (u.cache ip).inum) := by
    intro u hu hl
    rw [ptr_none, add_zero]
    exact ⟨hu, hl.toStable, by rintro _ ⟨⟩, .fail hl.node⟩
  refine (nameiparent_ends h hR hcwd hB).bind ?_
  rintro o t ⟨ht, hl, hpar⟩
  cases o with
  | none => exact ends_ok.2 (hsame (by simpa [gain] using ht) hl)
  | some x =>
    obtain ⟨dp, name⟩ := x
    have hdp : 0 < (R + one dp) dp := add_one_pos (hR dp)
    refine (ilock_ends ht hdp).bind ?_
    rintro _ u ⟨hu, hlu, hvu⟩
    have hdu : (u.cache dp).inum = (t.cache dp).inum := hlu.inum dp hdp
    have hsu : Looked R s u := hl.trans hlu.drop
    rw [Option.map_some, ← hdu] at hpar
    refine (dirlookup_ends hu hdp hvu (hsu.whole hB) name).bind ?_
    rintro o v ⟨hv, hlv, hdir, hfind⟩
    have hsv : Looked R s v := hsu.trans hlv.drop
    rw [hsu.node] at hdir hfind
    cases o with
    | some y =>
      obtain ⟨ip, off⟩ := y
      have hip : 0 < (R + one ip) ip := add_one_pos (hR ip)
      have hv' : Cached B (R + one ip + one dp) v := by
        rw [add_right_comm]
        exact hv
      refine (iunlockput_looks hv' (add_one_nonneg hR ip dp)
        ((hsv.settled h.settled).mono ip)).bind ?_
      rintro _ w ⟨hw, hlw⟩
      refine (ilock_ends hw hip).bind ?_
      rintro _ z ⟨hz, hlz, hvz⟩
      have hsz : Looked R s z := (hsv.trans hlw.drop).trans hlz.drop
      have hiz : (z.cache ip).inum = (v.cache ip).inum :=
        (hlz.inum ip hip).trans (hlw.inum ip hip)
      simp only [run_get_bind]
      split_ifs with hif
      · refine ends_ok.2 ⟨by rwa [ptr_some], hsz.toStable, ?_, ?_⟩
        · rintro _ ⟨⟩
          exact hvz
        · rw [hz.type_eq hip hvz, hsz.node] at hif
          rw [Option.map_some, hiz]
          exact .old (x := (off, (v.cache ip).inum)) hpar hfind hsz.node (hiz ▸ hif.2)
      · refine (iunlockput_looks hz (hR ip) (hsz.settled h.settled)).bind ?_
        rintro _ y ⟨hy, hly⟩
        exact ends_ok.2 (hsame hy (hsz.trans hly))
    | none =>
      have hdv : (v.cache dp).inum = (u.cache dp).inum := hlv.inum dp hdp
      rw [gain, add_zero] at hv
      rw [← hdv] at hdir hfind
      have hd0 : (v.cache dp).inum ≠ 0 := by
        intro h0
        rw [h0, h.zero] at hdir
        exact absurd hdir (by decide)
      refine (createNew_ends hv hR (hlv.valid dp hdp hvu) (by rwa [hsv.node]) hd0
        (by rwa [hsv.node]) htype).post ?_
      rintro o w ⟨ip, i, m, rfl, rfl, hvw, hw, hsw, hnum, hm, hnw⟩
      rw [hsv.node] at hnum hm
      refine ⟨by rwa [ptr_some], hsv.toStable.trans hsw, ?_, ?_⟩
      · rintro _ ⟨⟩
        exact hvw
      · rw [← hdv] at hpar
        refine .new hpar hfind hnum hm (hnw.imp_right ?_)
        rintro ⟨hR0, hc⟩
        refine ⟨?_, hc⟩
        -- a removed directory is the one of somebody else, unless it gets a link here
        by_contra hne
        obtain ⟨hfree, hnlink, -⟩ := hc
        rw [hm, made_attr hne] at hfree hnlink
        obtain ⟨x, hx, hxd, -⟩ := h.settled _ hfree hnlink
        have hxdp : x = dp :=
          hv.distinct x dp (lt_add_one hx dp) (add_one_pos (hR dp)) ((hsv.inum x hx).trans hxd)
        rw [hxdp, hR0] at hx
        exact absurd hx (lt_irrefl 0)

theorem Created.effect {a : Attr} {o : Option Inum}
    (h : Created s p path a n' o) (ha : a.type ≠ .free) (hlink : a.nlink = 1)
    (hadds : adds = s.absentIn p path) (hmakes : a.type = .dir → makes = s.absentIn p path) :
    Effect W adds makes none s.node n' := by
  cases h with
  | fail hn => exact .same hn
  | old _ _ hn _ => exact .same hn
  | @new d i name m hp hf hnum hm hn =>
    obtain ⟨hi0, hi⟩ := freeInum_free hnum
    have habsent : s.absentIn p path = some d := by
      rw [State.absentIn, hp]
      exact if_pos hf
    rw [habsent] at hadds hmakes
    refine ⟨m, hm ▸ .make hadds hmakes (State.parentOf_dir hp) hf hi0 hi ha hlink, .of_or hn⟩

theorem sysMake_ends (h : Steady B s) (hB : B → Whole s.node) {type : FileType}
    {major minor : ℤ} (htype : type ≠ .free) 
    (hadds : adds = s.absentIn p path) (hmakes : type = .dir → makes = s.absentIn p path) :
    Ends (fun _ t => Steady B t ∧ Effect W adds makes none s.node t.node) (Legal B)
      (sysMake p path type major minor s) := by
  refine (create_ends h.cached (hold_nonneg s) .hold hB htype).bind
    fun o t ⟨ht, hst, _, hcr⟩ => ?_
  have heff : Effect W adds makes none s.node t.node := hcr.effect htype rfl hadds hmakes
  cases o with
  | none =>
    rw [ptr_none, add_zero] at ht
    exact ends_ok.2 ⟨hst.steady h.closed ht, heff⟩
  | some ip =>
    rw [ptr_some] at ht
    refine (iunlockput_ends ht (hold_nonneg s ip)).bind fun _ u ⟨hu, hsu, hnu⟩ => ?_
    exact ends_ok.2 ⟨(hst.trans hsu).steady h.closed hu, heff.sweep (.of_or hnu)⟩

/-! ### Files -/

/-- Only reference counts of files and descriptors change. -/
structure Quiet (s t : State) : Prop where
  cache : t.cache = s.cache
  node : t.node = s.node
  creator : t.creator = s.creator
  recycled : t.recycled = s.recycled
  ip : ∀ f, (t.file f).ip = (s.file f).ip
  cwd : ∀ p, (t.proc p).cwd = (s.proc p).cwd

namespace Quiet

theorem refl (s : State) : Quiet s s := ⟨rfl, rfl, rfl, rfl, fun _ => rfl, fun _ => rfl⟩

theorem trans (h : Quiet s t) (h' : Quiet t u) : Quiet s u where
  cache := h'.cache.trans h.cache
  node := h'.node.trans h.node
  creator := h'.creator.trans h.creator
  recycled := h'.recycled.trans h.recycled
  ip f := (h'.ip f).trans (h.ip f)
  cwd p := (h'.cwd p).trans (h.cwd p)

theorem hold (h : Quiet s t) : hold t = hold s := hold_congr h.ip h.cwd

theorem cached (h : Quiet s t) (hs : Cached B R s) : Cached B R t :=
  hs.congr h.cache h.node h.creator h.recycled

theorem setProc {x : Proc} (hx : x.cwd = (s.proc p).cwd) : Quiet s (s.setProc p x) := by
  refine ⟨rfl, rfl, rfl, rfl, fun _ => rfl, fun q => ?_⟩
  by_cases hq : q = p
  · rw [hq, ← hx]
    exact congrArg Proc.cwd (Function.update_self ..)
  · exact congrArg Proc.cwd (Function.update_of_ne hq ..)

theorem setFile {x : File} (hx : x.ip = (s.file f).ip) : Quiet s (s.setFile f x) := by
  refine ⟨rfl, rfl, rfl, rfl, fun g => ?_, fun _ => rfl⟩
  by_cases hg : g = f
  · rw [hg, ← hx]
    exact congrArg File.ip (Function.update_self ..)
  · exact congrArg File.ip (Function.update_of_ne hg ..)

end Quiet

theorem Closed.setFile (h : Closed s) {x : File} (hx : x.ref = 0 → x.ip = none) :
    Closed (s.setFile f x) := by
  intro g hg
  by_cases hgf : g = f
  · rw [hgf] at hg ⊢
    have hself : (s.setFile f x).file f = x := Function.update_self ..
    rw [hself] at hg ⊢
    exact hx hg
  · have hother : (s.setFile f x).file g = s.file g := Function.update_of_ne hgf ..
    rw [hother] at hg ⊢
    exact h g hg

/-- `fileclose` while the call has the references `K`. -/
theorem fileclose_ends (h : Cached B (hold s + K) s) (hK : ∀ x, 0 ≤ K x) (hc : Closed s) :
    Ends (fun _ t => Cached B (hold t + K) t ∧ Closed t ∧ t.proc = s.proc ∧
      Swept s.node t.node) (Legal B) (fileclose f s) := by
  simp only [fileclose, run_get_bind]
  split_ifs with href hmore
  · exact ends_error.2 (legal_panic (by decide))
  · rw [run_modify, ends_ok]
    have hq : Quiet s (s.setFile f { s.file f with ref := (s.file f).ref - 1 }) := .setFile rfl
    refine ⟨?_, hc.setFile fun h0 => ?_, rfl, hq.node ▸ .refl⟩
    · rw [hq.hold]
      exact hq.cached h
    · exact absurd h0 hmore.ne'
  · rw [run_modify_bind]
    have hhold := hold_setFile (s := s) (f := f) { s.file f with ref := 0, ip := none }
    rw [ptr_none, add_zero] at hhold
    have hcl : Closed (s.setFile f { s.file f with ref := 0, ip := none }) :=
      hc.setFile fun _ => rfl
    have hs := h.setFile f { s.file f with ref := 0, ip := none }
    obtain ⟨t, ht⟩ : ∃ t, t = s.setFile f { s.file f with ref := 0, ip := none } := ⟨_, rfl⟩
    have hnode : t.node = s.node := by rw [ht]; rfl
    have hproc : t.proc = s.proc := by rw [ht]; rfl
    rw [← ht] at hhold hcl hs ⊢
    cases hip : (s.file f).ip with
    | none =>
      rw [hip, ptr_none, add_zero] at hhold
      rw [← hhold] at hs
      exact ends_ok.2 ⟨hs, hcl, hproc, hnode ▸ .refl⟩
    | some ip =>
      rw [hip, ptr_some] at hhold
      rw [← hhold, add_right_comm] at hs
      have hnonneg : 0 ≤ (Names.hold t + K) ip := add_nonneg (hold_nonneg t ip) (hK ip)
      refine (iput_ends hs hnonneg).post fun _ u ⟨hu, hsu, hnu⟩ => ?_
      rw [hsu.hold, hsu.proc]
      refine ⟨hu, fun g => ?_, hproc, hnode ▸ .of_or hnu⟩
      rw [hsu.file]
      exact hcl g

theorem filealloc_ends : Ends (fun o t => o.elim (t = s) fun f =>
    (s.file f).ref = 0 ∧ t = s.setFile f { s.file f with ref := 1 }) (Legal B) (filealloc s) := by
  simp only [filealloc, run_get_bind]
  cases hf : (List.finRange NFILE).find? fun f => (s.file f).ref = 0 with
  | none => exact ends_ok.2 rfl
  | some f =>
    have hfound := List.find?_some hf
    simp only [decide_eq_true_eq] at hfound
    simp only [run_modify_bind, run_pure, ends_ok]
    exact ⟨hfound, rfl⟩

theorem fdalloc_ends : Ends (fun o t => Quiet s t ∧ t.file = s.file ∧
    (t.proc p).containerID = (s.proc p).containerID ∧
    ∀ fd, o = some fd → (t.proc p).ofile fd = some f) (Legal B) (fdalloc p f s) := by
  simp only [fdalloc, run_get_bind]
  cases (List.finRange NOFILE).find? fun fd => ((s.proc p).ofile fd).isNone with
  | none => exact ends_ok.2 ⟨.refl s, rfl, rfl, nofun⟩
  | some fd =>
    simp only [run_modify_bind, run_pure, ends_ok]
    have hself : ∀ x, (s.setProc p x).proc p = x := fun x => Function.update_self ..
    refine ⟨.setProc rfl, rfl, ?_, ?_⟩
    · rw [hself]
    · rintro _ ⟨⟩
      rw [hself]
      exact Function.update_self ..

theorem Steady.quiet (h : Steady B s) (hq : Quiet s t) (hc : Closed t) : Steady B t :=
  ⟨hq.hold ▸ hq.cached h.cached, hc⟩

/-! ### `sys_open` -/

/-- The inode that `sys_open` finds or makes. -/
inductive Opened (s : State) (p : Slot) (path : CString) (omode : UInt32) (n' : Inum → Node) :
    Option Inum → Prop
  | create {path' : CString} {o : Option Inum} (ho : (omode &&& O_CREATE != 0) = true)
      (hpath : openPath (s.proc p).containerID path true = .ok path')
      (h : Created s p path' ⟨.file, 0, 0, 1⟩ n' o) : Opened s p path omode n' o
  | find {path' : CString} (ho : (omode &&& O_CREATE != 0) = false)
      (hpath : openPath (s.proc p).containerID path false = .ok path') (hn : n' = s.node) :
      Opened s p path omode n' ((s.target p path').filter fun i =>
        decide ¬ ((s.node i).attr.type = .dir ∧ omode ≠ 0))

theorem openInode_ends {omode : UInt32} (h : Cached B R s) (hR : ∀ x, 0 ≤ R x)
    (hcwd : Seated R s) (hB : B → Whole s.node) :
    Ends (fun o t => Cached B (R + ptr o) t ∧ Stable R s t ∧
      (∀ ip, o = some ip → (t.cache ip).valid = true) ∧
      Opened s p path omode t.node (o.map fun ip => (t.cache ip).inum)) (Legal B)
      (openInode p path omode s) := by
  simp only [openInode, run_get_bind]
  cases hpath : openPath (s.proc p).containerID path (omode &&& O_CREATE != 0) with
  | error r =>
    refine ends_error.2 fun _ => ?_
    rw [openPath_error hpath]
    exact nofun
  | ok path' =>
    dsimp only
    split_ifs with ho
    · refine (create_ends h hR hcwd hB (by decide)).post fun o t ⟨ht, hst, hv, hcr⟩ => ?_
      exact ⟨ht, hst, hv, .create ho (ho ▸ hpath) hcr⟩
    · rw [Bool.not_eq_true] at ho
      refine (namei_ends h hR hcwd hB).bind fun o t ⟨ht, hl, htarget⟩ => ?_
      have hfind : Opened s p path omode s.node _ := .find ho (ho ▸ hpath) rfl
      rw [htarget] at hfind
      cases o with
      | none => exact ends_ok.2 ⟨ht, hl.toStable, nofun, hl.node ▸ hfind⟩
      | some ip =>
        rw [ptr_some] at ht
        have hip : 0 < (R + one ip) ip := add_one_pos (hR ip)
        refine (ilock_ends ht hip).bind fun _ u ⟨hu, hlu, hvu⟩ => ?_
        have hsu : Looked R s u := hl.trans hlu.drop
        have hiu := hlu.inum ip hip
        rw [Option.map_some, ← hiu] at hfind
        simp only [run_get_bind, hu.type_eq hip hvu, hsu.node]
        split_ifs with hif
        · rw [Option.filter_some, if_neg (by simpa using hif)] at hfind
          refine (iunlockput_looks hu (hR ip) (hsu.settled h.settled)).bind
            fun _ v ⟨hv, hlv⟩ => ends_ok.2 ⟨?_, (hsu.trans hlv).toStable, nofun, ?_⟩
          · rwa [ptr_none, add_zero]
          · rw [(hsu.trans hlv).node]
            exact hfind
        · rw [Option.filter_some, if_pos (decide_eq_true hif)] at hfind
          refine ends_ok.2 ⟨by rwa [ptr_some], hsu.toStable, ?_, ?_⟩
          · rintro _ ⟨⟩
            exact hvu
          · rw [hsu.node]
            exact hfind

/-- The current directory of a process. -/
def State.cwd (s : State) (p : Slot) : Option Inum := (s.proc p).cwd.map fun e => (s.cache e).inum

/-- The current directories do not change. -/
theorem State.cwd_eq (hcwd : (t.proc p).cwd = (s.proc p).cwd)
    (hinum : ∀ e, (s.proc p).cwd = some e → (t.cache e).inum = (s.cache e).inum) :
    t.cwd p = s.cwd p := by
  unfold State.cwd
  rw [hcwd]
  cases hc : (s.proc p).cwd with
  | none => rfl
  | some e => rw [Option.map_some, Option.map_some, hinum e hc]

/-- The inode of a descriptor. -/
def State.opened (s : State) (p : Slot) (fd : Fd) : Option Inum :=
  ((s.proc p).ofile fd).bind fun f => (s.file f).ip.map fun e => (s.cache e).inum

theorem Opened.effect {omode : UInt32} {o : Option Inum} (h : Opened s p path omode n' o) :
    Effect W ((Call.open_ p path omode).adds s) none none s.node n' := by
  cases h with
  | create ho hpath h =>
    refine h.effect (by decide) rfl ?_ nofun
    simp only [Call.adds, ho, if_true, hpath]
  | find ho hpath hn => exact .same hn

theorem sysOpen_ends {omode : UInt32} (h : Steady B s) (hB : B → Whole s.node) :
    Ends (fun r t => Steady B t ∧ Effect W ((Call.open_ p path omode).adds s) none none s.node t.node ∧
      ∀ fd, r = some fd → (∃ i, t.opened p fd = some i ∧ Opened s p path omode t.node (some i)) ∧
        (t.proc p).containerID = (s.proc p).containerID ∧ t.cwd p = s.cwd p)
      (Legal B) (sysOpen p path omode s) := by
  refine (openInode_ends h.cached (hold_nonneg s) .hold hB).bind
    fun o t ⟨ht, hst, hvt, hop⟩ => ?_
  have heff : Effect W ((Call.open_ p path omode).adds s) none none s.node t.node := hop.effect
  have hclosed : Closed t := fun f => by
    rw [hst.file]
    exact h.closed f
  rw [← hst.hold] at ht
  cases o with
  | none =>
    rw [ptr_none, add_zero] at ht
    exact ends_ok.2 ⟨⟨ht, hclosed⟩, heff, nofun⟩
  | some ip =>
    rw [ptr_some] at ht
    have hpos : 0 < (hold t + one ip) ip := add_one_pos (hold_nonneg t ip)
    refine filealloc_ends.bind fun o u hu => ?_
    cases o with
    | none =>
      subst hu
      refine (iunlockput_ends ht (hold_nonneg _ ip)).bind fun _ v ⟨hv, hsv, hnv⟩ => ?_
      exact ends_ok.2 ⟨hsv.steady hclosed hv, heff.sweep (.of_or hnv), nofun⟩
    | some f =>
      obtain ⟨href, hu⟩ := hu
      have hnone : (t.file f).ip = none := hclosed f href
      have hqu : Quiet t u := hu ▸ .setFile rfl
      have hcu : Closed u := hu ▸ hclosed.setFile fun h1 => absurd h1 one_ne_zero
      refine fdalloc_ends.bind fun o v ⟨hqv, hfv, hown, hfd⟩ => ?_
      have hqtv := hqu.trans hqv
      have hcv : Closed v := fun g => by
        rw [hfv]
        exact hcu g
      have hv : Cached B (hold v + one ip) v := by
        rw [hqtv.hold]
        exact hqtv.cached ht
      rw [← hqtv.node] at heff
      cases o with
      | none =>
        refine (fileclose_ends hv (one_nonneg ip) hcv).bind fun _ w ⟨hw, hcw, _, hsw⟩ => ?_
        refine (iunlockput_ends hw (hold_nonneg w ip)).bind fun _ z ⟨hz, hsz, hnz⟩ => ?_
        exact ends_ok.2 ⟨hsz.steady hcw hz, (heff.sweep hsw).sweep (.of_or hnz), nofun⟩
      | some fd =>
        refine (iunlock_ends hv).bind fun _ w ⟨hw, hlw⟩ => ?_
        simp only [run_modify_bind, run_pure, ends_ok]
        have hfile : w.file f = { t.file f with ref := 1 } := by
          rw [hlw.file, hfv, hu]
          exact Function.update_self ..
        have hnode : w.node = t.node := hlw.node.trans hqtv.node
        have hinum : (w.cache ip).inum = (t.cache ip).inum := by
          rw [hlw.inum ip (add_one_pos (hold_nonneg v ip)), hqtv.cache]
        have hcw : Closed w := fun g => by
          rw [hlw.file]
          exact hcv g
        obtain ⟨x, hx⟩ : ∃ x : File, x = { w.file f with
          ip := some ip
          readable := omode &&& O_WRONLY == 0
          writable := omode &&& O_WRONLY != 0 || omode &&& O_RDWR != 0 } := ⟨_, rfl⟩
        rw [← hx]
        have hxip : x.ip = some ip := by rw [hx]
        have hhold := hold_setFile (s := w) (f := f) x
        rw [hfile, hnone, ptr_none, add_zero, hxip, ptr_some, hlw.hold] at hhold
        refine ⟨⟨?_, hcw.setFile fun h0 => ?_⟩, ?_, ?_⟩
        · rw [hhold]
          exact hw.setFile f x
        · rw [hx, hfile] at h0
          exact absurd h0 one_ne_zero
        · change Effect _ _ _ _ _ w.node
          rwa [hnode, ← hqtv.node]
        · rintro _ ⟨⟩
          refine ⟨⟨(t.cache ip).inum, ?_, ?_⟩, ?_, State.cwd_eq ?_ fun e he => ?_⟩
          · have hself : (w.setFile f x).file f = x := Function.update_self ..
            have hofile : ((w.setFile f x).proc p).ofile fd = some f := by
              change (w.proc p).ofile fd = some f
              rw [hlw.proc]
              exact hfd fd rfl
            rw [State.opened, hofile, Option.bind_some, hself, hx]
            exact congrArg some hinum
          · change Opened _ _ _ _ w.node _
            rw [hnode]
            exact hop
          · change (w.proc p).containerID = _
            rw [hlw.proc, hown, hu, ← hst.proc]
            rfl
          · change (w.proc p).cwd = _
            rw [hlw.proc, hqtv.cwd, hst.proc]
          · change (w.cache e).inum = _
            have hpos : 0 < hold v e := by
              rw [hqtv.hold, hst.hold]
              exact hold_cwd he
            rw [hlw.inum e (lt_add_one hpos ip), hqtv.cache, hst.inum e (hold_cwd he)]

end Xv6Container.Names
