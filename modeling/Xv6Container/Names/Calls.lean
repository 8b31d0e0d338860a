import Xv6Container.Names.Create

/-! The other calls: `sys_link`, `sys_unlink`, `sys_chdir`, `sys_close` and what `exit` and
`fork` do to files. A step of the system keeps the references right and has the effect on
the tree that `Names.Edits` allows its call. -/

namespace Xv6Container.Names

open Lib Fs

variable {B W : Prop} {R K : Entry → ℤ} {s t u : State} {e dp ip : Entry} {i d : Inum} {p q : Slot}
  {f : FileId} {n n' m : Inum → Node} {name : Name} {off : ℕ} {path : CString}
  {adds makes removes : Option Inum}

/-! ### `sys_link` -/

/-- Only types and entries matter to a lookup, and where it starts. -/
theorem State.lookup_congr (h : Stable R s t) (hcwd : Seated R s)
    (htype : ∀ i, (t.node i).attr.type = (s.node i).attr.type)
    (hentries : ∀ i, (t.node i).entries = (s.node i).entries) (parent : Bool) :
    t.lookup p path parent = s.lookup p path parent := by
  have horigin : t.origin p path = s.origin p path := by
    unfold State.origin
    rw [h.proc]
    congr 1
    cases hc : (s.proc p).cwd with
    | none => rfl
    | some e => rw [Option.map_some, Option.map_some, h.inum e (hcwd p e hc)]
  unfold State.lookup
  rw [horigin]
  congr 1
  funext i
  exact resolve_congr htype hentries parent i _ _

theorem Whole.congr (h : Whole n) (htype : ∀ i, (n' i).attr.type = (n i).attr.type)
    (hentries : ∀ i, (n' i).entries = (n i).entries) : Whole n' := by
  refine ⟨?_, fun d name i hd hi => ?_⟩
  · rw [htype]
    exact h.root
  · rw [htype] at hd ⊢
    rw [hentries] at hi
    exact h.entries d name i hd hi

/-- New attributes do not change a lookup. -/
theorem State.setAttr_type {a : Attr} (ha : a.type = (s.node (s.cache e).inum).attr.type)
    (j : Inum) : ((s.setAttr e a).node j).attr.type = (s.node j).attr.type := by
  by_cases hj : j = (s.cache e).inum
  · rw [hj, State.setAttr_node, Function.update_self, ha]
  · rw [State.setAttr_node, Function.update_of_ne hj]

theorem State.setAttr_entries (a : Attr) (j : Inum) :
    ((s.setAttr e a).node j).entries = (s.node j).entries := by
  by_cases hj : j = (s.cache e).inum
  · rw [hj, State.setAttr_node, Function.update_self]
  · rw [State.setAttr_node, Function.update_of_ne hj]

theorem linkBad_ends (h : Cached B (R + one ip) s) (hR : ∀ x, 0 ≤ R x) :
    Ends (fun _ t => Cached B R t ∧ Stable R s t ∧ ∃ m, m = Function.update s.node
      (s.cache ip).inum ⟨{ (s.node (s.cache ip).inum).attr with
        nlink := (s.node (s.cache ip).inum).attr.nlink - 1 },
        (s.node (s.cache ip).inum).entries⟩ ∧ Swept m t.node) (Legal B) (linkBad ip s) := by
  have hip : 0 < (R + one ip) ip := add_one_pos (hR ip)
  refine (ilock_ends h hip).bind fun _ t ⟨ht, hl, hv⟩ => ?_
  simp only [decLink]
  rw [setCopy_iupdate_bind]
  have hset := ht.setAttr hip hv
    (a := { (t.cache ip).copy with nlink := (t.cache ip).copy.nlink - 1 }) rfl
  refine (iunlockput_ends hset (hR ip)).post fun _ u ⟨hu, hsu, hnu⟩ => ?_
  refine ⟨hu, hl.toStable.drop.trans ((Stable.setAttr _).trans hsu), _, rfl, ?_⟩
  rw [State.setAttr_node, ht.copy_eq hip hv, hl.inum ip hip, hl.node] at hnu
  exact .of_or hnu

/-- A link that is taken back. -/
theorem update_link_unlink (h : n' = Function.update n i
    ⟨{ (n i).attr with nlink := (n i).attr.nlink + 1 }, (n i).entries⟩) :
    Function.update n' i ⟨{ (n' i).attr with nlink := (n' i).attr.nlink - 1 }, (n' i).entries⟩ =
      n := by
  rw [h, Function.update_idem, Function.update_self]
  simp only [add_sub_cancel_right]
  exact Function.update_eq_self i n

/-- `sys_link` after it has found the directory. -/
theorem linkEntry_ends (h : Cached B (R + one ip + one dp) s) (hR : ∀ x, 0 ≤ R x)
    (hs : Settled (R + one ip) s) (hB : B → Whole s.node)
    (hi : (s.cache ip).inum = i) (hd : (s.cache dp).inum = d) (hi0 : i ≠ 0) :
    Ends (fun _ t => Cached B R t ∧ Stable R s t ∧
      ((s.node d).attr.type = .dir ∧ findEntry (s.node d).entries name = none ∧
          Swept (Function.update s.node d
            ⟨(s.node d).attr, insertFree (s.node d).entries (some (name, i))⟩) t.node ∨
        Swept (Function.update s.node i ⟨{ (s.node i).attr with
          nlink := (s.node i).attr.nlink - 1 }, (s.node i).entries⟩) t.node)) (Legal B)
      ((do
        ilock dp
        if ← dirlink dp name ((← get).cache ip).inum then
          iunlockput dp
          iput ip
          return true
        else
          iunlockput dp
          linkBad ip
          return false) s) := by
  have hip : 0 < (R + one ip) ip := add_one_pos (hR ip)
  have hRip := add_one_nonneg hR ip
  have hdp : 0 < (R + one ip + one dp) dp := add_one_pos (hRip dp)
  have hip' : 0 < (R + one ip + one dp) ip := lt_add_one hip dp
  refine (ilock_ends h hdp).bind fun _ t ⟨ht, hl, hv⟩ => ?_
  have hit : (t.cache ip).inum = i := (hl.inum ip hip').trans hi
  have hdt : (t.cache dp).inum = d := (hl.inum dp hdp).trans hd
  simp only [run_get_bind]
  refine (dirlink_ends ht hRip hv (hl.whole hB) (hit ▸ hi0)).bind
    fun b u ⟨hu, hsu, hb⟩ => ?_
  rw [hdt, hit, hl.node] at hb
  have hst : Stable (R + one ip) s u := hl.toStable.drop.trans hsu.drop
  cases b with
  | true =>
    obtain ⟨hdir, hf, hnu⟩ := hb
    refine (iunlockput_ends hu (hRip dp)).bind fun _ v ⟨hv', hsv, hnv⟩ => ?_
    refine (iput_ends hv' (hR ip)).bind fun _ w ⟨hw, hsw, hnw⟩ => ?_
    refine ends_ok.2 ⟨hw, (hst.trans hsv).drop.trans hsw, Or.inl ⟨hdir, hf, ?_⟩⟩
    rw [← hnu]
    exact (Swept.of_or hnv).trans (Swept.of_or hnw)
  | false =>
    have hsettled : Settled (R + one ip) u := by
      have hlu : Looked (R + one ip) s u := ⟨hst, hb⟩
      exact hlu.settled hs
    refine (iunlockput_looks hu (hRip dp) hsettled).bind fun _ v ⟨hv', hlv⟩ => ?_
    refine (linkBad_ends hv' hR).bind fun _ w ⟨hw, hsw, m, hm, hnw⟩ => ?_
    refine ends_ok.2 ⟨hw, (hst.trans hlv.toStable).drop.trans hsw, Or.inr ?_⟩
    rw [hlv.inum ip hip, hst.inum ip hip, hi, hlv.node, hb] at hm
    exact hm ▸ hnw

theorem sysLink_ends {old new : CString} (h : Steady B s) (hB : B → Whole s.node) :
    Ends (fun _ t => Steady B t ∧ Effect W ((Call.link p old new).adds s) none none s.node t.node)
      (Legal B) (sysLink p old new s) := by
  have hR := hold_nonneg s
  refine (namei_ends h.cached hR .hold hB).bind ?_
  rintro o t ⟨ht, hl, htarget⟩
  cases o with
  | none =>
    rw [ptr_none, add_zero] at ht
    exact ends_ok.2 ⟨hl.toStable.steady h.closed ht, .same hl.node⟩
  | some ip =>
    rw [ptr_some] at ht
    have hip : 0 < (hold s + one ip) ip := add_one_pos (hR ip)
    refine (ilock_ends ht hip).bind ?_
    rintro _ u ⟨hu, hlu, hvu⟩
    have hsu : Looked (hold s) s u := hl.trans hlu.drop
    obtain ⟨i, hi⟩ : ∃ i, i = (u.cache ip).inum := ⟨_, rfl⟩
    rw [Option.map_some, ← hlu.inum ip hip, ← hi] at htarget
    have htype := hu.type_eq hip hvu
    have hfree := (hu.synced ip hip hvu).2
    have hcopy := hu.copy_eq hip hvu
    rw [← hi, hsu.node] at htype hfree hcopy
    simp only [run_get_bind]
    split_ifs with hdir
    · refine (iunlockput_looks hu (hR ip) (hsu.settled h.cached.settled)).bind ?_
      rintro _ v ⟨hv, hlv⟩
      exact ends_ok.2 ⟨(hsu.trans hlv).toStable.steady h.closed hv, .same (hsu.trans hlv).node⟩
    · rw [htype] at hdir
      refine incLink_bind ?_
      obtain ⟨v, hv⟩ : ∃ v, v = u.setAttr ip
        { (u.cache ip).copy with nlink := (u.cache ip).copy.nlink + 1 } := ⟨_, rfl⟩
      rw [← hv]
      have hcv : Cached B (hold s + one ip) v := hv ▸ hu.setAttr hip hvu rfl
      have hstv : Stable (hold s + one ip) u v := hv ▸ .setAttr _
      have hnv : v.node = Function.update s.node i
          ⟨{ (s.node i).attr with nlink := (s.node i).attr.nlink + 1 }, (s.node i).entries⟩ := by
        rw [hv, State.setAttr_node, hcopy, ← hi, hsu.node]
      have htypes : ∀ j, (v.node j).attr.type = (s.node j).attr.type := fun j => by
        rw [hv, State.setAttr_type (by rw [hcopy, ← hi, hsu.node]), hsu.node]
      have hentries : ∀ j, (v.node j).entries = (s.node j).entries := fun j => by
        rw [hv, State.setAttr_entries, hsu.node]
      refine (iunlock_ends hcv).bind ?_
      rintro _ w ⟨hw, hlw⟩
      have hsw : Stable (hold s + one ip) u w := hstv.trans hlw.toStable
      have hall : Stable (hold s) s w := hsu.toStable.trans hsw.drop
      have hiw : (w.cache ip).inum = i := (hsw.inum ip hip).trans hi.symm
      have hBw : B → Whole w.node := fun b => by
        rw [hlw.node]
        exact (hB b).congr htypes hentries
      have hRip := add_one_nonneg hR ip
      have hseated : Seated (hold s + one ip) w := fun q e he => by
        rw [hall.proc] at he
        exact lt_add_one (hold_cwd he) ip
      refine (nameiparent_ends hw hRip hseated hBw).bind ?_
      rintro o x ⟨hx, hlx, hpar⟩
      have hparent : w.parentOf p new = s.parentOf p new :=
        State.lookup_congr hall .hold (fun j => by rw [hlw.node, htypes])
          (fun j => by rw [hlw.node, hentries]) true
      rw [hparent] at hpar
      have hnx : x.node = v.node := hlx.node.trans hlw.node
      have hix : (x.cache ip).inum = i := (hlx.inum ip hip).trans hiw
      have hstx : Stable (hold s) s x := hall.trans hlx.toStable.drop
      have hback := update_link_unlink hnv
      rw [← hnx] at hback
      cases o with
      | none =>
        rw [gain, add_zero] at hx
        refine (linkBad_ends hx hR).bind ?_
        rintro _ y ⟨hy, hsy, m, hm, hny⟩
        refine ends_ok.2 ⟨(hstx.trans hsy).steady h.closed hy, _, .same, ?_⟩
        rw [hix, hback] at hm
        exact hm ▸ hny
      | some y =>
        obtain ⟨dp, name⟩ := y
        have hdp : 0 < (hold s + one ip + one dp) dp := add_one_pos (hRip dp)
        have hi0 : i ≠ 0 := fun h0 => by
          rw [h0] at hfree
          exact hfree h.cached.zero
        refine (linkEntry_ends hx hR (hlx.settled hw.settled)
          (fun b => by rw [hlx.node]; exact hBw b) hix rfl hi0).post ?_
        rintro _ z ⟨hz, hsz, hnz⟩
        refine ⟨(hstx.trans hsz).steady h.closed hz, ?_⟩
        obtain ⟨d, hd⟩ : ∃ d, d = (x.cache dp).inum := ⟨_, rfl⟩
        rw [← hd, hback] at hnz
        rw [Option.map_some, ← hd] at hpar
        rcases hnz with ⟨hddir, hf, hsw⟩ | hsw
        · rw [hnx, htypes] at hddir
          rw [hnx, hentries] at hf
          have hdi : d ≠ i := by
            rintro rfl
            exact hdir hddir
          refine ⟨_, .link ?_ hddir hf hdir hfree, ?_⟩
          · simp only [Call.adds, htarget, Option.bind_some, if_neg hdir]
            rw [State.absentIn, hpar]
            exact if_pos hf
          · rw [hnx, hnv, Function.update_of_ne hdi] at hsw
            exact hsw
        · exact ⟨_, .same, hsw⟩

/-! ### `sys_unlink` -/

theorem Settled.setEntries (h : Settled R s) (entries : List Dirent) :
    Settled R (s.setEntries i entries) := by
  have hattr : ∀ j, ((s.setEntries i entries).node j).attr = (s.node j).attr := fun j => by
    by_cases hj : j = i
    · rw [hj, State.setEntries_node, Function.update_self]
    · rw [State.setEntries_node, Function.update_of_ne hj]
  intro j hj hn
  rw [hattr] at hj hn
  exact h j hj hn

/-- The end of `sys_unlink`: the inode loses its link. -/
theorem dropLink_ends (h : Cached B (R + one ip) s) (hR : ∀ x, 0 ≤ R x)
    (hv : (s.cache ip).valid = true) (hi : (s.cache ip).inum = i) :
    Ends (fun _ t => Cached B R t ∧ Stable R s t ∧ Swept (Function.update s.node i
      ⟨{ (s.node i).attr with nlink := (s.node i).attr.nlink - 1 }, (s.node i).entries⟩) t.node)
      (Legal B) ((do
        decLink ip
        iupdate ip
        iunlockput ip
        return true) s) := by
  have hip : 0 < (R + one ip) ip := add_one_pos (hR ip)
  simp only [decLink]
  rw [setCopy_iupdate_bind]
  have hset := h.setAttr hip hv
    (a := { (s.cache ip).copy with nlink := (s.cache ip).copy.nlink - 1 }) rfl
  refine (iunlockput_ends hset (hR ip)).bind fun _ t ⟨ht, hst, hnt⟩ => ?_
  rw [State.setAttr_node, h.copy_eq hip hv, hi] at hnt
  exact ends_ok.2 ⟨ht, (Stable.setAttr _).trans hst, .of_or hnt⟩

theorem unlinkEntry_ends (h : Cached B (R + one dp + one ip) s) (hR : ∀ x, 0 ≤ R x)
    (hs : Settled R s) (hvd : (s.cache dp).valid = true) (hd : (s.cache dp).inum = d)
    (hi : (s.cache ip).inum = i) (hdir : (s.node d).attr.type = .dir)
    (hoff : (s.node d).entries[off]? = some (some (name, i))) (hdot : name ≠ .dot)
    (hdotdot : name ≠ .dotdot) (hun : W)
    (hrem : (s.node i).attr.type = .dir → isdirempty (s.node i).entries = true →
      removes = some i) :
    Ends (fun _ t => Cached B R t ∧ Stable R s t ∧ Effect W adds makes removes s.node t.node)
      (Legal B) (unlinkEntry dp ip off s) := by
  have hRdp := add_one_nonneg hR dp
  have hRip := add_one_nonneg hR ip
  have hip : 0 < (R + one dp + one ip) ip := add_one_pos (hRdp ip)
  have hdp : 0 < (R + one dp + one ip) dp := lt_add_one (add_one_pos (hR dp)) ip
  have hipos : 0 < (R + one ip) ip := add_one_pos (hR ip)
  refine (ilock_ends h hip).bind fun _ t ⟨ht, hl, hv⟩ => ?_
  have hit : (t.cache ip).inum = i := (hl.inum ip hip).trans hi
  have hdt : (t.cache dp).inum = d := (hl.inum dp hdp).trans hd
  have hvdt := hl.valid dp hdp hvd
  have hst : Settled R t := hl.drop.drop.settled hs
  have hfree := (ht.synced ip hip hv).2
  simp only [run_get_bind, ht.type_eq hip hv, hit, hl.node]
  rw [hit, hl.node] at hfree
  split_ifs with hnlink hfull htype
  · exact ends_error.2 (legal_panic (by decide))
  · refine (iunlockput_looks ht (hRdp ip) (hst.mono dp)).bind fun _ u ⟨hu, hlu⟩ => ?_
    refine (iunlockput_looks hu (hR dp) (hlu.drop.settled hst)).bind fun _ v ⟨hv', hlv⟩ => ?_
    have hall : Looked R s v := hl.drop.drop.trans (hlu.drop.trans hlv)
    exact ends_ok.2 ⟨hv', hall.toStable, .same hall.node⟩
  · -- a directory: the parent loses the link of `..`
    have hempty : isdirempty (s.node i).entries = true := by
      simpa using fun he => hfull ⟨htype, he⟩
    rw [writeEntry_bind, hdt, hl.node]
    have hput : put (s.node d).entries off none = (s.node d).entries.set off none :=
      if_pos (List.getElem?_eq_some_iff.1 hoff).1
    rw [hput]
    obtain ⟨u, hu⟩ : ∃ u, u = t.setEntries d ((s.node d).entries.set off none) := ⟨_, rfl⟩
    rw [← hu]
    have hcu : Cached B (R + one dp + one ip) u := hu ▸ ht.setEntries _
    have hsu : Stable (R + one dp + one ip) t u := hu ▸ .setEntries _
    have hdu : (u.cache dp).inum = d := (hsu.inum dp hdp).trans hdt
    have hvdu := hsu.valid dp hdp hvdt
    have hud : u.node d = ⟨(s.node d).attr, (s.node d).entries.set off none⟩ := by
      rw [hu, State.setEntries_node, Function.update_self, hl.node]
    simp only [decLink]
    rw [setCopy_iupdate_bind]
    obtain ⟨v, hv'⟩ : ∃ v, v = u.setAttr dp
      { (u.cache dp).copy with nlink := (u.cache dp).copy.nlink - 1 } := ⟨_, rfl⟩
    rw [← hv']
    have hcv : Cached B (R + one ip + one dp) v := by
      rw [add_right_comm]
      exact hv' ▸ hcu.setAttr hdp hvdu rfl
    have hsv : Stable (R + one ip + one dp) u v := hv' ▸ .setAttr _
    have hnv : v.node = Function.update s.node d
        ⟨{ (s.node d).attr with nlink := (s.node d).attr.nlink - 1 },
          (s.node d).entries.set off none⟩ := by
      rw [hv', State.setAttr_node, hcu.copy_eq hdp hvdu, hdu, hud, hu, State.setEntries_node,
        Function.update_idem, hl.node]
    refine (iunlockput_ends hcv (hRip dp)).bind fun _ w ⟨hw, hsw, hnw⟩ => ?_
    have hdv : (v.cache dp).inum = d :=
      (hsv.inum dp (add_one_pos (hRip dp))).trans hdu
    have hstw : Stable (R + one ip) t w := by
      rw [add_right_comm] at hsu
      exact (hsu.trans hsv).drop.trans hsw
    rw [hdv] at hnw
    refine (dropLink_ends hw hR (hstw.valid ip hipos hv)
      ((hstw.inum ip hipos).trans hit)).post fun _ x ⟨hx, hsx, hnx⟩ => ?_
    refine ⟨hx, (hl.toStable.drop.drop.trans hstw.drop).trans hsx, _, ?_, hnx⟩
    exact .removeDir hun (hrem htype hempty) hdir hoff hdot hdotdot htype hempty hnv hnw
  · -- anything else: the parent is still in use if it has no link
    rw [writeEntry_bind, hdt, hl.node]
    have hput : put (s.node d).entries off none = (s.node d).entries.set off none :=
      if_pos (List.getElem?_eq_some_iff.1 hoff).1
    rw [hput]
    obtain ⟨u, hu⟩ : ∃ u, u = t.setEntries d ((s.node d).entries.set off none) := ⟨_, rfl⟩
    rw [← hu]
    have hcu : Cached B (R + one ip + one dp) u := by
      rw [add_right_comm]
      exact hu ▸ ht.setEntries _
    have hsu : Stable (R + one ip + one dp) t u := hu ▸ .setEntries _
    have hnu : u.node = Function.update s.node d
        ⟨(s.node d).attr, (s.node d).entries.set off none⟩ := by
      rw [hu, State.setEntries_node, hl.node]
    have hsettled : Settled (R + one ip) u := hu ▸ (hst.setEntries _).mono ip
    refine (iunlockput_looks hcu (hRip dp) hsettled).bind fun _ w ⟨hw, hlw⟩ => ?_
    have hstw : Stable (R + one ip) t w := hsu.drop.trans hlw.toStable
    refine (dropLink_ends hw hR (hstw.valid ip hipos hv)
      ((hstw.inum ip hipos).trans hit)).post fun _ x ⟨hx, hsx, hnx⟩ => ?_
    refine ⟨hx, (hl.toStable.drop.drop.trans hstw.drop).trans hsx, _, ?_, hnx⟩
    have hid : i ≠ d := by
      rintro rfl
      exact htype hdir
    rw [hlw.node, hnu, Function.update_of_ne hid]
    exact .remove hun hdir hoff hdot hdotdot htype hfree

theorem sysUnlink_ends (h : Steady B s) (hB : B → Whole s.node) :
    Ends (fun _ t => Steady B t ∧
      Effect ((Call.unlink p path).unlinks = true) none none
        ((Call.unlink p path).removes s) s.node t.node) (Legal B)
      (sysUnlink p path s) := by
  have hR := hold_nonneg s
  have hsettled := h.cached.settled
  refine (nameiparent_ends h.cached hR .hold hB).bind ?_
  rintro o t ⟨ht, hl, hpar⟩
  cases o with
  | none =>
    rw [gain, add_zero] at ht
    exact ends_ok.2 ⟨hl.toStable.steady h.closed ht, .same hl.node⟩
  | some x =>
    obtain ⟨dp, name⟩ := x
    have hdp : 0 < (hold s + one dp) dp := add_one_pos (hR dp)
    refine (ilock_ends ht hdp).bind ?_
    rintro _ u ⟨hu, hlu, hvu⟩
    have hsu : Looked (hold s) s u := hl.trans hlu.drop
    obtain ⟨d, hd⟩ : ∃ d, d = (u.cache dp).inum := ⟨_, rfl⟩
    rw [Option.map_some, ← hlu.inum dp hdp, ← hd] at hpar
    have hput : Ends (fun _ v => Steady B v ∧
        Effect ((Call.unlink p path).unlinks = true) none none
          ((Call.unlink p path).removes s) s.node v.node) (Legal B)
        ((do
          iunlockput dp
          return false) u) := by
      refine (iunlockput_looks hu (hR dp) (hsu.settled hsettled)).bind ?_
      rintro _ v ⟨hv, hlv⟩
      exact ends_ok.2 ⟨(hsu.trans hlv).toStable.steady h.closed hv, .same (hsu.trans hlv).node⟩
    split_ifs with hdots
    · exact hput
    · rw [not_or] at hdots
      refine (dirlookup_ends hu hdp hvu (hsu.whole hB) name).bind ?_
      rintro o v ⟨hv, hlv, hdir, hfind⟩
      have hsv : Looked (hold s) s v := hsu.trans hlv.drop
      rw [← hd, hsu.node] at hdir hfind
      cases o with
      | none =>
        rw [gain, add_zero] at hv
        refine (iunlockput_looks hv (hR dp) (hsv.settled hsettled)).bind ?_
        rintro _ w ⟨hw, hlw⟩
        exact ends_ok.2 ⟨(hsv.trans hlw).toStable.steady h.closed hw,
          .same (hsv.trans hlw).node⟩
      | some y =>
        obtain ⟨ip, off⟩ := y
        have hdv : (v.cache dp).inum = d := (hlv.inum dp hdp).trans hd.symm
        have hrem : (v.node (v.cache ip).inum).attr.type = .dir →
            isdirempty (v.node (v.cache ip).inum).entries = true →
            (Call.unlink p path).removes s = some (v.cache ip).inum := by
          rw [hsv.node]
          intro htype hempty
          simp only [Call.removes, hpar, Option.bind_some, hdots.1, hdots.2, or_self, if_false]
          rw [hfind]
          exact if_pos ⟨htype, hempty⟩
        have hentry : Ends (fun _ w => Cached B (hold s) w ∧ Stable (hold s) v w ∧
            Effect ((Call.unlink p path).unlinks = true) none none
              ((Call.unlink p path).removes s) v.node w.node) (Legal B)
            (unlinkEntry dp ip off v) :=
          unlinkEntry_ends hv hR (hsv.settled hsettled) (hlv.valid dp hdp hvu) hdv rfl
            (by rwa [hsv.node]) (by rw [hsv.node]; exact findEntry_mem hfind) hdots.1 hdots.2 rfl hrem
        rw [hsv.node] at hentry
        refine hentry.post ?_
        rintro _ w ⟨hw, hsw, heff⟩
        exact ⟨(hsv.toStable.trans hsw).steady h.closed hw, heff⟩

/-! ### Current directories and open files -/

/-- The references without the current directory of a process. -/
def holdBut (s : State) (p : Slot) : Entry → ℤ := hold (s.setProc p { s.proc p with cwd := none })

theorem holdBut_add : holdBut s p + ptr (s.proc p).cwd = hold s := by
  have hhold := hold_setProc (s := s) (p := p) { s.proc p with cwd := none }
  rwa [ptr_none, add_zero] at hhold

theorem putCwd_ends (h : Cached B (hold s + K) s) (hK : ∀ x, 0 ≤ K x) :
    Ends (fun _ t => Cached B (holdBut s p + K) t ∧ Stable (holdBut s p + K) s t ∧
      Swept s.node t.node) (Legal B) (putCwd p s) := by
  simp only [putCwd, run_get_bind]
  cases hcwd : (s.proc p).cwd with
  | none => exact ends_error.2 legal_disabled
  | some cwd =>
    rw [← holdBut_add (p := p), hcwd, ptr_some, add_right_comm] at h
    refine (iput_ends h (add_nonneg (hold_nonneg _ cwd) (hK cwd))).post
      fun _ u ⟨hu, hsu, hnu⟩ => ⟨hu, hsu, .of_or hnu⟩

/-- The new current directory takes over the reference of the call. -/
theorem setCwd_ends {o : Option Entry} (h : Cached B (holdBut s p + ptr o) t)
    (hst : Stable R s t) (hc : Closed s) :
    Ends (fun _ u => Steady B u ∧ u.node = t.node) (Legal B) (setCwd p o t) := by
  rw [setCwd, run_modify, ends_ok]
  have hhold := hold_setProc (s := t) (p := p) { t.proc p with cwd := o }
  rw [hst.hold, ← holdBut_add (s := s) (p := p), hst.proc, add_right_comm] at hhold
  refine ⟨⟨?_, fun f => ?_⟩, rfl⟩
  · rw [hst.proc, add_right_cancel hhold]
    exact h.setProc p _
  · change (t.file f).ref = 0 → (t.file f).ip = none
    rw [hst.file]
    exact hc f

theorem sysChdir_ends (h : Steady B s) (hB : B → Whole s.node) :
    Ends (fun _ t => Steady B t ∧ Swept s.node t.node) (Legal B) (sysChdir p path s) := by
  have hR := hold_nonneg s
  refine (namei_ends h.cached hR .hold hB).bind fun o t ⟨ht, hl, _⟩ => ?_
  cases o with
  | none =>
    rw [ptr_none, add_zero] at ht
    exact ends_ok.2 ⟨hl.toStable.steady h.closed ht, hl.node ▸ .refl⟩
  | some ip =>
    rw [ptr_some] at ht
    have hip : 0 < (hold s + one ip) ip := add_one_pos (hR ip)
    refine (ilock_ends ht hip).bind fun _ u ⟨hu, hlu, _⟩ => ?_
    have hsu : Looked (hold s) s u := hl.trans hlu.drop
    simp only [run_get_bind]
    split_ifs with hdir
    · refine (iunlockput_looks hu (hR ip) (hsu.settled h.cached.settled)).bind
        fun _ v ⟨hv, hlv⟩ => ?_
      have hsv := hsu.trans hlv
      exact ends_ok.2 ⟨hsv.toStable.steady h.closed hv, hsv.node ▸ .refl⟩
    · refine (iunlock_ends hu).bind fun _ v ⟨hv, hlv⟩ => ?_
      have hsv : Looked (hold s) s v := hsu.trans hlv.drop
      rw [← hsv.toStable.hold] at hv
      refine (putCwd_ends hv (one_nonneg ip)).bind fun _ w ⟨hw, hsw, hnw⟩ => ?_
      rw [← ptr_some] at hw
      have hcv : Closed v := fun f => by
        rw [hsv.file]
        exact h.closed f
      refine (setCwd_ends hw hsw hcv).bind fun _ x ⟨hx, hnx⟩ => ends_ok.2 ⟨hx, ?_⟩
      rw [hnx, ← hsv.node]
      exact hnw

/-- A descriptor is set. -/
theorem Quiet.setFd {fd : Fd} {o : Option FileId} :
    Ends (fun _ t => Quiet s t ∧ t.file = s.file) (Legal B) (setFd p fd o s) :=
  ends_ok.2 ⟨.setProc rfl, rfl⟩

theorem Closed.congr (h : Closed s) (hf : t.file = s.file) : Closed t := fun f => by
  rw [hf]
  exact h f

theorem fileclose_steady (h : Steady B s) :
    Ends (fun _ t => Steady B t ∧ Swept s.node t.node) (Legal B) (fileclose f s) := by
  have hzero : ∀ x, 0 ≤ (0 : Entry → ℤ) x := fun _ => le_refl 0
  have hcached : Cached B (hold s + 0) s := by
    rw [add_zero]
    exact h.cached
  refine (fileclose_ends hcached hzero h.closed).post ?_
  rintro _ t ⟨ht, hct, _, hnt⟩
  rw [add_zero] at ht
  exact ⟨⟨ht, hct⟩, hnt⟩

theorem sysClose_ends {fd : Fd} (h : Steady B s) :
    Ends (fun _ t => Steady B t ∧ Swept s.node t.node) (Legal B) (sysClose p fd s) := by
  simp only [sysClose, run_get_bind]
  cases (s.proc p).ofile fd with
  | none => exact ends_ok.2 ⟨h, .refl⟩
  | some f =>
    refine Quiet.setFd.bind fun _ t ⟨hq, hf⟩ => ?_
    refine (fileclose_steady (h.quiet hq (h.closed.congr hf))).bind fun _ u ⟨hu, hnu⟩ => ?_
    rw [hq.node] at hnu
    exact ends_ok.2 ⟨hu, hnu⟩

theorem exit_ends (h : Steady B s) :
    Ends (fun _ t => Steady B t ∧ Swept s.node t.node) (Legal B) (exit p s) := by
  have hclose : Ends (fun _ t => Steady B t ∧ Swept s.node t.node) (Legal B) (closeAll p s) := by
    refine Ends.finRange (I := fun _ t => Steady B t ∧ Swept s.node t.node) ⟨h, .refl⟩ ?_
    rintro fd t ⟨ht, hnt⟩
    simp only [run_get_bind]
    cases (t.proc p).ofile fd with
    | none => exact ends_ok.2 ⟨ht, hnt⟩
    | some f =>
      refine (fileclose_steady ht).bind ?_
      rintro _ u ⟨hu, hnu⟩
      refine Quiet.setFd.post ?_
      rintro _ v ⟨hq, hf⟩
      refine ⟨hu.quiet hq (hu.closed.congr hf), ?_⟩
      rw [hq.node]
      exact hnt.trans hnu
  refine hclose.bind ?_
  rintro _ t ⟨ht, hnt⟩
  have hcached : Cached B (hold t + 0) t := by
    rw [add_zero]
    exact ht.cached
  refine (putCwd_ends hcached fun _ => le_refl 0).bind ?_
  rintro _ u ⟨hu, hsu, hnu⟩
  rw [← ptr_none] at hu
  refine (setCwd_ends hu hsu ht.closed).post ?_
  rintro _ v ⟨hv, hnv⟩
  refine ⟨hv, ?_⟩
  rw [hnv]
  exact hnt.trans hnu

theorem filedup_ends (hc : Closed s) :
    Ends (fun _ t => Quiet s t ∧ Closed t) (Legal B) (filedup f s) := by
  simp only [filedup, run_get_bind]
  split_ifs with href
  · exact ends_error.2 (legal_panic (by decide))
  · rw [run_modify, ends_ok]
    refine ⟨.setFile rfl, hc.setFile fun h0 => ?_⟩
    change (s.file f).ref + 1 = 0 at h0
    omega

theorem fork_ends {containerID : ℤ} (h : Steady B s) (hq : (s.proc q).cwd = none) :
    Ends (fun _ t => Steady B t ∧ t.node = s.node) (Legal B) (fork p q containerID s) := by
  rw [fork]
  refine (Ends.finRange (I := fun _ t => Quiet s t ∧ Closed t) ⟨.refl s, h.closed⟩ ?_).bind ?_
  · rintro fd t ⟨ht, hct⟩
    simp only [run_get_bind]
    cases (t.proc p).ofile fd with
    | none => exact ends_ok.2 ⟨ht, hct⟩
    | some f =>
      refine (filedup_ends hct).bind ?_
      rintro _ u ⟨hu, hcu⟩
      refine Quiet.setFd.post ?_
      rintro _ v ⟨hv, hf⟩
      exact ⟨(ht.trans hu).trans hv, hcu.congr hf⟩
  rintro _ t ⟨ht, hct⟩
  have hst := h.quiet ht hct
  simp only [run_get_bind]
  cases hcwd : (t.proc p).cwd with
  | none => exact ends_error.2 legal_disabled
  | some cwd =>
    refine (idup_ends hst.cached (hold_cwd hcwd)).bind ?_
    rintro e u ⟨he, hu, hlu⟩
    rw [run_modify, ends_ok]
    have hhold := hold_setProc (s := u) (p := q)
      { u.proc q with containerID := containerID, cwd := some e }
    rw [hlu.proc, ht.cwd, hq, ptr_none, add_zero, ptr_some, hlu.toStable.hold, he] at hhold
    refine ⟨⟨?_, hct.congr hlu.file⟩, hlu.node.trans ht.node⟩
    rw [hlu.proc, he, hhold]
    exact hu.setProc q _

theorem sysFstat_ends {fd : Fd} (h : Steady B s) :
    Ends (fun _ t => Steady B t ∧ t.node = s.node) (Legal B) (sysFstat p fd s) := by
  simp only [sysFstat, run_get_bind]
  cases (s.proc p).ofile fd with
  | none => exact ends_ok.2 ⟨h, rfl⟩
  | some f =>
    simp only [run_get_bind]
    cases hip : (s.file f).ip with
    | none => exact ends_ok.2 ⟨h, rfl⟩
    | some ip =>
      refine (ilock_ends h.cached (hold_file hip)).bind fun _ t ⟨ht, hl, _⟩ => ?_
      simp only [run_get_bind]
      refine (iunlock_ends ht).bind fun _ u ⟨hu, hlu⟩ => ends_ok.2 ⟨?_, ?_⟩
      · exact (hl.trans hlu).toStable.steady h.closed hu
      · exact (hl.trans hlu).node

/-! ### One step -/

theorem call_ends (c : Call) (h : Steady B s) (hB : B → Whole s.node) :
    Ends (fun _ t => Steady B t ∧ Effect (c.unlinks = true) (c.adds s) (c.makes s) (c.removes s) s.node t.node)
      (Legal B) (c.run s) := by
  have hquiet : ∀ {W : Prop} {n'}, Swept s.node n' → Effect W none none none s.node n' := fun hs =>
    ⟨_, .same, hs⟩
  cases c with
  | open_ p path omode =>
    exact (sysOpen_ends h hB).discard.post fun _ t ⟨_, ht, heff, _⟩ => ⟨ht, heff⟩
  | mkdir p path =>
    have hmake : Ends (fun _ t => Steady B t ∧ Effect (false = true) ((Call.mkdir p path).adds s)
        ((Call.mkdir p path).makes s) none s.node t.node) (Legal B) (sysMkdir p path s) :=
      sysMake_ends h hB (by decide) rfl fun _ => rfl
    exact hmake.discard.post fun _ t ⟨_, ht⟩ => ht
  | mknod p path major minor =>
    have hmake : Ends (fun _ t => Steady B t ∧ Effect (false = true) ((Call.mknod p path major minor).adds s)
        none none s.node t.node) (Legal B) (sysMknod p path major minor s) :=
      sysMake_ends h hB (by decide) rfl fun hdir => absurd hdir (by decide)
    exact hmake.discard.post fun _ t ⟨_, ht⟩ => ht
  | link p old new => exact (sysLink_ends h hB).discard.post fun _ t ⟨_, ht⟩ => ht
  | unlink p path => exact (sysUnlink_ends h hB).discard.post fun _ t ⟨_, ht⟩ => ht
  | chdir p path =>
    exact (sysChdir_ends h hB).discard.post fun _ t ⟨_, ht, hs⟩ => ⟨ht, hquiet hs⟩
  | close p fd => exact (sysClose_ends h).discard.post fun _ t ⟨_, ht, hs⟩ => ⟨ht, hquiet hs⟩
  | fstat p fd => exact (sysFstat_ends h).discard.post fun _ t ⟨_, ht, hn⟩ => ⟨ht, .same hn⟩
  | exit p => exact (exit_ends h).post fun _ t ⟨ht, hs⟩ => ⟨ht, hquiet hs⟩
  | fork p q containerID =>
    simp only [Call.run, run_get_bind]
    split_ifs with hq
    · exact (fork_ends h (Option.isNone_iff_eq_none.1 hq)).post
        fun _ t ⟨ht, hn⟩ => ⟨ht, .same hn⟩
    · exact ends_error.2 legal_disabled

/-- A step keeps the references right and has the effect of its call. -/
theorem step_ok {c : Call} (h : Steady B s) (hB : B → Whole s.node) (ht : step s c = .ok t) :
    Steady B t ∧ Effect (c.unlinks = true) (c.adds s) (c.makes s) (c.removes s) s.node t.node := by
  unfold step at ht
  split_ifs at ht
  cases hrun : c.run s with
  | ok a u =>
    rw [hrun] at ht
    cases ht
    exact (call_ends c h hB).1 _ _ hrun
  | error r u =>
    rw [hrun] at ht
    cases ht

/-- The stops of a step. -/
theorem step_error {c : Call} {r : Stop} (h : Steady B s) (hB : B → Whole s.node)
    (ht : step s c = .error r) : Legal B r := by
  unfold step at ht
  split_ifs at ht
  · cases ht
    exact legal_disabled
  · cases hrun : c.run s with
    | ok a u =>
      rw [hrun] at ht
      cases ht
    | error r' u =>
      rw [hrun] at ht
      cases ht
      exact (call_ends c h hB).2 _ _ hrun

end Xv6Container.Names
