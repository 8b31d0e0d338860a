import Xv6Container.Mkfs.Append

/-! The files of an image: what `iappend` leaves of them, and what the kernel reads. -/

namespace Xv6Container.Mkfs

open Lib Fs

variable {i j : Inum} {s t u : Image} {din din' : Dinode} {content : Inum → List UInt8} {b m n : ℕ}
  {x : Place} {p : List UInt8}

/-! ### A pass of the loop -/

namespace Found

/-- Block `b` is held in no other place. -/
theorem eq_of_own (hf : Found i s din x n din' b t) {y : Inum × Place}
    (hy : t.own i din' y = some b) : y = (i, x) :=
  hf.laid.owned.exact.unique _ _ b hy hf.here

/-- What is written into the block moves no reference. -/
theorem own_write (hf : Found i s din x n din' b t) (hx : x ≠ .addr indirect) (a : Block) :
    (t.write b a).own i din' = t.own i din' := by
  refine refs_data a fun k hk h0 heq => ?_
  have hind : t.own i din' (k, .addr indirect) = some b := by
    have hk : (t.table i din' k).type ≠ .free := hk
    have heq : (t.table i din' k).addrs indirect = b := heq
    rw [Image.own, refs_of_ne_free hk, Dinode.ref, heq, stored_of_ne]
    rw [← heq]
    exact h0
  exact hx (congrArg Prod.snd (hf.eq_of_own hind)).symm

theorem laid_write (hf : Found i s din x n din' b t) (hx : x ≠ .addr indirect) (a : Block) :
    Laid ((t.write b a).table i din') (t.write b a).freeblock (t.write b a).disk.data := by
  refine ⟨⟨?_, hf.laid.owned.metaUsed⟩, hf.laid.high, fun c hc => ?_⟩
  · have hown : refs ((t.write b a).table i din') (t.write b a).disk.data = _ := hf.own_write hx a
    rw [hown]
    exact hf.laid.owned.exact
  · have hlt := (hf.laid.lt hf.here).2
    have hc : t.freeblock ≤ c := hc
    show Function.update t.disk.data b a c = _
    rw [Function.update_of_ne (by omega)]
    exact hf.laid.zero c hc

/-- A block that another place holds keeps its bytes. -/
theorem data_write (hf : Found i s din x n din' b t) {y : Inum × Place} {c : ℕ} (a : Block)
    (hy : t.own i din' y = some c) (hyx : y ≠ (i, x)) (hyi : y ≠ (i, .addr indirect)) :
    (t.write b a).disk.data c = s.disk.data c := by
  have hcb : c ≠ b := by
    rintro rfl
    exact hyx (hf.eq_of_own hy)
  show Function.update t.disk.data b a c = _
  rw [Function.update_of_ne hcb]
  refine hf.data c fun hind => hyi ?_
  exact hf.laid.owned.exact.unique _ _ c hy hind

/-- The block itself keeps its bytes up to the write. -/
theorem data_here (hf : Found i s din x n din' b t) (hx : x ≠ .addr indirect) :
    t.disk.data b = s.disk.data b := by
  refine hf.data b fun hind => hx ?_
  exact (congrArg Prod.snd (hf.eq_of_own hind)).symm

end Found

theorem getD_eq_getElem {k : ℕ} (h : k < p.length) : p.getD k 0 = p[k] := by
  rw [List.getD_eq_getElem?_getD, List.getElem?_eq_getElem h]
  rfl

/-- The file that is written. -/
theorem Found.filed (hf : Found i s din x n din' b t) {l : List UInt8}
    (hfile : Filed (s.own i din) s.disk.data i l) (hx : blockPlace (l.length / BSIZE) = some x)
    (hpos : 0 < m) (hm : m ≤ p.length) (hfit : m ≤ BSIZE - l.length % BSIZE) :
    Filed (t.own i din') (t.write b (copyIn (t.disk.data b) (l.length % BSIZE) m
      fun k => p.getD k 0)).disk.data i (l ++ p.take m) := by
  have hxi := blockPlace_ne_indirect hx
  have hlength : (l ++ p.take m).length = l.length + m := by
    rw [List.length_append, List.length_take, Nat.min_eq_left hm]
  refine ⟨?_, fun bn y hy => ?_, ?_, fun o ho y c hy hc => ?_⟩
  · have := lt_of_blockPlace hx
    rw [hlength]
    simp only [MAXFILE, BSIZE] at this hfit ⊢
    omega
  · rw [hlength]
    by_cases hbn : bn = l.length / BSIZE
    · subst hbn
      cases hx.symm.trans hy
      rw [hf.here]
      refine ⟨fun _ => ?_, fun _ => nofun⟩
      have := Nat.div_mul_le_self l.length BSIZE
      omega
    · have hyx : y ≠ x := by
        rintro rfl
        exact hbn (blockPlace_inj hy hx)
      rw [hf.others (i, y) (by simpa using hyx) (by simpa using blockPlace_ne_indirect hy),
        hfile.place bn y hy]
      simp only [BSIZE] at hbn hfit ⊢
      omega
  · have hentry : (∃ e, x = .entry e) ↔ NDIRECT ≤ l.length / BSIZE := by
      unfold blockPlace at hx
      split_ifs at hx with h1 h2
      · cases hx
        simp only [reduceCtorEq, exists_false, false_iff]
        omega
      · cases hx
        simp only [Place.entry.injEq, exists_eq', true_iff]
        omega
    rw [hf.ind, hfile.ind, hentry, hlength]
    simp only [NDIRECT, BSIZE] at hfit ⊢
    omega
  · rw [hlength] at ho
    by_cases hbn : o / BSIZE = l.length / BSIZE
    · rw [hbn] at hy
      cases hx.symm.trans hy
      cases hf.here.symm.trans hc
      show Function.update t.disk.data b _ b _ = _
      rw [Function.update_self, copyIn]
      by_cases hlt : o < l.length
      · rw [if_neg (by simp only [BSIZE] at hbn ⊢; omega), hf.data_here hxi,
          List.getElem_append_left hlt]
        have hold : s.own i din (i, x) ≠ none := by
          rw [hfile.place _ x hx]
          simp only [BSIZE] at hbn ⊢
          omega
        obtain ⟨c, hc⟩ := Option.ne_none_iff_exists'.1 hold
        cases hf.old c hc
        exact hfile.bytes o hlt x b (hbn ▸ hx) hc
      · have hsub : o % BSIZE - l.length % BSIZE = o - l.length := by
          simp only [BSIZE] at hbn ⊢
          omega
        rw [if_pos (by simp only [BSIZE] at hbn hfit ⊢; omega),
          List.getElem_append_right (by omega), List.getElem_take]
        show p.getD (o % BSIZE - l.length % BSIZE) 0 = _
        rw [hsub, getD_eq_getElem]
    · have hlt : o < l.length := by
        simp only [BSIZE] at hbn hfit
        omega
      have hyx : ((i, y) : Inum × Place) ≠ (i, x) := by
        intro heq
        cases (Prod.mk.inj heq).2
        exact hbn (blockPlace_inj hy hx)
      have hyi : ((i, y) : Inum × Place) ≠ (i, .addr indirect) := by
        simpa using blockPlace_ne_indirect hy
      rw [hf.data_write _ hc hyx hyi, List.getElem_append_left hlt]
      rw [hf.others _ hyx hyi] at hc
      exact hfile.bytes o hlt y c hy hc

/-- A pass of the loop in `iappend`: `m` bytes of `p` are in the file. -/
theorem Work.pass (h : Work i s din content) (hf : Found i s din x n din' b t)
    (hx : blockPlace ((content i).length / BSIZE) = some x) (hpos : 0 < m) (hm : m ≤ p.length)
    (hfit : m ≤ BSIZE - (content i).length % BSIZE) :
    Work i (t.write b (copyIn (t.disk.data b) ((content i).length % BSIZE) m fun k => p.getD k 0))
      din' (Function.update content i (content i ++ p.take m)) := by
  have hxi := blockPlace_ne_indirect hx
  have hdin : din'.type ≠ .free := by
    rw [hf.type]
    exact h.alloc
  have hself : s.table i din i = din := Function.update_self ..
  refine ⟨hf.laid_write hxi _, hdin, fun j hj => ?_⟩
  rw [hf.own_write hxi]
  by_cases hji : j = i
  · subst hji
    rw [Function.update_self]
    exact hf.filed (h.files j (by rw [hself]; exact h.alloc)) hx hpos hm hfit
  · rw [Function.update_of_ne hji]
    have hinode : t.disk.inode = s.disk.inode := by rw [hf.rest]
    have hjs : (s.table i din j).type ≠ .free := by
      rw [Image.table, Function.update_of_ne hji, ← hinode]
      rw [Image.table, Function.update_of_ne hji] at hj
      exact hj
    have hne (y : Place) (z : Place) : ((j, y) : Inum × Place) ≠ (i, z) := by
      intro heq
      exact hji (Prod.mk.inj heq).1
    refine (h.files j hjs).congr (fun y => hf.others _ (hne y x) (hne y _)) fun y c _ hc => ?_
    rw [← hf.others _ (hne y x) (hne y _)] at hc
    exact hf.data_write _ hc (hne y x) (hne y _)

/-! ### `iappend` -/

/-- What is missing for the next byte, by the length of the file. -/
theorem Filed.missing {l : List UInt8} (h : Filed (s.own i din) s.disk.data i l)
    (hx : blockPlace (l.length / BSIZE) = some x) : need s i din x =
      (if l.length % BSIZE = 0 then 1 else 0) + if l.length = NDIRECT * BSIZE then 1 else 0 := by
  have hplace : s.own i din (i, x) = none ↔ l.length % BSIZE = 0 := by
    have := (h.place _ x hx).not
    rw [not_not] at this
    rw [this]
    simp only [BSIZE]
    omega
  have hind : s.own i din (i, .addr indirect) = none ↔ l.length ≤ NDIRECT * BSIZE := by
    have := h.ind.not
    rw [not_not, Nat.not_lt] at this
    exact this
  unfold need
  simp only [hplace]
  congr 1
  unfold blockPlace at hx
  split_ifs at hx with h1 h2
  · cases hx
    show 0 = if l.length = NDIRECT * BSIZE then 1 else 0
    rw [if_neg]
    simp only [NDIRECT, BSIZE] at h1 ⊢
    omega
  · cases hx
    simp only [hind]
    refine if_congr ?_ rfl rfl
    simp only [NDIRECT, BSIZE] at h1 ⊢
    omega

/-- Only `freeblock` and the data blocks differ. -/
def Rest (s t : Image) : Prop :=
  t = { s with freeblock := t.freeblock, disk := { s.disk with data := t.disk.data } }

theorem Rest.trans (h : Rest s t) (h' : Rest t u) : Rest s u := by
  unfold Rest at h h' ⊢
  rw [h', h]

/-- Why `iappend` of `k` bytes stops: the image is full, or the file is too long. -/
def Full (s : Image) (len k : ℕ) (e : Stop) : Prop :=
  e = .exit ∧ FSSIZE < s.freeblock + (cost (len + k) - cost len) ∨
    e = .assert ∧ MAXFILE * BSIZE < len + k

/-- The image after the loop: `din'` and `off` are to be written to the inode. -/
structure Appended (i : Inum) (s : Image) (din : Dinode) (content : Inum → List UInt8)
    (p : List UInt8) (r : Dinode × ℕ) (t : Image) : Prop where
  work : Work i t r.1 (Function.update content i (content i ++ p))
  off : r.2 = (content i ++ p).length
  type : r.1.type = din.type
  rest : Rest s t
  count : t.freeblock + cost (content i).length = s.freeblock + cost (content i ++ p).length

theorem appendLoop_ends (h : Work i s din content) {fuel : ℕ} (hfuel : p.length ≤ fuel) :
    Ends (Appended i s din content p) (Full s (content i).length p.length)
      (appendLoop fuel din (content i).length p s) := by
  induction fuel generalizing s din content p with
  | zero =>
    cases List.length_eq_zero_iff.1 (Nat.le_zero.1 hfuel)
    refine ends_ok.2 ⟨?_, ?_, rfl, rfl, ?_⟩
    · rw [List.append_nil, Function.update_eq_self]
      exact h
    · rw [List.append_nil]
    · rw [List.append_nil]
  | succ fuel ih =>
    rw [appendLoop]
    by_cases hp : p = []
    · subst hp
      rw [if_pos rfl]
      refine ends_ok.2 ⟨?_, ?_, rfl, rfl, ?_⟩
      · rw [List.append_nil, Function.update_eq_self]
        exact h
      · rw [List.append_nil]
      · rw [List.append_nil]
    · rw [if_neg hp]
      have hpos := List.length_pos_iff.2 hp
      dsimp only
      split_ifs with hfbn
      · obtain ⟨x, hx⟩ := blockPlace_of_lt hfbn
        have hself : s.table i din i = din := Function.update_self ..
        have hfile := h.files i (by rw [hself]; exact h.alloc)
        set off := (content i).length with hoff
        set m := min p.length ((off / BSIZE + 1) * BSIZE - off) with hm
        have hmpos : 0 < m := by
          simp only [BSIZE] at hm
          omega
        have hmle : m ≤ p.length := Nat.min_le_left ..
        have hfit : m ≤ BSIZE - off % BSIZE := by
          simp only [BSIZE] at hm ⊢
          omega
        have hneed : need s i din x + cost off = cost (off + m) := by
          rw [hfile.missing hx, cost_add hmpos hfit, Nat.add_comm]
        have hmono : cost (off + m) ≤ cost (off + p.length) := cost_mono (by omega)
        refine Ends.bind ((findBlock_ends h.laid h.alloc hx).mono (fun _ _ h => h) ?_) ?_
        · rintro e ⟨rfl, hshort⟩
          exact .inl ⟨rfl, by omega⟩
        · rintro ⟨din', b⟩ t (⟨hb, hf⟩ | ⟨hb, hshort⟩)
          · dsimp only at hf
            rw [run_bind_ok (rsect_run (hf.laid.lt hf.here).1)]
            have hmod : off - off / BSIZE * BSIZE = off % BSIZE := by
              simp only [BSIZE]
              omega
            rw [hmod]
            have hwork := h.pass hf hx hmpos hmle hfit
            rw [← hoff] at hwork
            have hsplit : (content i ++ p.take m) ++ p.drop m = content i ++ p := by
              rw [List.append_assoc, List.take_append_drop]
            have hlength : (content i ++ p.take m).length = off + m := by
              rw [List.length_append, List.length_take, Nat.min_eq_left hmle]
            have hfull : (content i ++ p).length = off + p.length := List.length_append
            have hdrop : (p.drop m).length = p.length - m := List.length_drop
            have hcount : t.freeblock = s.freeblock + need s i din x := by
              rw [hf.rest]
            have hrest := ih hwork (p := p.drop m) (by omega)
            rw [Function.update_self, hlength] at hrest
            refine hrest.mono (fun r u hr => ⟨?_, ?_, ?_, ?_, ?_⟩) fun e he => ?_
            · have := hr.work
              rwa [Function.update_self, hsplit, Function.update_idem] at this
            · rw [hr.off, Function.update_self, hsplit]
            · rw [hr.type, hf.type]
            · refine Rest.trans ?_ hr.rest
              rw [Rest, Image.write, hf.rest]
            · have := hr.count
              rw [Function.update_self, hsplit, hlength, hfull] at this
              have hwrite : (t.write b (copyIn (t.disk.data b) (off % BSIZE) m
                fun k => p.getD k 0)).freeblock = t.freeblock := rfl
              rw [hfull, ← hoff]
              omega
            · rcases he with ⟨rfl, hshort⟩ | ⟨rfl, hlong⟩
              · refine .inl ⟨rfl, ?_⟩
                have hshort : FSSIZE < t.freeblock + _ := hshort
                rw [hdrop, show off + m + (p.length - m) = off + p.length by omega] at hshort
                omega
              · refine .inr ⟨rfl, ?_⟩
                omega
          · rw [run_bind_error (rsect_exit hb)]
            exact ends_error.2 (.inl ⟨rfl, by omega⟩)
      · refine ends_error.2 (.inr ⟨rfl, ?_⟩)
        simp only [MAXFILE, NDIRECT, NINDIRECT, BSIZE] at hfbn ⊢
        omega

/-! ### Images -/

/-- Between two calls the inodes from `freeinode` on are free, and the files are `content`. -/
structure Good (s : Image) (content : Inum → List UInt8) : Prop where
  laid : Laid s.disk.inode s.freeblock s.disk.data
  files : ∀ j, (s.disk.inode j).type ≠ .free →
    Filed (refs s.disk.inode s.disk.data) s.disk.data j (content j)
  size : ∀ j, (s.disk.inode j).type ≠ .free → (s.disk.inode j).size = (content j).length
  alloc : ∀ j, (s.disk.inode j).type ≠ .free → j.val < s.freeinode ∧ (s.disk.inode j).type ≠ .dev
  empty : ∀ j : Inum, s.freeinode ≤ j.val → content j = []

/-- The size of an inode says nothing of its blocks. -/
theorem refs_size (T : Inum → Dinode) (data : ℕ → Block) (i : Inum) (d : Dinode) (k : ℕ) :
    refs (Function.update T i { d with size := k }) data = refs (Function.update T i d) data := by
  funext ⟨j, y⟩
  by_cases hj : j = i
  · subst hj
    simp only [refs, Function.update_self]
    cases y <;> rfl
  · simp only [refs, Function.update_of_ne hj]

theorem Good.work (h : Good s content) (hi : (s.disk.inode i).type ≠ .free) :
    Work i s (s.disk.inode i) content := by
  have htable : s.table i (s.disk.inode i) = s.disk.inode := Function.update_eq_self ..
  refine ⟨?_, hi, ?_⟩
  · rw [htable]
    exact h.laid
  · rw [Image.own, htable]
    exact h.files

/-- What a call leaves: the inodes keep their types. -/
structure Grown (i : Inum) (s : Image) (content : Inum → List UInt8) (p : List UInt8) (t : Image) :
    Prop where
  good : Good t (Function.update content i (content i ++ p))
  types : ∀ j, (t.disk.inode j).type = (s.disk.inode j).type
  freeinode : t.freeinode = s.freeinode
  count : t.freeblock + cost (content i).length = s.freeblock + cost (content i ++ p).length

theorem iappend_ends (h : Good s content) (hi : (s.disk.inode i).type ≠ .free) (p : List UInt8) :
    Ends (fun _ => Grown i s content p) (Full s (content i).length p.length) (iappend i p s) := by
  unfold iappend
  rw [run_bind_ok (rfl : rinode i s = .ok (s.disk.inode i) s), h.size i hi]
  refine Ends.bind (appendLoop_ends (h.work hi) (le_refl p.length)) ?_
  rintro ⟨din, off⟩ t ⟨hwork, hoff, htype, hrest, hcount⟩
  dsimp only at hwork hoff htype
  have hinode : t.disk.inode = s.disk.inode := by rw [hrest]
  have hfreeinode : t.freeinode = s.freeinode := by rw [hrest]
  have hown : refs (Function.update t.disk.inode i { din with size := off }) t.disk.data =
      t.own i din := refs_size ..
  have htypes (j : Inum) : (Function.update t.disk.inode i { din with size := off } j).type =
      (s.disk.inode j).type := by
    by_cases hj : j = i
    · subst hj
      rw [Function.update_self]
      exact htype
    · rw [Function.update_of_ne hj, hinode]
  have htable (j : Inum) (hj : (s.disk.inode j).type ≠ .free) : (t.table i din j).type ≠ .free := by
    by_cases hji : j = i
    · subst hji
      rw [Image.table, Function.update_self]
      exact hwork.alloc
    · rwa [Image.table, Function.update_of_ne hji, hinode]
  refine ends_ok.2 ⟨⟨⟨⟨?_, hwork.laid.owned.metaUsed⟩, hwork.laid.high, hwork.laid.zero⟩,
    fun j hj => ?_, fun j hj => ?_, fun j hj => ?_, fun j hj => ?_⟩, htypes, hfreeinode, hcount⟩
  · show Exact _ _ (refs (Function.update t.disk.inode i { din with size := off }) t.disk.data)
    rw [hown]
    exact hwork.laid.owned.exact
  · show Filed (refs (Function.update t.disk.inode i { din with size := off }) t.disk.data) _ _ _
    rw [hown]
    exact hwork.files j (htable j (by rw [← htypes]; exact hj))
  · show (Function.update t.disk.inode i { din with size := off } j).size = _
    by_cases hji : j = i
    · subst hji
      rw [Function.update_self, Function.update_self, hoff]
    · rw [Function.update_of_ne hji, Function.update_of_ne hji, hinode]
      apply h.size
      rw [← htypes]
      exact hj
  · have hj : (Function.update t.disk.inode i { din with size := off } j).type ≠ .free := hj
    show j.val < t.freeinode ∧ (Function.update t.disk.inode i { din with size := off } j).type ≠ _
    rw [hfreeinode]
    rw [htypes] at hj ⊢
    exact h.alloc j hj
  · have hj : t.freeinode ≤ j.val := hj
    rw [hfreeinode] at hj
    have hji : j ≠ i := by
      rintro rfl
      have := (h.alloc j hi).1
      omega
    rw [Function.update_of_ne hji]
    exact h.empty j hj

/-- What `ialloc` leaves: one more inode, without blocks. -/
structure Made (type : FileType) (s : Image) (content : Inum → List UInt8) (i : Inum) (t : Image) :
    Prop where
  good : Good t content
  inum : i.val = s.freeinode
  type : (t.disk.inode i).type = type
  others : ∀ j, j ≠ i → t.disk.inode j = s.disk.inode j
  freeinode : t.freeinode = s.freeinode + 1
  freeblock : t.freeblock = s.freeblock

theorem ialloc_ends (h : Good s content) (type : FileType) (hfree : type ≠ .free)
    (hdev : type ≠ .dev) : Ends (Made type s content)
      (fun e => e = .outOfBounds ∧ NINODES ≤ s.freeinode) (ialloc type s) := by
  unfold ialloc
  rw [run_get_bind, run_modify_bind]
  by_cases hlt : s.freeinode < NINODES
  · rw [dif_pos hlt]
    set i : Inum := ⟨s.freeinode, hlt⟩ with hi
    set d : Dinode := ⟨type, 0, 0, 1, 0, fun _ => 0⟩ with hd
    have hold : (s.disk.inode i).type = .free := by
      by_contra hne
      exact absurd (h.alloc i hne).1 (Nat.lt_irrefl _)
    have hnone (y : Place) : refs (Function.update s.disk.inode i d) s.disk.data (i, y) = none := by
      rw [refs_of_ne_free (by rw [Function.update_self]; exact hfree), Function.update_self]
      cases y <;> rfl
    have hrefs : refs (Function.update s.disk.inode i d) s.disk.data =
        refs s.disk.inode s.disk.data := by
      funext ⟨j, y⟩
      by_cases hj : j = i
      · subst hj
        rw [hnone, refs, if_pos hold]
      · simp only [refs, Function.update_of_ne hj]
    have hcases (j : Inum) (hj : (Function.update s.disk.inode i d j).type ≠ .free) :
        j = i ∨ j ≠ i ∧ (s.disk.inode j).type ≠ .free := by
      by_cases hji : j = i
      · exact .inl hji
      · rw [Function.update_of_ne hji] at hj
        exact .inr ⟨hji, hj⟩
    have hempty : content i = [] := h.empty i (le_refl _)
    refine ends_ok.2 ⟨⟨⟨⟨?_, h.laid.owned.metaUsed⟩, h.laid.high, h.laid.zero⟩, fun j hj => ?_,
      fun j hj => ?_, fun j hj => ?_, fun j hj => ?_⟩, rfl, ?_, fun j hj => ?_, rfl, rfl⟩
    · show Exact _ _ (refs (Function.update s.disk.inode i d) s.disk.data)
      rw [hrefs]
      exact h.laid.owned.exact
    · show Filed (refs (Function.update s.disk.inode i d) s.disk.data) _ _ _
      rcases hcases j hj with rfl | ⟨-, hj⟩
      · rw [hempty]
        refine ⟨Nat.zero_le _, fun bn y _ => ?_, ?_, by rintro _ ⟨⟩⟩
        · rw [hnone]
          simp
        · rw [hnone]
          simp
      · rw [hrefs]
        exact h.files j hj
    · show (Function.update s.disk.inode i d j).size = _
      rcases hcases j hj with rfl | ⟨hji, hj⟩
      · rw [Function.update_self, hempty]
        rfl
      · rw [Function.update_of_ne hji]
        exact h.size j hj
    · show j.val < s.freeinode + 1 ∧ (Function.update s.disk.inode i d j).type ≠ _
      rcases hcases j hj with rfl | ⟨hji, hj⟩
      · rw [Function.update_self]
        exact ⟨Nat.lt_succ_self _, hdev⟩
      · rw [Function.update_of_ne hji]
        obtain ⟨h1, h2⟩ := h.alloc j hj
        exact ⟨by omega, h2⟩
    · have hj : s.freeinode + 1 ≤ j.val := hj
      exact h.empty j (by omega)
    · show (Function.update s.disk.inode i d i).type = type
      rw [Function.update_self]
    · show Function.update s.disk.inode i d j = _
      rw [Function.update_of_ne hj]
  · rw [dif_neg hlt]
    exact ends_error.2 ⟨rfl, Nat.not_lt.1 hlt⟩

theorem start_good : Good start fun _ => [] := by
  have hnone : refs start.disk.inode start.disk.data = fun _ => none := rfl
  refine ⟨⟨⟨?_, fun b hb => decide_eq_true hb⟩, by decide, fun _ _ => rfl⟩, ?_, ?_, ?_, fun _ _ => rfl⟩
  · rw [hnone]
    refine ⟨nofun, nofun, nofun, fun b hb hlt => ?_⟩
    have hlow := hb.1
    have hhigh : b < nmeta := of_decide_eq_true hlt
    omega
  · intro j hj
    exact absurd rfl hj
  · intro j hj
    exact absurd rfl hj
  · intro j hj
    exact absurd rfl hj

end Xv6Container.Mkfs
