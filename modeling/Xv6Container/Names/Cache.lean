import Mathlib.Algebra.Group.Pi.Basic
import Mathlib.Data.Int.Order.Basic
import Xv6Container.Lib.Tally
import Xv6Container.Names.Model

/-! The inode cache while the calls of `Names.Model` use it. `Cached B R s` says that the
reference counts are those of `R`, that no inode is cached twice and that a copy is that of
the disk. Lookups take references and give them back, and leave everything alone that was
referenced before; the last reference to a removed inode frees it. -/

namespace Xv6Container.Names

open Lib Fs

variable {B : Prop} {R R' : Entry → ℤ} {s t u : State} {e : Entry} {i : Inum}

/-- One reference. -/
def one (e : Entry) : Entry → ℤ := fun x => if x = e then 1 else 0

@[simp] theorem one_self (e : Entry) : one e e = 1 := if_pos rfl

theorem one_of_ne {x : Entry} (h : x ≠ e) : one e x = 0 := if_neg h

theorem one_nonneg (e x : Entry) : 0 ≤ one e x := by
  unfold one
  split_ifs <;> decide

/-- The references of a pointer. -/
def ptr (o : Option Entry) : Entry → ℤ := fun x => if o = some x then 1 else 0

@[simp] theorem ptr_none : ptr none = 0 := by
  funext x
  exact if_neg nofun

@[simp] theorem ptr_some (e : Entry) : ptr (some e) = one e := by
  funext x
  simp only [ptr, one, Option.some.injEq, eq_comm]

theorem add_one_pos (h : 0 ≤ R e) : 0 < (R + one e) e := by
  rw [Pi.add_apply, one_self]
  omega

theorem add_one_nonneg (hR : ∀ x, 0 ≤ R x) (e x : Entry) : 0 ≤ (R + one e) x := by
  have h1 := one_nonneg e x
  have h2 := hR x
  rw [Pi.add_apply]
  omega

theorem lt_add_one {x : Entry} (h : 0 < R x) (e : Entry) : 0 < (R + one e) x := by
  have h1 := one_nonneg e x
  rw [Pi.add_apply]
  omega

/-- The entries that `iget` recycled for an inode of a known creator bore its container. -/
def Faithful (recycled : List (ℤ × Option ℤ)) : Prop := ∀ c c', (c, some c') ∈ recycled → c = c'

theorem Faithful.left {l l' : List (ℤ × Option ℤ)} (h : Faithful (l ++ l')) : Faithful l :=
  fun c c' hc => h c c' (List.mem_append_left _ hc)

/-- The removed inodes are in the cache. -/
def Settled (R : Entry → ℤ) (s : State) : Prop :=
  ∀ i, (s.node i).attr.type ≠ .free → (s.node i).attr.nlink = 0 →
    ∃ e, 0 < R e ∧ (s.cache e).inum = i ∧ (s.cache e).valid = true

/-- The cache with the reference counts `R`. Under `B` no reference is to a free inode. -/
structure Counted (B : Prop) (R : Entry → ℤ) (s : State) : Prop where
  count : ∀ e, (s.cache e).ref = R e
  distinct : ∀ e e', 0 < R e → 0 < R e' → (s.cache e).inum = (s.cache e').inum → e = e'
  synced : ∀ e, 0 < R e → (s.cache e).valid = true →
    (s.cache e).copy = (s.node (s.cache e).inum).attr ∧
      (s.node (s.cache e).inum).attr.type ≠ .free
  alive : B → ∀ e, 0 < R e → (s.node (s.cache e).inum).attr.type ≠ .free
  owned : Faithful s.recycled → ∀ e c, 0 < R e → s.creator (s.cache e).inum = some c →
    (s.cache e).containerID = c
  zero : (s.node 0).attr.type = .free

/-- In addition no removed inode is forgotten. -/
structure Cached (B : Prop) (R : Entry → ℤ) (s : State) : Prop extends Counted B R s where
  settled : Settled R s

/-- What a call relies on that has the references `R` while another one runs. -/
structure Stable (R : Entry → ℤ) (s t : State) : Prop where
  file : t.file = s.file
  proc : t.proc = s.proc
  inum : ∀ e, 0 < R e → (t.cache e).inum = (s.cache e).inum
  valid : ∀ e, 0 < R e → (s.cache e).valid = true → (t.cache e).valid = true

namespace Stable

theorem refl (R : Entry → ℤ) (s : State) : Stable R s s :=
  ⟨rfl, rfl, fun _ _ => rfl, fun _ _ => id⟩

theorem trans (h : Stable R s t) (h' : Stable R t u) : Stable R s u where
  file := h'.file.trans h.file
  proc := h'.proc.trans h.proc
  inum e he := (h'.inum e he).trans (h.inum e he)
  valid e he hv := h'.valid e he (h.valid e he hv)

theorem anti (h : Stable R' s t) (hle : ∀ e, 0 < R e → 0 < R' e) : Stable R s t :=
  ⟨h.file, h.proc, fun e he => h.inum e (hle e he), fun e he => h.valid e (hle e he)⟩

/-- A reference that is given back. -/
theorem drop (h : Stable (R + one e) s t) : Stable R s t := h.anti fun _ hx => lt_add_one hx e

end Stable

/-- A lookup leaves the disk alone. -/
structure Looked (R : Entry → ℤ) (s t : State) : Prop extends Stable R s t where
  node : t.node = s.node

namespace Looked

theorem refl (R : Entry → ℤ) (s : State) : Looked R s s := ⟨.refl R s, rfl⟩

theorem trans (h : Looked R s t) (h' : Looked R t u) : Looked R s u :=
  ⟨h.toStable.trans h'.toStable, h'.node.trans h.node⟩

theorem drop (h : Looked (R + one e) s t) : Looked R s t := ⟨h.toStable.drop, h.node⟩

theorem settled (h : Looked R s t) (hs : Settled R s) : Settled R t := by
  intro i hi hn
  rw [h.node] at hi hn
  obtain ⟨e, he, hei, hv⟩ := hs i hi hn
  exact ⟨e, he, (h.inum e he).trans hei, h.valid e he hv⟩

end Looked

/-- A lookup ends with at least the references it began with. -/
theorem Cached.looked (h : Cached B R s) (ht : Counted B R' t) (hl : Looked R s t)
    (hle : ∀ e, 0 < R e → 0 < R' e) : Cached B R' t := by
  refine ⟨ht, fun i hi hn => ?_⟩
  obtain ⟨e, he, hei⟩ := hl.settled h.settled i hi hn
  exact ⟨e, hle e he, hei⟩

/-- The stops of a call: under `B` it never finds a free inode. -/
def Legal (B : Prop) (r : Stop) : Prop := B → r ≠ .panic "ilock: no type"

theorem legal_panic {m : String} (h : m ≠ "ilock: no type") : Legal B (.panic m) := by
  rintro - h'
  injection h' with h'
  exact h h'

theorem legal_blocked : Legal B .blocked := fun _ => nofun

theorem legal_disabled : Legal B .disabled := fun _ => nofun

theorem legal_overflow : Legal B .overflow := fun _ => nofun

/-! ### One entry changes -/

namespace State

@[simp] theorem setInode_node (s : State) (e : Entry) (x : Inode) :
    (s.setInode e x).node = s.node := rfl

@[simp] theorem setInode_file (s : State) (e : Entry) (x : Inode) :
    (s.setInode e x).file = s.file := rfl

@[simp] theorem setInode_proc (s : State) (e : Entry) (x : Inode) :
    (s.setInode e x).proc = s.proc := rfl

@[simp] theorem setInode_creator (s : State) (e : Entry) (x : Inode) :
    (s.setInode e x).creator = s.creator := rfl

@[simp] theorem setInode_recycled (s : State) (e : Entry) (x : Inode) :
    (s.setInode e x).recycled = s.recycled := rfl

@[simp] theorem setInode_self (s : State) (e : Entry) (x : Inode) : (s.setInode e x).cache e = x :=
  Function.update_self ..

theorem setInode_of_ne {e' : Entry} (h : e' ≠ e) (x : Inode) :
    (s.setInode e x).cache e' = s.cache e' :=
  Function.update_of_ne h ..

@[simp] theorem setNode_cache (s : State) (i : Inum) (n : Node) : (s.setNode i n).cache = s.cache :=
  rfl

@[simp] theorem setNode_node (s : State) (i : Inum) (n : Node) :
    (s.setNode i n).node = Function.update s.node i n := rfl

end State

/-- An entry changes while it stands for the same inode. -/
theorem Stable.setInode {x : Inode} (hx : x.inum = (s.cache e).inum)
    (hv : (s.cache e).valid = true → x.valid = true) : Stable R s (s.setInode e x) := by
  refine ⟨rfl, rfl, fun e' _ => ?_, fun e' _ => ?_⟩
  · by_cases he : e' = e
    · rw [he, State.setInode_self, hx]
    · rw [State.setInode_of_ne he]
  · by_cases he : e' = e
    · rw [he, State.setInode_self]
      exact hv
    · rw [State.setInode_of_ne he]
      exact id

/-- A new value for an entry and its count. -/
theorem Counted.setInode (h : Counted B R s) {x : Inode} (hR' : ∀ e', e' ≠ e → R' e' = R e')
    (hx : x.ref = R' e)
    (hdistinct : 0 < R' e → ∀ e', e' ≠ e → 0 < R e' → (s.cache e').inum ≠ x.inum)
    (hsynced : 0 < R' e → x.valid = true →
      x.copy = (s.node x.inum).attr ∧ (s.node x.inum).attr.type ≠ .free)
    (halive : B → 0 < R' e → (s.node x.inum).attr.type ≠ .free)
    (howned : Faithful s.recycled → 0 < R' e → ∀ c, s.creator x.inum = some c →
      x.containerID = c) : Counted B R' (s.setInode e x) := by
  refine ⟨fun e' => ?_, fun a b ha hb hab => ?_, fun e' he' hv' => ?_,
    fun hB e' he' => ?_, fun hf e' c he' hc => ?_, h.zero⟩
  · by_cases he : e' = e
    · rw [he, State.setInode_self, hx]
    · rw [State.setInode_of_ne he, h.count, hR' e' he]
  · by_cases hae : a = e
    · by_cases hbe : b = e
      · rw [hae, hbe]
      · rw [hae, State.setInode_self, State.setInode_of_ne hbe] at hab
        rw [hR' b hbe] at hb
        exact absurd hab.symm (hdistinct (hae ▸ ha) b hbe hb)
    · rw [hR' a hae] at ha
      by_cases hbe : b = e
      · rw [hbe, State.setInode_self, State.setInode_of_ne hae] at hab
        exact absurd hab (hdistinct (hbe ▸ hb) a hae ha)
      · rw [State.setInode_of_ne hae, State.setInode_of_ne hbe] at hab
        rw [hR' b hbe] at hb
        exact h.distinct a b ha hb hab
  · by_cases he : e' = e
    · subst he
      rw [State.setInode_self] at hv' ⊢
      exact hsynced he' hv'
    · rw [State.setInode_of_ne he] at hv' ⊢
      exact h.synced e' (hR' e' he ▸ he') hv'
  · by_cases he : e' = e
    · subst he
      rw [State.setInode_self]
      exact halive hB he'
    · rw [State.setInode_of_ne he]
      exact h.alive hB e' (hR' e' he ▸ he')
  · by_cases he : e' = e
    · subst he
      rw [State.setInode_self] at hc ⊢
      exact howned hf he' c hc
    · rw [State.setInode_of_ne he] at hc ⊢
      exact h.owned hf e' c (hR' e' he ▸ he') hc

/-- The usual case: the entry is in use, stands for the same inode and keeps its data. -/
theorem Counted.setSame (h : Counted B R s) {x : Inode} (hR' : ∀ e', e' ≠ e → R' e' = R e')
    (he : 0 < R e) (hx : x.ref = R' e) (hinum : x.inum = (s.cache e).inum)
    (hv : x.valid = (s.cache e).valid) (hcopy : x.copy = (s.cache e).copy)
    (hown : x.containerID = (s.cache e).containerID) : Counted B R' (s.setInode e x) := by
  refine h.setInode hR' hx (fun _ e' hne he' heq => ?_) (fun _ hv' => ?_) (fun hB _ => ?_)
    fun hf _ c hc => ?_
  · exact hne (h.distinct e' e he' he (heq.trans hinum))
  · rw [hinum, hcopy]
    exact h.synced e he (hv ▸ hv')
  · rw [hinum]
    exact h.alive hB e he
  · rw [hown]
    exact h.owned hf e c he (hinum ▸ hc)

/-! ### References and locks -/

theorem idup_ends (h : Cached B R s) (he : 0 < R e) :
    Ends (fun e' t => e' = e ∧ Cached B (R + one e) t ∧ Looked R s t) (Legal B) (idup e s) := by
  simp only [idup, setInode, run_modify_bind, run_pure, ends_ok]
  have hl : Looked R s (s.setInode e { s.cache e with ref := (s.cache e).ref + 1 }) :=
    ⟨.setInode rfl id, rfl⟩
  refine ⟨trivial, h.looked (h.setSame (fun e' hne => ?_) he ?_ rfl rfl rfl rfl) hl
    fun _ hx => lt_add_one hx e, hl⟩
  · rw [Pi.add_apply, one_of_ne hne, add_zero]
  · rw [Pi.add_apply, one_self, ← h.count e]

/-- An entry without references is recycled. -/
theorem Counted.recycle (h : Counted B R s) (he : R e = 0)
    (hnew : ∀ e', 0 < R e' → (s.cache e').inum ≠ i) (hi : B → (s.node i).attr.type ≠ .free) :
    Counted B (R + one e) (State.setInode
      { s with recycled := s.recycled ++ [((s.cache e).containerID, s.creator i)] } e
      { s.cache e with inum := i, ref := 1, valid := false }) := by
  have hlog : Counted B R { s with
      recycled := s.recycled ++ [((s.cache e).containerID, s.creator i)] } :=
    ⟨h.count, h.distinct, h.synced, h.alive, fun hf => h.owned hf.left, h.zero⟩
  refine hlog.setInode (fun e' hne => ?_) ?_ (fun _ e' _ he' => hnew e' he') (fun _ => nofun)
    (fun hB _ => hi hB) fun hf _ c hc => ?_
  · rw [Pi.add_apply, one_of_ne hne, add_zero]
  · rw [Pi.add_apply, one_self, he, zero_add]
  · refine hf _ c (List.mem_append_right _ ?_)
    rw [← show s.creator i = some c from hc]
    exact List.mem_singleton.2 rfl

theorem iget_counted (h : Counted B R s) (hi : B → (s.node i).attr.type ≠ .free) :
    Ends (fun e t => Counted B (R + one e) t ∧ Looked R s t ∧ (t.cache e).inum = i) (Legal B)
      (iget i s) := by
  simp only [iget, run_get_bind]
  cases hf : (List.finRange NINODE).find? fun e => (s.cache e).ref > 0 ∧ (s.cache e).inum = i with
  | some e =>
    have hfound := List.find?_some hf
    simp only [gt_iff_lt, decide_eq_true_eq] at hfound
    have he : 0 < R e := h.count e ▸ hfound.1
    simp only [setInode, run_modify_bind, run_pure, ends_ok]
    refine ⟨h.setSame (fun e' hne => ?_) he ?_ rfl rfl rfl rfl, ⟨.setInode rfl id, rfl⟩, ?_⟩
    · rw [Pi.add_apply, one_of_ne hne, add_zero]
    · rw [Pi.add_apply, one_self, ← h.count e]
    · rw [State.setInode_self]
      exact hfound.2
  | none =>
    have hnew : ∀ e, 0 < R e → (s.cache e).inum ≠ i := by
      intro e he
      have := List.find?_eq_none.1 hf e (List.mem_finRange e)
      simp only [gt_iff_lt, decide_eq_true_eq, not_and] at this
      exact this ((h.count e).symm ▸ he)
    dsimp only
    cases hg : (List.finRange NINODE).find? fun e => (s.cache e).ref = 0 with
    | none => exact ends_error.2 (legal_panic (by decide))
    | some e =>
      have hzero := List.find?_some hg
      simp only [decide_eq_true_eq] at hzero
      rw [h.count] at hzero
      have hne : ∀ x, 0 < R x → x ≠ e := by
        rintro x hx rfl
        exact absurd hzero hx.ne'
      simp only [setInode, run_modify_bind, run_pure, ends_ok, State.setInode_self, and_true]
      refine ⟨h.recycle hzero hnew hi, ⟨rfl, rfl, fun x hx => ?_, fun x hx => ?_⟩, rfl⟩
      · rw [State.setInode_of_ne (hne x hx)]
      · rw [State.setInode_of_ne (hne x hx)]
        exact id

theorem iget_ends (h : Cached B R s) (hi : B → (s.node i).attr.type ≠ .free) :
    Ends (fun e t => Cached B (R + one e) t ∧ Looked R s t ∧ (t.cache e).inum = i) (Legal B)
      (iget i s) :=
  (iget_counted h.toCounted hi).post fun e _ ⟨ht, hl, hei⟩ =>
    ⟨h.looked ht hl fun _ hx => lt_add_one hx e, hl, hei⟩

/-- The lock of an entry in use is set or cleared. -/
theorem Counted.setLocked (h : Counted B R s) (he : 0 < R e) (b : Bool) :
    Counted B R (s.setInode e { s.cache e with locked := b }) :=
  h.setSame (fun _ _ => rfl) he (h.count e) rfl rfl rfl rfl

theorem acquiresleep_ends :
    Ends (fun _ t => t = s.setInode e { s.cache e with locked := true }) (Legal B)
      (acquiresleep e s) := by
  simp only [acquiresleep, run_get_bind]
  split_ifs
  · exact ends_error.2 legal_blocked
  · exact ends_ok.2 rfl

/-- An entry is read from the disk. -/
theorem Counted.load (h : Counted B R s) (he : 0 < R e)
    (hfree : (s.node (s.cache e).inum).attr.type ≠ .free) :
    Counted B R (s.setInode e { s.cache e with
      copy := (s.node (s.cache e).inum).attr, valid := true }) := by
  refine h.setInode (fun _ _ => rfl) (h.count e) (fun _ e' hne he' heq => ?_)
    (fun _ _ => ⟨rfl, hfree⟩) (fun _ _ => hfree) fun hf _ c hc => ?_
  · exact hne (h.distinct e' e he' he heq)
  · exact h.owned hf e c he hc

theorem ilock_counted (h : Counted B R s) (he : 0 < R e) :
    Ends (fun _ t => Counted B R t ∧ Looked R s t ∧ (t.cache e).valid = true) (Legal B)
      (ilock e s) := by
  simp only [ilock, run_get_bind]
  split_ifs with href
  · exact ends_error.2 (legal_panic (by decide))
  · refine acquiresleep_ends.bind fun _ t ht => ?_
    have hl : Counted B R t := ht ▸ h.setLocked he true
    have hlooked : Looked R s t := ht ▸ ⟨.setInode rfl id, rfl⟩
    simp only [run_get_bind, setInode]
    split_ifs with hv hfree
    · rw [run_modify_bind, run_throw, ends_error]
      exact fun hB => absurd hfree (hl.alive hB e he)
    · rw [run_modify_bind, run_pure, ends_ok]
      refine ⟨hl.load he hfree, hlooked.trans ⟨.setInode rfl fun _ => rfl, rfl⟩, ?_⟩
      rw [State.setInode_self]
    · rw [run_pure, ends_ok]
      exact ⟨hl, hlooked, by simpa using hv⟩

theorem ilock_ends (h : Cached B R s) (he : 0 < R e) :
    Ends (fun _ t => Cached B R t ∧ Looked R s t ∧ (t.cache e).valid = true) (Legal B)
      (ilock e s) :=
  (ilock_counted h.toCounted he).post fun _ _ ⟨ht, hl, hv⟩ => ⟨h.looked ht hl fun _ => id, hl, hv⟩

theorem iunlock_ends (h : Cached B R s) :
    Ends (fun _ t => Cached B R t ∧ Looked R s t) (Legal B) (iunlock e s) := by
  simp only [iunlock, run_get_bind]
  split_ifs with hif
  · exact ends_error.2 (legal_panic (by decide))
  · simp only [releasesleep, setInode, run_modify, ends_ok]
    have he : 0 < R e := by
      rw [← h.count e]
      omega
    have hl : Looked R s (s.setInode e { s.cache e with locked := false }) :=
      ⟨.setInode rfl id, rfl⟩
    exact ⟨h.looked (h.setLocked he false) hl fun _ => id, hl⟩

/-! ### The last reference -/

/-- A removed inode is freed. -/
def Collected (i : Inum) (n n' : Inum → Node) : Prop :=
  (n i).attr.type ≠ .free ∧ (n i).attr.nlink = 0 ∧
    n' = Function.update n i ⟨{ (n i).attr with type := .free }, []⟩

/-- A reference less, to an inode that somebody else uses or that is not removed. -/
theorem Cached.release (h : Cached B (R + one e) s) (hR : 0 ≤ R e)
    (hkeep : (s.cache e).valid = true → (s.cache e).copy.nlink = 0 → 0 < R e) :
    Cached B R (s.setInode e { s.cache e with ref := (s.cache e).ref - 1 }) := by
  have he : 0 < (R + one e) e := add_one_pos hR
  have hx : ∀ {x}, 0 < R x → 0 < (R + one e) x := fun hx => lt_add_one hx e
  have hcache : ∀ x, ((s.setInode e { s.cache e with ref := (s.cache e).ref - 1 }).cache x).inum =
      (s.cache x).inum := fun x => by
    by_cases hxe : x = e
    · rw [hxe, State.setInode_self]
    · rw [State.setInode_of_ne hxe]
  refine ⟨⟨fun x => ?_, fun a b ha hb hab => ?_, fun x hpos hv => ?_, fun hB x hpos => ?_,
    fun hf x c hpos hc => ?_, h.zero⟩, fun i hi hn => ?_⟩
  · by_cases hxe : x = e
    · rw [hxe, State.setInode_self]
      change (s.cache e).ref - 1 = R e
      rw [h.count, Pi.add_apply, one_self, add_sub_cancel_right]
    · rw [State.setInode_of_ne hxe, h.count, Pi.add_apply, one_of_ne hxe, add_zero]
  · rw [hcache, hcache] at hab
    exact h.distinct a b (hx ha) (hx hb) hab
  · by_cases hxe : x = e
    · subst hxe
      rw [State.setInode_self] at hv ⊢
      exact h.synced x he hv
    · rw [State.setInode_of_ne hxe] at hv ⊢
      exact h.synced x (hx hpos) hv
  · rw [hcache]
    exact h.alive hB x (hx hpos)
  · by_cases hxe : x = e
    · subst hxe
      rw [State.setInode_self] at hc ⊢
      exact h.owned hf x c he hc
    · rw [State.setInode_of_ne hxe] at hc ⊢
      exact h.owned hf x c (hx hpos) hc
  · obtain ⟨x, hpos, hxi, hv⟩ := h.settled i hi hn
    by_cases hxe : x = e
    · subst hxe
      have hcopy := (h.synced x he hv).1
      refine ⟨x, hkeep hv ?_, ?_⟩
      · rw [hcopy, hxi]
        exact hn
      · rw [State.setInode_self]
        exact ⟨hxi, hv⟩
    · rw [Pi.add_apply, one_of_ne hxe, add_zero] at hpos
      refine ⟨x, hpos, ?_⟩
      rw [State.setInode_of_ne hxe]
      exact ⟨hxi, hv⟩

/-- What `iput` has done when it gives up an inode and the last reference to it. -/
structure Erased (e : Entry) (s t : State) : Prop where
  file : t.file = s.file
  proc : t.proc = s.proc
  cache : ∀ x, x ≠ e → t.cache x = s.cache x
  node : t.node = Function.update s.node (s.cache e).inum
    ⟨{ (s.cache e).copy with type := .free }, []⟩
  creator : t.creator = Function.update s.creator (s.cache e).inum none
  recycled : t.recycled = s.recycled

theorem freeInode_ends :
    Ends (fun _ t => Erased e s t ∧ (t.cache e).ref = (s.cache e).ref) (Legal B)
      (freeInode e s) := by
  simp only [freeInode, iupdate, setCopy, setInode, run_modify_bind, run_modify, ends_ok,
    State.setInode_self, State.setNode_cache]
  refine ⟨⟨rfl, rfl, fun x hx => ?_, ?_, rfl, rfl⟩, ?_⟩
  · change ((State.setInode _ e _).cache x) = _
    rw [State.setInode_of_ne hx, State.setNode_cache, State.setInode_of_ne hx,
      State.setNode_cache]
  · change Function.update (Function.update s.node _ _) _ _ = _
    rw [Function.update_idem, State.setInode_node, State.setNode_node, Function.update_self]
  · change ((State.setInode _ e _).cache e).ref = _
    rw [State.setInode_self]

/-- The last reference goes and the inode with it. -/
theorem Cached.collect (h : Cached B (R + one e) s) (hR : R e = 0) (ht : Erased e s t)
    (href : (t.cache e).ref = 0) : Cached B R t := by
  have he : 0 < (R + one e) e := add_one_pos hR.ge
  have hother : ∀ {x}, 0 < R x → 0 < (R + one e) x ∧ t.cache x = s.cache x ∧
      (s.cache x).inum ≠ (s.cache e).inum := fun {x} hx => by
    have hxe : x ≠ e := by
      rintro rfl
      exact absurd hR hx.ne'
    exact ⟨lt_add_one hx e, ht.cache x hxe, fun hxi =>
      hxe (h.distinct x e (lt_add_one hx e) he hxi)⟩
  have hzero : (t.node 0).attr.type = .free := by
    by_cases h0 : (0 : Inum) = (s.cache e).inum
    · rw [ht.node, ← h0, Function.update_self]
    · rw [ht.node, Function.update_of_ne h0]
      exact h.zero
  refine ⟨⟨fun x => ?_, fun a b ha hb hab => ?_, fun x hx hv => ?_, fun hB x hx => ?_,
    fun hf x c hx hc => ?_, hzero⟩, fun j hj hn => ?_⟩
  · by_cases hxe : x = e
    · rw [hxe, href, hR]
    · rw [ht.cache x hxe, h.count, Pi.add_apply, one_of_ne hxe, add_zero]
  · obtain ⟨ha', hca, -⟩ := hother ha
    obtain ⟨hb', hcb, -⟩ := hother hb
    rw [hca, hcb] at hab
    exact h.distinct a b ha' hb' hab
  · obtain ⟨hx', hc, hne⟩ := hother hx
    rw [hc] at hv ⊢
    rw [ht.node, Function.update_of_ne hne]
    exact h.synced x hx' hv
  · obtain ⟨hx', hc, hne⟩ := hother hx
    rw [hc, ht.node, Function.update_of_ne hne]
    exact h.alive hB x hx'
  · obtain ⟨hx', hcx, hne⟩ := hother hx
    rw [hcx, ht.creator, Function.update_of_ne hne] at hc
    rw [hcx]
    rw [ht.recycled] at hf
    exact h.owned hf x c hx' hc
  · have hji : j ≠ (s.cache e).inum := by
      rintro rfl
      rw [ht.node, Function.update_self] at hj
      exact hj rfl
    rw [ht.node, Function.update_of_ne hji] at hj hn
    obtain ⟨x, hx, hxj, hv⟩ := h.settled j hj hn
    have hxe : x ≠ e := by
      rintro rfl
      exact hji hxj.symm
    rw [Pi.add_apply, one_of_ne hxe, add_zero] at hx
    exact ⟨x, hx, by rw [ht.cache x hxe]; exact ⟨hxj, hv⟩⟩

theorem Erased.stable (h : Erased e s t) (hR : R e = 0) : Stable R s t := by
  have hne : ∀ x, 0 < R x → x ≠ e := by
    rintro x hx rfl
    exact absurd hR hx.ne'
  refine ⟨h.file, h.proc, fun x hx => ?_, fun x hx => ?_⟩
  · rw [h.cache x (hne x hx)]
  · rw [h.cache x (hne x hx)]
    exact id

/-- An entry whose inode is gone is not looked at again. -/
theorem Erased.setInode (h : Erased e s t) (x : Inode) : Erased e s (t.setInode e x) :=
  ⟨h.file, h.proc, fun _ hy => (State.setInode_of_ne hy x).trans (h.cache _ hy), h.node, h.creator,
    h.recycled⟩

theorem iput_ends (h : Cached B (R + one e) s) (hR : 0 ≤ R e) :
    Ends (fun _ t => Cached B R t ∧ Stable R s t ∧
      (t.node = s.node ∨ R e = 0 ∧ Collected (s.cache e).inum s.node t.node)) (Legal B)
      (iput e s) := by
  have he : 0 < (R + one e) e := add_one_pos hR
  simp only [iput]
  refine acquiresleep_ends.bind fun _ t ht => ?_
  have hlooked : Looked (R + one e) s t := ht ▸ ⟨.setInode rfl id, rfl⟩
  have hl : Cached B (R + one e) t :=
    h.looked (ht ▸ h.setLocked he true) hlooked fun _ => id
  have hinum : (t.cache e).inum = (s.cache e).inum := by rw [ht, State.setInode_self]
  have hnode : t.node = s.node := by rw [ht, State.setInode_node]
  have hst : Stable R s t := hlooked.toStable.drop
  simp only [run_get_bind, releasesleep, setInode]
  split_ifs with hif
  · obtain ⟨hv, hn, href⟩ := hif
    obtain ⟨hcopy, hfree⟩ := hl.synced e he hv
    have hR0 : R e = 0 := by
      rw [hl.count, Pi.add_apply, one_self] at href
      omega
    refine freeInode_ends.bind fun _ u ⟨hu, hur⟩ => ?_
    simp only [run_modify_bind, run_modify, ends_ok, State.setInode_self]
    have hu' := (hu.setInode { u.cache e with locked := false }).setInode
      { u.cache e with locked := false, ref := (u.cache e).ref - 1 }
    refine ⟨hl.collect hR0 hu' ?_, hst.trans (hu'.stable hR0), Or.inr ⟨hR0, ?_⟩⟩
    · rw [State.setInode_self]
      change (u.cache e).ref - 1 = 0
      rw [hur, href, sub_self]
    · rw [← hinum, ← hnode]
      refine ⟨hfree, hcopy ▸ hn, ?_⟩
      rw [hu'.node, hcopy]
  · simp only [run_modify_bind, run_modify, ends_ok]
    have hst' : Stable R t (t.setInode e { t.cache e with locked := false }) := .setInode rfl id
    have hl' : Cached B (R + one e) (t.setInode e { t.cache e with locked := false }) :=
      hl.looked (hl.setLocked he false) ⟨.setInode rfl id, rfl⟩ fun _ => id
    refine ⟨hl'.release hR fun hv hn => ?_, hst.trans (hst'.trans (.setInode rfl id)),
      Or.inl hnode⟩
    rw [State.setInode_self] at hv hn
    by_contra hpos
    refine hif ⟨hv, hn, ?_⟩
    rw [hl.count, Pi.add_apply, one_self]
    omega

/-- A lookup never gives up the last reference to a removed inode. -/
theorem iput_looks (h : Cached B (R + one e) s) (hR : 0 ≤ R e) (hs : Settled R s) :
    Ends (fun _ t => Cached B R t ∧ Looked R s t) (Legal B) (iput e s) := by
  refine (iput_ends h hR).post fun _ t ⟨ht, hst, hn⟩ => ⟨ht, hst, ?_⟩
  rcases hn with hn | ⟨hR0, hfree, hn, -⟩
  · exact hn
  · obtain ⟨x, hx, hxi, -⟩ := hs _ hfree hn
    have hxe := h.distinct x e (lt_add_one hx e) (add_one_pos hR) hxi
    rw [hxe, hR0] at hx
    exact absurd hx (lt_irrefl 0)

theorem iunlockput_ends (h : Cached B (R + one e) s) (hR : 0 ≤ R e) :
    Ends (fun _ t => Cached B R t ∧ Stable R s t ∧
      (t.node = s.node ∨ R e = 0 ∧ Collected (s.cache e).inum s.node t.node)) (Legal B)
      (iunlockput e s) := by
  refine (iunlock_ends h).bind fun _ t ⟨ht, hst⟩ => ?_
  have := iput_ends ht hR
  rw [hst.inum e (add_one_pos hR), hst.node] at this
  exact this.post fun _ u ⟨hu, hst', hn⟩ => ⟨hu, hst.toStable.drop.trans hst', hn⟩

theorem iunlockput_looks (h : Cached B (R + one e) s) (hR : 0 ≤ R e) (hs : Settled R s) :
    Ends (fun _ t => Cached B R t ∧ Looked R s t) (Legal B) (iunlockput e s) := by
  refine (iunlock_ends h).bind fun _ t ⟨ht, hst⟩ => ?_
  refine (iput_looks ht hR (hst.drop.settled hs)).post fun _ u ⟨hu, hlu⟩ => ?_
  exact ⟨hu, hst.drop.trans hlu⟩

/-! ### Writes -/

/-- The copy of an inode in use, as `synced` has it. -/
theorem Counted.copy_eq (h : Counted B R s) (he : 0 < R e) (hv : (s.cache e).valid = true) :
    (s.cache e).copy = (s.node (s.cache e).inum).attr :=
  (h.synced e he hv).1

/-- New attributes of an inode, written through to the disk. -/
def State.setAttr (s : State) (e : Entry) (a : Attr) : State :=
  (s.setInode e { s.cache e with copy := a }).setNode (s.cache e).inum
    ⟨a, (s.node (s.cache e).inum).entries⟩

/-- One entry of a directory is written. -/
def put (entries : List Dirent) (off : ℕ) (de : Dirent) : List Dirent :=
  if off < entries.length then entries.set off de else entries ++ [de]

/-- New entries of a directory. -/
def State.setEntries (s : State) (i : Inum) (entries : List Dirent) : State :=
  s.setNode i { s.node i with entries := entries }

@[simp] theorem State.setAttr_node (s : State) (e : Entry) (a : Attr) :
    (s.setAttr e a).node = Function.update s.node (s.cache e).inum
      ⟨a, (s.node (s.cache e).inum).entries⟩ := rfl

@[simp] theorem State.setEntries_node (s : State) (i : Inum) (entries : List Dirent) :
    (s.setEntries i entries).node = Function.update s.node i { s.node i with entries := entries } :=
  rfl

theorem setCopy_iupdate_bind {α : Type} (f : Attr → Attr) (k : Unit → Run α) :
    (setCopy e f >>= fun _ => iupdate e >>= k) s = k () (s.setAttr e (f (s.cache e).copy)) := by
  simp only [setCopy, setInode, iupdate, run_modify_bind, State.setInode_self,
    State.setInode_node]
  rfl

theorem writeEntry_bind {α : Type} (off : ℕ) (de : Dirent) (k : Unit → Run α) :
    (writeEntry e off de >>= k) s =
      k () (s.setEntries (s.cache e).inum (put (s.node (s.cache e).inum).entries off de)) := rfl

theorem Stable.setNode (h : Stable R s t) (n : Node) : Stable R s (t.setNode i n) :=
  ⟨h.file, h.proc, h.inum, h.valid⟩

theorem Stable.setAttr (a : Attr) : Stable R s (s.setAttr e a) :=
  (Stable.setInode (x := { s.cache e with copy := a }) rfl id).setNode _

theorem Stable.setEntries (entries : List Dirent) : Stable R s (s.setEntries i entries) :=
  (Stable.refl R s).setNode _

/-- The inode keeps its type and somebody uses it. -/
theorem Cached.setAttr (h : Cached B R s) (he : 0 < R e) (hv : (s.cache e).valid = true)
    {a : Attr} (ha : a.type = (s.cache e).copy.type) : Cached B R (s.setAttr e a) := by
  obtain ⟨hcopy, hfree⟩ := h.synced e he hv
  have htype : ∀ j, ((s.setAttr e a).node j).attr.type = (s.node j).attr.type := by
    intro j
    by_cases hj : j = (s.cache e).inum
    · rw [hj, State.setAttr_node, Function.update_self, ← hcopy]
      exact ha
    · rw [State.setAttr_node, Function.update_of_ne hj]
  have hst : Stable R s (s.setAttr e a) := .setAttr a
  have hother : ∀ x, x ≠ e → (s.setAttr e a).cache x = s.cache x := fun x hx =>
    State.setInode_of_ne hx _
  have hself : (s.setAttr e a).cache e = { s.cache e with copy := a } := State.setInode_self ..
  refine ⟨⟨fun x => ?_, fun x y hx hy hxy => ?_, fun x hx hxv => ⟨?_, ?_⟩, fun hB x hx => ?_,
    fun hf x c hx hc => ?_, (htype 0).trans h.zero⟩, fun i hi hn => ?_⟩
  · by_cases hxe : x = e
    · rw [hxe, hself]
      exact h.count e
    · rw [hother x hxe, h.count]
  · rw [hst.inum x hx, hst.inum y hy] at hxy
    exact h.distinct x y hx hy hxy
  · by_cases hxe : x = e
    · subst hxe
      rw [hself, State.setAttr_node, Function.update_self]
    · rw [hother x hxe] at hxv ⊢
      rw [State.setAttr_node, Function.update_of_ne fun heq => hxe (h.distinct x e hx he heq)]
      exact h.copy_eq hx hxv
  · rw [htype, hst.inum x hx]
    by_cases hxe : x = e
    · rw [hxe]
      exact hfree
    · rw [hother x hxe] at hxv
      exact (h.synced x hx hxv).2
  · rw [htype, hst.inum x hx]
    exact h.alive hB x hx
  · rw [hst.inum x hx] at hc
    have hown := h.owned hf x c hx hc
    by_cases hxe : x = e
    · rw [hxe, hself]
      exact hxe ▸ hown
    · rwa [hother x hxe]
  · by_cases hie : i = (s.cache e).inum
    · exact ⟨e, he, by rw [hself]; exact ⟨hie.symm, hv⟩⟩
    · rw [htype] at hi
      rw [State.setAttr_node, Function.update_of_ne hie] at hn
      obtain ⟨x, hx, hxi, hxv⟩ := h.settled i hi hn
      exact ⟨x, hx, (hst.inum x hx).trans hxi, hst.valid x hx hxv⟩

theorem Cached.setEntries (h : Cached B R s) (entries : List Dirent) :
    Cached B R (s.setEntries i entries) := by
  have hattr : ∀ j, ((s.setEntries i entries).node j).attr = (s.node j).attr := by
    intro j
    by_cases hj : j = i
    · rw [hj, State.setEntries_node, Function.update_self]
    · rw [State.setEntries_node, Function.update_of_ne hj]
  refine ⟨⟨h.count, h.distinct, fun x hx hv => ?_, fun hB x hx => ?_, h.owned, ?_⟩,
    fun j hj hn => ?_⟩
  · rw [hattr]
    exact h.synced x hx hv
  · rw [hattr]
    exact h.alive hB x hx
  · rw [hattr]
    exact h.zero
  · rw [hattr] at hj hn
    exact h.settled j hj hn

/-! ### New inodes -/

/-- The inode that `ialloc` takes. -/
def freeInum (n : Inum → Node) : Option Inum :=
  (List.finRange NINODES).find? fun i => i.val ≥ 1 ∧ (n i).attr.type = .free

theorem freeInum_free {n : Inum → Node} (h : freeInum n = some i) :
    i ≠ 0 ∧ (n i).attr.type = .free := by
  have hfound := List.find?_some h
  simp only [ge_iff_le, decide_eq_true_eq] at hfound
  refine ⟨?_, hfound.2⟩
  rintro rfl
  exact absurd hfound.1 (by decide)

/-- The effect of `newInode` on the disk. -/
def Made (i : Inum) (a : Attr) (n n' : Inum → Node) : Prop :=
  freeInum n = some i ∧ n' = Function.update n i ⟨a, []⟩

/-- A free inode has no valid entry, so the disk may change there. -/
theorem Counted.setFree (h : Counted B R s) (hi0 : i ≠ 0) (hi : (s.node i).attr.type = .free)
    (n : Node) : Counted B R (s.setNode i n) := by
  refine ⟨h.count, h.distinct, fun x hx hv => ?_, fun hB x hx => ?_, h.owned, ?_⟩
  · obtain ⟨hcopy, hfree⟩ := h.synced x hx hv
    have hne : (s.cache x).inum ≠ i := fun heq => hfree (heq ▸ hi)
    rw [State.setNode_node, State.setNode_cache, Function.update_of_ne hne]
    exact ⟨hcopy, hfree⟩
  · have hne : (s.cache x).inum ≠ i := fun heq => h.alive hB x hx (heq ▸ hi)
    rw [State.setNode_node, State.setNode_cache, Function.update_of_ne hne]
    exact h.alive hB x hx
  · rw [State.setNode_node, Function.update_of_ne hi0.symm]
    exact h.zero

theorem ialloc_ends (h : Counted B R s) {type : FileType} (htype : type ≠ .free) :
    Ends (fun e t => ∃ i, Counted B (R + one e) t ∧ Stable R s t ∧ (t.cache e).inum = i ∧
      Made i ⟨type, 0, 0, 0⟩ s.node t.node) (Legal B) (ialloc type s) := by
  simp only [ialloc, run_get_bind]
  cases hf : (List.finRange NINODES).find? fun i =>
      i.val ≥ 1 ∧ (s.node i).attr.type = .free with
  | none => exact ends_error.2 (legal_panic (by decide))
  | some i =>
    obtain ⟨hi0, hfree⟩ := freeInum_free hf
    dsimp only
    rw [run_modify_bind]
    refine (iget_counted (h.setFree hi0 hfree _) fun _ => ?_).post fun e t ⟨ht, hl, hei⟩ => ?_
    · rw [State.setNode_node, Function.update_self]
      exact htype
    · exact ⟨i, ht, ((Stable.refl R s).setNode _).trans hl.toStable, hei, hf, hl.node⟩

/-- `create` fills in an inode that nobody else uses. -/
def State.fill (s : State) (e : Entry) (a : Attr) (containerID : ℤ) : State :=
  ((s.setInode e { s.cache e with copy := a, containerID := containerID }).setNode
    (s.cache e).inum ⟨a, (s.node (s.cache e).inum).entries⟩).setCreator (s.cache e).inum
    (some containerID)

theorem Counted.fill (h : Counted B R s) (he : 0 < R e) (he0 : (s.cache e).inum ≠ 0) {a : Attr}
    (ha : a.type ≠ .free) (c : ℤ) : Counted B R (s.fill e a c) := by
  have hself : (s.fill e a c).cache e = { s.cache e with copy := a, containerID := c } :=
    State.setInode_self ..
  have hother : ∀ x, x ≠ e → (s.fill e a c).cache x = s.cache x := fun x hx =>
    State.setInode_of_ne hx _
  have hinum : ∀ x, ((s.fill e a c).cache x).inum = (s.cache x).inum := by
    intro x
    by_cases hx : x = e
    · rw [hx, hself]
    · rw [hother x hx]
  have hnode : (s.fill e a c).node = Function.update s.node (s.cache e).inum
      ⟨a, (s.node (s.cache e).inum).entries⟩ := rfl
  have hcreator : (s.fill e a c).creator =
      Function.update s.creator (s.cache e).inum (some c) := rfl
  have hne : ∀ {x}, x ≠ e → 0 < R x → (s.cache x).inum ≠ (s.cache e).inum := fun hxe hx heq =>
    hxe (h.distinct _ e hx he heq)
  refine ⟨fun x => ?_, fun x y hx hy hxy => ?_, fun x hx hv => ?_, fun hB x hx => ?_,
    fun hf x c' hx hc => ?_, ?_⟩
  · by_cases hxe : x = e
    · rw [hxe, hself]
      exact h.count e
    · rw [hother x hxe, h.count]
  · rw [hinum, hinum] at hxy
    exact h.distinct x y hx hy hxy
  · by_cases hxe : x = e
    · rw [hxe, hself, hnode, Function.update_self]
      exact ⟨rfl, ha⟩
    · rw [hother x hxe] at hv ⊢
      rw [hnode, Function.update_of_ne (hne hxe hx)]
      exact h.synced x hx hv
  · rw [hinum, hnode]
    by_cases hxe : x = e
    · rw [hxe, Function.update_self]
      exact ha
    · rw [Function.update_of_ne (hne hxe hx)]
      exact h.alive hB x hx
  · rw [hinum, hcreator] at hc
    by_cases hxe : x = e
    · rw [hxe, Function.update_self] at hc
      rw [hxe, hself]
      exact Option.some.inj hc
    · rw [Function.update_of_ne (hne hxe hx)] at hc
      rw [hother x hxe]
      exact h.owned hf x c' hx hc
  · rw [hnode, Function.update_of_ne he0.symm]
    exact h.zero

theorem newInode_ends (h : Cached B R s) (hR : ∀ x, 0 ≤ R x) {p : Slot} {type : FileType}
    {major minor : ℤ} (htype : type ≠ .free) :
    Ends (fun e t => ∃ i, Cached B (R + one e) t ∧ Stable R s t ∧ (t.cache e).inum = i ∧
      (t.cache e).valid = true ∧ Made i ⟨type, major, minor, 1⟩ s.node t.node) (Legal B)
      (newInode p type major minor s) := by
  refine (ialloc_ends h.toCounted htype).bind fun e t ⟨i, ht, hst, hei, hi, hnode⟩ => ?_
  have hi0 := (freeInum_free hi).1
  have he : 0 < (R + one e) e := add_one_pos (hR e)
  refine (ilock_counted ht he).bind fun _ u ⟨hu, hlu, hv⟩ => ?_
  have hui : (u.cache e).inum = i := (hlu.inum e he).trans hei
  have hunode : u.node = Function.update s.node i ⟨⟨type, 0, 0, 0⟩, []⟩ := hlu.node.trans hnode
  have hcopy : (u.cache e).copy = ⟨type, 0, 0, 0⟩ := by
    rw [hu.copy_eq he hv, hui, hunode, Function.update_self]
  simp only [run_get_bind, setInode, iupdate, run_modify_bind, run_pure, ends_ok,
    State.setInode_self, State.setNode_cache, State.setInode_node, hcopy]
  have hfill := hu.fill he (hui ▸ hi0) (a := ⟨type, major, minor, 1⟩) htype (u.proc p).containerID
  have hfst : Stable R u (u.fill e ⟨type, major, minor, 1⟩ (u.proc p).containerID) := by
    have := (Stable.setInode (s := u) (e := e) (R := R) (x := { u.cache e with
      copy := ⟨type, major, minor, 1⟩, containerID := (u.proc p).containerID }) rfl id)
    exact ⟨this.file, this.proc, this.inum, this.valid⟩
  have hfnode : (u.fill e ⟨type, major, minor, 1⟩ (u.proc p).containerID).node =
      Function.update s.node i ⟨⟨type, major, minor, 1⟩, []⟩ := by
    change Function.update u.node (u.cache e).inum _ = _
    rw [hui, hunode, Function.update_idem, Function.update_self]
  have hall := (hst.trans hlu.drop.toStable).trans hfst
  refine ⟨i, ⟨hfill, fun j hj hn => ?_⟩, hall, ?_, ?_, hi, hfnode⟩
  · change (Node.attr (State.node (State.fill u e _ _) j)).type ≠ .free at hj
    change (Node.attr (State.node (State.fill u e _ _) j)).nlink = 0 at hn
    rw [hfnode] at hj hn
    by_cases hji : j = i
    · rw [hji, Function.update_self] at hn
      exact absurd hn one_ne_zero
    · rw [Function.update_of_ne hji] at hj hn
      obtain ⟨x, hx, hxj, hxv⟩ := h.settled j hj hn
      exact ⟨x, lt_add_one hx e, (hall.inum x hx).trans hxj, hall.valid x hx hxv⟩
  · change ((State.setInode _ e _).cache e).inum = i
    rw [State.setInode_self]
    exact hui
  · change ((State.setInode _ e _).cache e).valid = true
    rw [State.setInode_self]
    exact hv

end Xv6Container.Names
