import Xv6Container.Names.Cache
import Xv6Container.Ops.Reads

/-! The inode cache while a path is looked up. A lookup takes references and gives them back; it frees
nothing, because an inode without links has other references, and so it changes and logs nothing on
the disk. -/

namespace Xv6Container.Ops

open Lib
open Fs (NINODE FileType Dinode Entry CString)
open Names (one one_self one_of_ne add_one_pos add_one_nonneg lt_add_one Name Slot slash pathNames)

variable {sb : Superblock} {R R' : Entry → ℤ} {s t u : State} {e dp ip : Entry} {i : ℕ}
  {E : State → Prop} {x : Inode}

/-- The cache with the reference counts `R`. -/
structure Counted (R : Entry → ℤ) (s : State) : Prop where
  count : ∀ e, (s.cache e).ref = R e
  distinct : ∀ e e', 0 < R e → 0 < R e' → (s.cache e).inum = (s.cache e').inum → e = e'
  synced : ∀ e, 0 < R e → (s.cache e).valid = true →
    (s.cache e).copy = s.disk.inode (s.cache e).inum ∧ (s.cache e).copy.type ≠ .free

/-- The directories have no holes. -/
def Whole (d : Disk) : Prop := ∀ i, (d.inode i).type = .dir → d.Solid (d.inode i)

structure Cached (R : Entry → ℤ) (s : State) : Prop extends Counted R s where
  whole : Whole s.disk

/-- Inode `i` has links or is referenced. -/
def Live (R : Entry → ℤ) (s : State) (i : ℕ) : Prop :=
  (s.disk.inode i).nlink ≠ 0 ∨ ∃ e, 0 < R e ∧ (s.cache e).inum = i

/-- Inode `i` is not to be freed: it is free, or it is live. -/
def Anchored (R : Entry → ℤ) (s : State) (i : ℕ) : Prop := (s.disk.inode i).type ≠ .free → Live R s i

/-- No live directory leads to an inode that is to be freed. Other inodes without links may be left
over from a crash. -/
structure Settled (R : Entry → ℤ) (s : State) : Prop where
  root : Anchored R s ROOTINO
  next : ∀ i name x, (s.disk.inode i).type = .dir → Live R s i →
    s.disk.find (s.disk.inode i) name = some x → Anchored R s x.2

/-- A lookup leaves everything alone but the cache, and there the inodes that have the references
`R`. -/
structure Looked (R : Entry → ℤ) (s t : State) : Prop where
  disk : t.disk = s.disk
  logged : t.logged = s.logged
  ended : t.ended = s.ended
  file : t.file = s.file
  proc : t.proc = s.proc
  inum : ∀ e, 0 < R e → (t.cache e).inum = (s.cache e).inum

/-- `E` holds of every state that has logged what `s` has. -/
def Mute (E : State → Prop) (s : State) : Prop :=
  ∀ t, t.logged = s.logged → t.ended = s.ended → E t

theorem Mute.self (h : Mute E s) : E s := h s rfl rfl

theorem mute_true (s : State) : Mute (fun _ => True) s := fun _ _ _ => trivial

theorem Cached.congr (h : Cached R s) (hdisk : t.disk = s.disk) (hcache : t.cache = s.cache) :
    Cached R t := by
  refine ⟨⟨?_, ?_, ?_⟩, ?_⟩
  · rw [hcache]
    exact h.count
  · rw [hcache]
    exact h.distinct
  · rw [hcache, hdisk]
    exact h.synced
  · rw [hdisk]
    exact h.whole

theorem Anchored.congr (h : Anchored R s i) (hdisk : t.disk = s.disk)
    (hinum : ∀ e, 0 < R e → (t.cache e).inum = (s.cache e).inum) : Anchored R t i := by
  intro hi
  rw [hdisk] at hi
  refine (h hi).imp (fun hn => by rwa [hdisk]) ?_
  rintro ⟨e, he, hei⟩
  exact ⟨e, he, (hinum e he).trans hei⟩

namespace Looked

theorem refl (R : Entry → ℤ) (s : State) : Looked R s s := ⟨rfl, rfl, rfl, rfl, rfl, fun _ _ => rfl⟩

theorem trans (h : Looked R s t) (h' : Looked R t u) : Looked R s u where
  disk := h'.disk.trans h.disk
  logged := h'.logged.trans h.logged
  ended := h'.ended.trans h.ended
  file := h'.file.trans h.file
  proc := h'.proc.trans h.proc
  inum e he := (h'.inum e he).trans (h.inum e he)

theorem anti (h : Looked R' s t) (hle : ∀ e, 0 < R e → 0 < R' e) : Looked R s t :=
  ⟨h.disk, h.logged, h.ended, h.file, h.proc, fun e he => h.inum e (hle e he)⟩

/-- A reference that is given back. -/
theorem drop (h : Looked (R + one e) s t) : Looked R s t := h.anti fun _ hx => lt_add_one hx e

theorem mute (h : Looked R s t) (hE : Mute E s) : Mute E t := by
  intro u hlogged hended
  exact hE u (hlogged.trans h.logged) (hended.trans h.ended)

theorem live (h : Looked R s t) : Live R t i ↔ Live R s i := by
  rw [Live, Live, h.disk]
  refine or_congr Iff.rfl (exists_congr fun e => and_congr_right fun he => ?_)
  rw [h.inum e he]

theorem anchored (h : Looked R s t) (hs : Anchored R s i) : Anchored R t i :=
  hs.congr h.disk h.inum

theorem settled (h : Looked R s t) (hs : Settled R s) : Settled R t := by
  refine ⟨h.anchored hs.root, fun i name x hi hlive hx => h.anchored ?_⟩
  rw [h.disk] at hi hx
  exact hs.next i name x hi (h.live.1 hlive) hx

theorem cached (h : Looked R s t) (hs : Cached R' s) {R'' : Entry → ℤ} (ht : Counted R'' t) :
    Cached R'' t := by
  refine ⟨ht, ?_⟩
  rw [h.disk]
  exact hs.whole

end Looked

theorem Live.mono (h : Live R s i) (hle : ∀ e, 0 < R e → 0 < R' e) : Live R' s i := by
  refine h.imp_right ?_
  rintro ⟨e, he, hei⟩
  exact ⟨e, hle e he, hei⟩

theorem Anchored.mono (h : Anchored R s i) (hle : ∀ e, 0 < R e → 0 < R' e) : Anchored R' s i :=
  fun hi => (h hi).mono hle

/-- An inode that is referenced. -/
theorem anchored_of_pos (he : 0 < R e) : Anchored R s (s.cache e).inum := fun _ => .inr ⟨e, he, rfl⟩

/-- A live directory leads to live inodes. -/
theorem Settled.anchored {name : Name} {y : ℕ × ℕ} (h : Settled R s)
    (hi : (s.disk.inode i).type = .dir) (ha : Anchored R s i)
    (hy : s.disk.find (s.disk.inode i) name = some y) : Anchored R s y.2 := by
  refine h.next i name y hi (ha ?_) hy
  rw [hi]
  nofun

/-- A reference to an inode that was live. -/
theorem Settled.add (h : Settled R s) (ha : Anchored R s (s.cache e).inum) :
    Settled (R + one e) s := by
  have hle : ∀ x, 0 < R x → 0 < (R + one e) x := fun x hx => lt_add_one hx e
  refine ⟨h.root.mono hle, fun i name x hi hlive hx => ?_⟩
  refine (h.anchored hi ?_ hx).mono hle
  intro hfree
  obtain hn | ⟨y, hy, rfl⟩ := hlive
  · exact .inl hn
  · by_cases hye : y = e
    · subst hye
      exact ha hfree
    · rw [Pi.add_apply, one_of_ne hye, add_zero] at hy
      exact .inr ⟨y, hy, rfl⟩

/-! ### One entry changes -/

/-- An entry changes while it stands for the same inode, or has no reference. -/
theorem Looked.setInode (hx : 0 < R e → x.inum = (s.cache e).inum) :
    Looked R s (s.setInode e x) := by
  refine ⟨rfl, rfl, rfl, rfl, rfl, ?_⟩
  intro e' he'
  by_cases he : e' = e
  · subst he
    rw [State.setInode_self, hx he']
  · rw [State.setInode_of_ne _ he]

/-- A new value for an entry and its count. -/
theorem Counted.setInode (h : Counted R s) (hR' : ∀ e', e' ≠ e → R' e' = R e') (hx : x.ref = R' e)
    (hdistinct : 0 < R' e → ∀ e', e' ≠ e → 0 < R e' → (s.cache e').inum ≠ x.inum)
    (hsynced : 0 < R' e → x.valid = true →
      x.copy = s.disk.inode x.inum ∧ x.copy.type ≠ .free) :
    Counted R' (s.setInode e x) := by
  constructor
  · intro e'
    by_cases he : e' = e
    · rw [he, State.setInode_self, hx]
    · rw [State.setInode_of_ne _ he, h.count, hR' e' he]
  · intro a b ha hb hab
    by_cases hae : a = e
    · by_cases hbe : b = e
      · rw [hae, hbe]
      · rw [hae, State.setInode_self, State.setInode_of_ne _ hbe] at hab
        rw [hR' b hbe] at hb
        exact absurd hab.symm (hdistinct (hae ▸ ha) b hbe hb)
    · rw [hR' a hae] at ha
      by_cases hbe : b = e
      · rw [hbe, State.setInode_self, State.setInode_of_ne _ hae] at hab
        exact absurd hab (hdistinct (hbe ▸ hb) a hae ha)
      · rw [State.setInode_of_ne _ hae, State.setInode_of_ne _ hbe] at hab
        rw [hR' b hbe] at hb
        exact h.distinct a b ha hb hab
  · intro e' he' hv
    by_cases he : e' = e
    · subst he
      rw [State.setInode_self] at hv ⊢
      exact hsynced he' hv
    · rw [State.setInode_of_ne _ he] at hv ⊢
      exact h.synced e' (hR' e' he ▸ he') hv

/-- The usual case: the entry is in use, stands for the same inode and keeps its data. -/
theorem Counted.setSame (h : Counted R s) (hR' : ∀ e', e' ≠ e → R' e' = R e') (he : 0 < R e)
    (hx : x.ref = R' e) (hinum : x.inum = (s.cache e).inum) (hv : x.valid = (s.cache e).valid)
    (hcopy : x.copy = (s.cache e).copy) : Counted R' (s.setInode e x) := by
  apply h.setInode hR' hx
  · intro _ e' hne he' heq
    exact hne (h.distinct e' e he' he (heq.trans hinum))
  · intro _ hv'
    rw [hinum, hcopy]
    exact h.synced e he (hv ▸ hv')

/-! ### References and locks -/

theorem idup_halts (h : Cached R s) (he : 0 < R e) :
    Halts (fun e' t => e' = e ∧ Cached (R + one e) t ∧ Looked R s t) E (idup e s) := by
  have hl : Looked R s (s.setInode e { s.cache e with ref := (s.cache e).ref + 1 }) :=
    .setInode fun _ => rfl
  refine ⟨rfl, hl.cached h (h.setSame ?_ he ?_ rfl rfl rfl), hl⟩
  · intro e' hne
    rw [Pi.add_apply, one_of_ne hne, add_zero]
  · rw [Pi.add_apply, one_self, ← h.count e]

/-- An entry without references is recycled. -/
theorem Counted.recycle (h : Counted R s) (he : R e = 0)
    (hnew : ∀ e', 0 < R e' → (s.cache e').inum ≠ i) :
    Counted (R + one e) (s.setInode e { s.cache e with inum := i, ref := 1, valid := false }) := by
  apply h.setInode
  · intro e' hne
    rw [Pi.add_apply, one_of_ne hne, add_zero]
  · rw [Pi.add_apply, one_self, he, zero_add]
  · intro _ e' _ he'
    exact hnew e' he'
  · intro _ hv
    cases hv

theorem iget_counted (h : Counted R s) (hE : E s) :
    Halts (fun e t => Counted (R + one e) t ∧ Looked R s t ∧ (t.cache e).inum = i) E
      (iget i s) := by
  simp only [iget, run_get_bind]
  cases hf : (List.finRange NINODE).find? fun e => (s.cache e).ref > 0 ∧ (s.cache e).inum = i with
  | some e =>
    have hfound := List.find?_some hf
    simp only [gt_iff_lt, decide_eq_true_eq] at hfound
    have he : 0 < R e := h.count e ▸ hfound.1
    refine ⟨h.setSame ?_ he ?_ rfl rfl rfl, .setInode fun _ => rfl, ?_⟩
    · intro e' hne
      rw [Pi.add_apply, one_of_ne hne, add_zero]
    · rw [Pi.add_apply, one_self, ← h.count e]
    · rw [State.setInode_self]
      exact hfound.2
  | none =>
    have hnew : ∀ e, 0 < R e → (s.cache e).inum ≠ i := by
      intro e he
      have hno := List.find?_eq_none.1 hf e (List.mem_finRange e)
      simp only [gt_iff_lt, decide_eq_true_eq, not_and] at hno
      exact hno ((h.count e).symm ▸ he)
    dsimp only
    cases hg : (List.finRange NINODE).find? fun e => (s.cache e).ref = 0 with
    | none => exact hE
    | some e =>
      have hzero := List.find?_some hg
      simp only [decide_eq_true_eq] at hzero
      rw [h.count] at hzero
      refine ⟨h.recycle hzero hnew, .setInode fun he => absurd hzero he.ne', ?_⟩
      rw [State.setInode_self]

theorem iget_halts (h : Cached R s) (hE : E s) :
    Halts (fun e t => Cached (R + one e) t ∧ Looked R s t ∧ (t.cache e).inum = i) E (iget i s) := by
  refine (iget_counted h.toCounted hE).post ?_
  rintro e t ⟨ht, hl, hei⟩
  exact ⟨hl.cached h ht, hl, hei⟩

/-- The lock of an entry in use is set or cleared. -/
theorem Counted.setLocked (h : Counted R s) (he : 0 < R e) (b : Bool) :
    Counted R (s.setInode e { s.cache e with locked := b }) :=
  h.setSame (fun _ _ => rfl) he (h.count e) rfl rfl rfl

theorem acquiresleep_halts (hE : E s) :
    Halts (fun _ t => t = s.setInode e { s.cache e with locked := true }) E (acquiresleep e s) := by
  rw [acquiresleep, run_get_bind]
  split_ifs
  · exact hE
  · exact rfl

/-- `ilock` reads the inode unless it is there. -/
theorem ilock_counted (h : Counted R s) (he : 0 < R e) (hE : Mute E s) :
    Halts (fun _ t => Counted R t ∧ Looked R s t ∧ (t.cache e).valid = true) E (ilock e s) := by
  rw [ilock, run_get_bind]
  split_ifs with href
  · exact hE.self
  · refine (acquiresleep_halts hE.self).bind ?_
    rintro _ t rfl
    have hl := h.setLocked he true
    have hlooked : Looked R s (s.setInode e { s.cache e with locked := true }) :=
      .setInode fun _ => rfl
    rw [run_get_bind]
    simp only [State.setInode_self]
    split_ifs with hv hfree
    · exact hE _ rfl rfl
    · refine ⟨hl.setInode (fun _ _ => rfl) ?_ ?_ ?_, hlooked.trans (.setInode fun _ => ?_), ?_⟩
      · rw [State.setInode_self]
        exact h.count e
      · intro _ e' hne he'
        rw [State.setInode_of_ne _ hne, State.setInode_self]
        exact fun heq => hne (h.distinct e' e he' he heq)
      · intro _ _
        rw [State.setInode_self]
        exact ⟨rfl, hfree⟩
      · rw [State.setInode_self]
      · rw [State.setInode_self]
    · refine ⟨hl, hlooked, ?_⟩
      rw [State.setInode_self]
      simpa using hv

theorem ilock_halts (h : Cached R s) (he : 0 < R e) (hE : Mute E s) :
    Halts (fun _ t => Cached R t ∧ Looked R s t ∧ (t.cache e).valid = true) E (ilock e s) := by
  refine (ilock_counted h.toCounted he hE).post ?_
  rintro _ t ⟨ht, hl, hv⟩
  exact ⟨hl.cached h ht, hl, hv⟩

theorem iunlock_halts (h : Cached R s) (hE : E s) :
    Halts (fun _ t => Cached R t ∧ Looked R s t ∧ ∀ x, (t.cache x).valid = (s.cache x).valid) E
      (iunlock e s) := by
  rw [iunlock, run_get_bind]
  split_ifs with hif
  · exact hE
  · have he : 0 < R e := by
      rw [← h.count e]
      omega
    have hl : Looked R s (s.setInode e { s.cache e with locked := false }) := .setInode fun _ => rfl
    refine ⟨hl.cached h (h.setLocked he false), hl, ?_⟩
    intro x
    by_cases hx : x = e
    · rw [hx, State.setInode_self]
    · rw [State.setInode_of_ne _ hx]

/-- A reference less, to an inode that somebody else uses or that has links. -/
theorem iput_halts (h : Cached (R + one e) s) (hR : ∀ x, 0 ≤ R x)
    (ha : Anchored R s (s.cache e).inum) (hE : E s) :
    Halts (fun _ t => Cached R t ∧ Looked R s t) E (iput sb e s) := by
  have he : 0 < (R + one e) e := add_one_pos (hR e)
  have hkeep : ¬ ((s.cache e).valid = true ∧ (s.cache e).copy.nlink = 0 ∧ (s.cache e).ref = 1) := by
    rintro ⟨hv, hn, href⟩
    obtain ⟨hcopy, hfree⟩ := h.synced e he hv
    rw [hcopy] at hn hfree
    obtain hne | ⟨e', he', hinum⟩ := ha hfree
    · exact hne hn
    obtain rfl := h.distinct e' e (lt_add_one he' e) he hinum
    rw [h.count, Pi.add_apply, one_self] at href
    omega
  rw [iput]
  refine (acquiresleep_halts hE).bind ?_
  rintro _ t rfl
  rw [run_get_bind]
  simp only [State.setInode_self]
  rw [if_neg hkeep]
  have hl : Looked (R + one e) s (s.setInode e { s.cache e with
      locked := false, ref := (s.cache e).ref - 1 }) := .setInode fun _ => rfl
  have hcounted : Counted R (s.setInode e { s.cache e with
      locked := false, ref := (s.cache e).ref - 1 }) := by
    constructor
    · intro x
      by_cases hx : x = e
      · rw [hx, State.setInode_self]
        show (s.cache e).ref - 1 = R e
        rw [h.count, Pi.add_apply, one_self, add_sub_cancel_right]
      · rw [State.setInode_of_ne _ hx, h.count, Pi.add_apply, one_of_ne hx, add_zero]
    · intro a b ha hb hab
      rw [hl.inum a (lt_add_one ha e), hl.inum b (lt_add_one hb e)] at hab
      exact h.distinct a b (lt_add_one ha e) (lt_add_one hb e) hab
    · intro x hx hv
      have hsame := h.synced x (lt_add_one hx e)
      by_cases hxe : x = e
      · subst hxe
        rw [State.setInode_self] at hv ⊢
        exact hsame hv
      · rw [State.setInode_of_ne _ hxe] at hv ⊢
        exact hsame hv
  have hcached : Cached R (s.setInode e { s.cache e with
      locked := false, ref := (s.cache e).ref - 1 }) := ⟨hcounted, h.whole⟩
  have hstate : ((s.setInode e { s.cache e with locked := true }).setInode e { s.cache e with
      locked := false }).setInode e { s.cache e with locked := false, ref := (s.cache e).ref - 1 } =
      s.setInode e { s.cache e with locked := false, ref := (s.cache e).ref - 1 } := by
    simp only [State.setInode, Function.update_idem]
  simp only [releasesleep, setInode, run_modify_bind, run_modify,
    State.setInode_self, hstate]
  exact ⟨hcached, hl.drop⟩

end Xv6Container.Ops
