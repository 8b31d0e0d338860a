import Xv6Container.Ops.ReadWrite

/-! A write to one inode and the blocks of the others. -/

namespace Xv6Container.Ops

open Lib
open Fs (BSIZE MAXFILE Dinode Entry Place blockPlace blockPlace_ne_indirect blockPlace_of_lt
  add_lt_self_iff)

variable {sb : Superblock} {n off : ℕ} {e : Entry} {s t u : State} {src : ℕ → UInt8} {d : Dinode}

/-- The other inodes are on the disk as they were and hold the blocks that they held. -/
structure Spares (e : Entry) (s t : State) : Prop where
  inum : (t.cache e).inum = (s.cache e).inum
  inode : ∀ j, j ≠ (s.cache e).inum → t.disk.inode j = s.disk.inode j
  refs : ∀ y, y.1 ≠ (s.cache e).inum → t.refs e y = s.refs e y

namespace Spares

theorem refl (e : Entry) (s : State) : Spares e s s := ⟨rfl, fun _ _ => rfl, fun _ _ => rfl⟩

theorem trans (h : Spares e s t) (h' : Spares e t u) : Spares e s u where
  inum := h'.inum.trans h.inum
  inode j hj := (h'.inode j (h.inum ▸ hj)).trans (h.inode j hj)
  refs y hy := (h'.refs y (h.inum ▸ hy)).trans (h.refs y hy)

/-- Only the inode of `e` changes. -/
theorem of_data (hinum : (t.cache e).inum = (s.cache e).inum)
    (hinode : ∀ j, j ≠ (s.cache e).inum → t.disk.inode j = s.disk.inode j)
    (hdata : t.disk.data = s.disk.data) : Spares e s t := by
  refine ⟨hinum, hinode, fun y hy => ?_⟩
  have htable : t.table e y.1 = s.table e y.1 := by
    rw [State.table, State.table, hinum, Function.update_of_ne hy, Function.update_of_ne hy,
      hinode y.1 hy]
  rw [State.refs, State.refs, Ops.refs, Ops.refs, htable, hdata]

/-- Another inode has no holes where it had none. -/
theorem solid (h : Spares e s t) {j : ℕ} (hj : j ≠ (s.cache e).inum)
    (hd : s.disk.inode j = d) (hfree : d.type ≠ .free) (hs : s.disk.Solid d) : t.disk.Solid d := by
  have href : ∀ (v : State) x, (v.cache e).inum = (s.cache e).inum → v.disk.inode j = d →
      v.refs e (j, x) = d.ref v.disk.data x := by
    intro v x hinum hv
    have htable : v.table e j = d := by
      rw [State.table, Function.update_of_ne (by rwa [hinum]), hv]
    rw [State.refs, refs_of_ne_free (by rwa [htable]), htable]
  intro bn hbn
  have hold := hs bn hbn
  rw [mapped_iff, Disk.fileBlock] at hold ⊢
  cases hx : blockPlace bn with
  | none =>
    rw [hx] at hold
    exact absurd rfl hold
  | some x =>
    rw [hx, Option.bind_some, ← href s x rfl hd, ← h.refs (j, x) hj,
      href t x h.inum ((h.inode j hj).trans hd)] at hold
    exact hold

end Spares

theorem Extends.spares (h : Extends e s t) : Spares e s t :=
  ⟨h.inum, fun j _ => congrFun h.inode j, h.others⟩

theorem writeLoop_spares {fuel tot : ℕ} (h : Working sb e s)
    (hmax : off + (n - tot) ≤ MAXFILE * BSIZE) :
    Halts (fun _ t => Spares e s t) (fun _ => True) (writeLoop sb e src n fuel tot off s) := by
  induction fuel generalizing tot off s with
  | zero => exact .refl e s
  | succ fuel ih =>
    rw [writeLoop]
    split_ifs with htot
    · have hmod : off % BSIZE < BSIZE := Nat.mod_lt _ (by decide)
      have hlt : off / BSIZE < MAXFILE := by
        simp only [MAXFILE, BSIZE] at hmax ⊢
        omega
      obtain ⟨x, hx⟩ := blockPlace_of_lt hlt
      refine ((bmap_halts h hx).mono (fun _ _ => id) fun _ _ => trivial).bind ?_
      intro b t ht
      have hxi := blockPlace_ne_indirect hx
      have hdata := ht.working.dataBlock ht.here
      rw [run_bind_ok (bread_run hdata), run_bind_ok (logWrite_run hdata _)]
      set a := Fs.copyIn (t.disk.data b) (off % BSIZE) (min (n - tot) (BSIZE - off % BSIZE)) fun i =>
        src (tot + i)
      have hput : Spares e t (t.put b a) :=
        ⟨rfl, fun _ _ => rfl, fun y _ => by rw [ht.working.refs_put ht.here hxi a]⟩
      refine (ih (ht.working.put ht.here hxi a) (by omega)).post fun _ u hu => ?_
      exact (ht.extend.spares.trans hput).trans hu
    · exact .refl e s

theorem writei_spares (h : Held sb e s) (src : ℕ → UInt8) (off n : UInt32) :
    Halts (fun _ t => Spares e s t) (fun _ => True) (writei sb e src off n s) := by
  rw [writei, run_get_bind]
  simp only [add_lt_self_iff]
  split_ifs with _ _ _ hmax
  · exact .refl e s
  · exact .refl e s
  · exact .refl e s
  · exact .refl e s
  · refine (writeLoop_spares h.working (by omega)).bind ?_
    intro off' t ht
    split_ifs
    · rw [run_bind_ok (setCopy_run _ _ _), run_bind_ok (iupdate_run _ _ _), State.setInode_self]
      refine ht.trans (.of_data ?_ ?_ rfl)
      · show ((t.setInode e _).cache e).inum = _
        rw [State.setInode_self]
      · intro j hj
        exact Function.update_of_ne hj ..
    · exact ht

end Xv6Container.Ops
