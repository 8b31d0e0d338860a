import Xv6Container.Lib.Splice
import Xv6Container.Ops.Owned

/-! The content of a file as a flat array of bytes. A pass of the loop in `writei` changes the bytes
that it copies and no others, in this file or in another one. -/

namespace Xv6Container.Ops

open Lib
open Fs (BSIZE NDIRECT NINDIRECT MAXFILE Dinode Block Entry Place direct indirect stored
  stored_eq_some stored_of_ne blockPlace blockPlace_ne_indirect blockPlace_of_lt
  lt_of_blockPlace getUint copyIn copyOut add_lt_self_iff)

variable {sb : Superblock} {b m n off : ℕ} {e : Entry} {s t u : State} {x : Place} {d : Disk}
  {node : Dinode} {src : ℕ → UInt8}

/-- The block of part `bn` of an inode. -/
def Disk.fileBlock (d : Disk) (n : Dinode) (bn : ℕ) : Option ℕ := (blockPlace bn).bind (n.ref d.data)

/-- A byte of the file whose blocks are at the places `own`. -/
def byteAt (own : Place → Option ℕ) (data : ℕ → Block) (o : ℕ) : UInt8 :=
  match (blockPlace (o / BSIZE)).bind own with
  | some b => data b ⟨o % BSIZE, Nat.mod_lt _ (by decide)⟩
  | none => 0

/-- The bytes of an inode. A hole reads as zeros. -/
def Disk.content (d : Disk) (n : Dinode) : List UInt8 :=
  (List.range n.size).map (byteAt (n.ref d.data) d.data)

/-- A byte of the file of inode `i`, with the copy of entry `e`. -/
def State.byte (s : State) (e : Entry) (i o : ℕ) : UInt8 :=
  byteAt (fun x => s.refs e (i, x)) s.disk.data o

theorem length_content (d : Disk) (n : Dinode) : (d.content n).length = n.size := by
  rw [Disk.content, List.length_map, List.length_range]

theorem getElem?_content (d : Disk) (n : Dinode) (o : ℕ) :
    (d.content n)[o]? = if o < n.size then some (byteAt (n.ref d.data) d.data o) else none := by
  rw [Disk.content, List.getElem?_map]
  split_ifs with ho
  · rw [List.getElem?_range ho, Option.map_some]
  · rw [List.getElem?_eq_none (by rw [List.length_range]; omega), Option.map_none]

theorem fileBlock_eq_some {bn : ℕ} :
    d.fileBlock node bn = some b ↔ d.Mapped node bn ∧ d.block node bn = b := by
  rw [Disk.fileBlock, blockPlace]
  split_ifs with h1 h2
  · rw [Option.bind_some, Dinode.ref, stored_eq_some]
    have hblock : d.block node bn = node.addrs (direct ⟨bn, h1⟩) := by rw [Disk.block, dif_pos h1]
    constructor
    · rintro ⟨rfl, h0⟩
      exact ⟨⟨fun h => absurd h1 (Nat.not_lt.2 h), hblock ▸ h0⟩, hblock⟩
    · rintro ⟨h, rfl⟩
      exact ⟨hblock.symm, h.block⟩
  · have hblock : d.block node bn = getUint (d.data (node.addrs indirect)) ⟨bn - NDIRECT, h2⟩ := by
      rw [Disk.block, dif_neg h1, dif_pos h2]
    rw [Option.bind_some, Dinode.ref]
    split_ifs with h0
    · refine ⟨by rintro ⟨⟩, ?_⟩
      rintro ⟨h, -⟩
      exact h.indirect (Nat.not_lt.1 h1) h0
    · rw [stored_eq_some]
      constructor
      · rintro ⟨rfl, hne⟩
        exact ⟨⟨fun _ => h0, hblock ▸ hne⟩, hblock⟩
      · rintro ⟨h, rfl⟩
        exact ⟨hblock.symm, h.block⟩
  · rw [Option.bind_none]
    refine ⟨by rintro ⟨⟩, ?_⟩
    rintro ⟨h, -⟩
    have := h.lt
    omega

theorem mapped_iff {bn : ℕ} : d.Mapped node bn ↔ d.fileBlock node bn ≠ none := by
  rw [Option.ne_none_iff_exists']
  constructor
  · intro h
    exact ⟨_, fileBlock_eq_some.2 ⟨h, rfl⟩⟩
  · rintro ⟨b, hb⟩
    exact (fileBlock_eq_some.1 hb).1

theorem Working.fileBlock_eq (h : Working sb e s) (bn : ℕ) :
    s.fileBlock e bn = s.disk.fileBlock (s.cache e).copy bn := by
  simp only [State.fileBlock, Disk.fileBlock, h.refs_self]

theorem Working.byte_self (h : Working sb e s) (o : ℕ) :
    s.byte e (s.cache e).inum o = byteAt ((s.cache e).copy.ref s.disk.data) s.disk.data o := by
  simp only [State.byte, h.refs_self]

theorem byteAt_some {own : Place → Option ℕ} {data : ℕ → Block} {o : ℕ}
    (hb : (blockPlace (o / BSIZE)).bind own = some b) :
    byteAt own data o = data b ⟨o % BSIZE, Nat.mod_lt _ (by decide)⟩ := by
  rw [byteAt, hb]

theorem byteAt_none {own : Place → Option ℕ} {data : ℕ → Block} {o : ℕ}
    (hb : (blockPlace (o / BSIZE)).bind own = none) : byteAt own data o = 0 := by
  rw [byteAt, hb]

/-- A byte is the same where its block is. -/
theorem byteAt_congr {own own' : Place → Option ℕ} {data data' : ℕ → Block} {o : ℕ}
    (hown : ∀ x, blockPlace (o / BSIZE) = some x → own' x = own x)
    (hdata : ∀ x b, blockPlace (o / BSIZE) = some x → own x = some b → data' b = data b) :
    byteAt own' data' o = byteAt own data o := by
  cases hx : blockPlace (o / BSIZE) with
  | none => rw [byteAt_none (by rw [hx]; rfl), byteAt_none (by rw [hx]; rfl)]
  | some x =>
    cases hb : own x with
    | none =>
      rw [byteAt_none (by rw [hx]; exact (hown x hx).trans hb), byteAt_none (by rw [hx]; exact hb)]
    | some b =>
      rw [byteAt_some (by rw [hx]; exact (hown x hx).trans hb), byteAt_some (by rw [hx]; exact hb),
        hdata x b hx hb]

/-! ### A pass of `writei` -/

/-- `n` bytes of `src` are at `off` in the file of `e`; the inode is not on the disk yet. -/
structure Wrote (e : Entry) (off n : ℕ) (src : ℕ → UInt8) (s t : State) : Prop where
  inode : t.disk.inode = s.disk.inode
  file : t.file = s.file
  proc : t.proc = s.proc
  cache : ∃ addrs, t.cache = Function.update s.cache e
    { s.cache e with copy := { (s.cache e).copy with addrs := addrs } }
  still : (∀ k < n, s.fileBlock e ((off + k) / BSIZE) ≠ none) → t.cache = s.cache
  grows : ∀ bn, s.fileBlock e bn ≠ none → t.fileBlock e bn ≠ none
  filled : ∀ k < n, t.fileBlock e ((off + k) / BSIZE) ≠ none
  written : ∀ k < n, t.byte e (s.cache e).inum (off + k) = src k
  kept : ∀ o, o < off ∨ off + n ≤ o → s.fileBlock e (o / BSIZE) ≠ none →
    t.byte e (s.cache e).inum o = s.byte e (s.cache e).inum o
  elsewhere : ∀ j, j ≠ (s.cache e).inum → ∀ o, t.byte e j o = s.byte e j o

namespace Wrote

theorem refl (e : Entry) (off : ℕ) (src : ℕ → UInt8) (s : State) : Wrote e off 0 src s s :=
  ⟨rfl, rfl, rfl, ⟨(s.cache e).copy.addrs, (Function.update_eq_self e s.cache).symm⟩, fun _ => rfl,
    fun _ => id, nofun, nofun, fun _ _ _ => rfl, fun _ _ _ => rfl⟩

theorem inum (h : Wrote e off n src s t) : (t.cache e).inum = (s.cache e).inum := by
  obtain ⟨a, ha⟩ := h.cache
  rw [ha, Function.update_self]

theorem trans (h : Wrote e off m src s t) (h' : Wrote e (off + m) n (fun k => src (m + k)) t u) :
    Wrote e off (m + n) src s u := by
  obtain ⟨a, ha⟩ := h.cache
  obtain ⟨a', ha'⟩ := h'.cache
  have hinum := h.inum
  constructor
  case inode => exact h'.inode.trans h.inode
  case file => exact h'.file.trans h.file
  case proc => exact h'.proc.trans h.proc
  case cache =>
    refine ⟨a', ?_⟩
    rw [ha', ha, Function.update_self, Function.update_idem]
  case still =>
    intro hall
    rw [h'.still, h.still]
    · exact fun k hk => hall k (by omega)
    · intro k hk
      have := h.grows _ (hall (m + k) (by omega))
      rwa [← Nat.add_assoc] at this
  case grows => exact fun bn hbn => h'.grows bn (h.grows bn hbn)
  case filled =>
    intro k hk
    by_cases hkm : k < m
    · exact h'.grows _ (h.filled k hkm)
    · have := h'.filled (k - m) (by omega)
      rwa [show off + m + (k - m) = off + k by omega] at this
  case written =>
    intro k hk
    by_cases hkm : k < m
    · have := h'.kept (off + k) (.inl (by omega)) (h.filled k hkm)
      rw [hinum] at this
      rw [this, h.written k hkm]
    · have := h'.written (k - m) (by omega)
      rwa [hinum, show off + m + (k - m) = off + k by omega, show m + (k - m) = k by omega] at this
  case kept =>
    intro o ho hblock
    have := h'.kept o (by omega) (h.grows _ hblock)
    rw [hinum] at this
    rw [this, h.kept o (by omega) hblock]
  case elsewhere =>
    intro j hj o
    rw [h'.elsewhere j (by rwa [hinum]), h.elsewhere j hj]

end Wrote

/-- The state after `log_write` of block `b`. -/
def State.put (s : State) (b : ℕ) (a : Block) : State :=
  s.setDisk { s.disk with data := Function.update s.disk.data b a } b

namespace Working

/-- A block of a file is no indirect block, so what is written there moves no reference. -/
theorem refs_put (h : Working sb e s) {y : ℕ × Place} (hb : s.refs e y = some b)
    (hy : y.2 ≠ .addr indirect) (a : Block) : (s.put b a).refs e = s.refs e := by
  refine @refs_data b (s.table e) s.disk.data a fun i hi h0 heq => ?_
  have hind : s.refs e (i, .addr indirect) = some b := by
    rw [State.refs, refs_of_ne_free hi, Dinode.ref, heq, stored_of_ne (heq ▸ h0)]
  have := h.owned.exact.unique _ _ b hind hb
  exact hy (congrArg Prod.snd this).symm

theorem put (h : Working sb e s) {y : ℕ × Place} (hb : s.refs e y = some b)
    (hy : y.2 ≠ .addr indirect) (a : Block) : Working sb e (s.put b a) := by
  refine ⟨⟨?_, h.owned.metaUsed⟩, h.alloc⟩
  change Exact sb.DataBlock s.disk.used ((s.put b a).refs e)
  rw [h.refs_put hb hy]
  exact h.owned.exact

theorem room_put (h : Working sb e s) {y : ℕ × Place} (hb : s.refs e y = some b)
    (hy : y.2 ≠ .addr indirect) (a : Block) (len : ℕ) :
    Room sb e len (s.put b a) ↔ Room sb e len s := by
  have hmissing : (s.put b a).missing e len = s.missing e len := by
    rw [State.missing, State.missing, h.refs_put hb hy]
    rfl
  rw [Room, Room, hmissing]
  rfl

end Working

/-- A pass of the loop: `m` bytes go into the block that `bmap` has found. -/
theorem Placed.wrote (h : Placed sb e x s b t) (hs : Working sb e s)
    (hx : blockPlace (off / BSIZE) = some x) (hpos : 0 < m) (hm : m ≤ BSIZE - off % BSIZE)
    (src : ℕ → UInt8) :
    Wrote e off m src s (t.put b (copyIn (t.disk.data b) (off % BSIZE) m src)) := by
  have hmod : off % BSIZE < BSIZE := Nat.mod_lt _ (by decide)
  have hxi := blockPlace_ne_indirect hx
  set a := copyIn (t.disk.data b) (off % BSIZE) m src with ha
  have hrefs : (t.put b a).refs e = t.refs e := h.working.refs_put h.here hxi a
  have hinum := h.extend.inum
  have hhere : t.refs e ((s.cache e).inum, x) = some b := hinum ▸ h.here
  have hdiv : ∀ k < m, (off + k) / BSIZE = off / BSIZE := by
    intro k hk
    simp only [BSIZE] at hm ⊢
    omega
  have hfile : ∀ bn, (t.put b a).fileBlock e bn = t.fileBlock e bn := by
    intro bn
    rw [State.fileBlock, hrefs]
    rfl
  -- another place holds another block
  have hother : ∀ y c, t.refs e y = some c → y ≠ ((s.cache e).inum, x) →
      (t.put b a).disk.data c = t.disk.data c := by
    intro y c hy hne
    apply Function.update_of_ne
    rintro rfl
    exact hne (h.working.owned.exact.unique y _ c hy hhere)
  constructor
  case inode => exact h.extend.inode
  case file => exact h.extend.file
  case proc => exact h.extend.proc
  case cache => exact h.extend.cache
  case still =>
    intro hall
    have hblock := hall 0 hpos
    rw [Nat.add_zero, State.fileBlock, hx, Option.bind_some] at hblock
    show t.cache = s.cache
    rw [h.same hblock]
  case grows =>
    intro bn hbn
    obtain ⟨c, hc⟩ := Option.ne_none_iff_exists'.1 hbn
    rw [hfile, h.extend.fileBlock hc]
    rintro ⟨⟩
  case filled =>
    intro k hk
    rw [hfile, State.fileBlock, hdiv k hk, hx, Option.bind_some, h.here]
    rintro ⟨⟩
  case written =>
    intro k hk
    have hidx : (off + k) % BSIZE = off % BSIZE + k := by
      simp only [BSIZE] at hm ⊢
      omega
    rw [State.byte, byteAt_some (b := b)]
    · show Function.update t.disk.data b a b _ = _
      rw [Function.update_self, ha, copyIn]
      dsimp only
      rw [if_pos (by omega), hidx, Nat.add_sub_cancel_left]
    · rw [hdiv k hk, hx, Option.bind_some, hrefs, hhere]
  case kept =>
    intro o ho hblock
    obtain ⟨c, hc⟩ := Option.ne_none_iff_exists'.1 hblock
    obtain ⟨y, hy, hyc⟩ := Option.bind_eq_some_iff.1 hc
    have hgrow := h.extend.grows _ _ hyc
    rw [State.byte, State.byte, byteAt_some (b := c), byteAt_some (b := c)]
    · by_cases hxy : y = x
      · -- the same block, which was there before
        subst hxy
        have hts := h.same (by rw [hyc]; rintro ⟨⟩)
        subst hts
        cases hyc.symm.trans hhere
        show Function.update t.disk.data b a b _ = _
        have hon : o / BSIZE = off / BSIZE := by
          have h1 := start_of_blockPlace hy
          have h2 := start_of_blockPlace hx
          simp only [BSIZE] at h1 h2 ⊢
          omega
        rw [Function.update_self, ha, copyIn]
        refine if_neg ?_
        dsimp only
        simp only [BSIZE] at hon hm ⊢
        omega
      · rw [hother _ c hgrow (by simpa using hxy)]
        rw [h.extend.data _ c hyc (by simpa using blockPlace_ne_indirect hy)]
    · rw [hy, Option.bind_some, hyc]
    · rw [hy, Option.bind_some, hrefs, hgrow]
  case elsewhere =>
    intro j hj o
    have hne : ∀ y z : Place, ((j, y) : ℕ × Place) ≠ ((s.cache e).inum, z) := by
      intro y z heq
      exact hj (congrArg Prod.fst heq)
    apply byteAt_congr
    · intro y _
      rw [hrefs, h.extend.others (j, y) hj]
    · intro y c _ hc
      have hgrow := h.extend.grows _ _ hc
      rw [hother _ c hgrow (hne y x), h.extend.data _ c hc (hne y _)]

/-- What is left of the room for a file of `len` bytes. -/
def Keeps (sb : Superblock) (e : Entry) (len : ℕ) (s t : State) : Prop :=
  ∀ len', len ≤ len' → Room sb e len' s → Room sb e len' t

/-- There is no room for a file of `len` bytes. -/
def NoRoom (sb : Superblock) (e : Entry) (len : ℕ) (s : State) : Prop :=
  ∀ len', len ≤ len' → ¬ Room sb e len' s

theorem writeLoop_halts (src : ℕ → UInt8) {fuel tot : ℕ} (h : Working sb e s)
    (hfuel : n - tot ≤ fuel) (hmax : off + (n - tot) ≤ MAXFILE * BSIZE) :
    Halts (fun off' t => off' = off + (n - tot) ∧ Working sb e t ∧
        Wrote e off (n - tot) (fun k => src (tot + k)) s t ∧ Keeps sb e (off + (n - tot)) s t)
      (fun _ => NoRoom sb e (off + (n - tot)) s) (writeLoop sb e src n fuel tot off s) := by
  induction fuel generalizing tot off s with
  | zero =>
    rw [Nat.le_zero.1 hfuel]
    exact ⟨rfl, h, .refl e off _ s, fun _ _ => id⟩
  | succ fuel ih =>
    rw [writeLoop]
    split_ifs with htot
    · have hmod : off % BSIZE < BSIZE := Nat.mod_lt _ (by decide)
      have hlt : off / BSIZE < MAXFILE := by
        simp only [MAXFILE, BSIZE] at hmax ⊢
        omega
      obtain ⟨x, hx⟩ := blockPlace_of_lt hlt
      have hstart : start x < off + (n - tot) := by
        have := start_of_blockPlace hx
        have := Nat.div_mul_le_self off BSIZE
        omega
      refine ((bmap_halts h hx).mono (fun _ _ => id) fun _ hfull len hlen =>
        hfull len (hstart.trans_le hlen)).bind ?_
      intro b t ht
      have hxi := blockPlace_ne_indirect hx
      have hdata := ht.working.dataBlock ht.here
      rw [run_bind_ok (bread_run hdata), run_bind_ok (logWrite_run hdata _)]
      set m := min (n - tot) (BSIZE - off % BSIZE) with hm
      have hwrote := ht.wrote h hx (m := m) (by omega) (by omega) fun k => src (tot + k)
      have hkeep : ∀ len, off + (n - tot) ≤ len → Room sb e len s → Room sb e len (t.put b
          (copyIn (t.disk.data b) (off % BSIZE) m fun k => src (tot + k))) := by
        intro len hlen hroom
        rw [ht.working.room_put ht.here hxi]
        exact ht.room len (hstart.trans_le hlen) hroom
      have hsum : off + m + (n - (tot + m)) = off + (n - tot) := by omega
      refine (ih (ht.working.put ht.here hxi _) (by omega) (by omega)).mono ?_ ?_
      · rw [hsum]
        rintro off' u ⟨hoff, hu, hrest, hroom⟩
        have hsrc : (fun k => src (tot + m + k)) = fun k => src (tot + (m + k)) := by
          funext k
          rw [Nat.add_assoc]
        rw [hsrc] at hrest
        have hall := hwrote.trans hrest
        rw [show m + (n - (tot + m)) = n - tot by omega] at hall
        exact ⟨hoff, hu, hall, fun len hlen hs => hroom len hlen (hkeep len hlen hs)⟩
      · rw [hsum]
        exact fun _ hno len hlen hs => hno len hlen (hkeep len hlen hs)
    · rw [show n - tot = 0 by omega]
      exact ⟨rfl, h, .refl e off _ s, fun _ _ => id⟩

end Xv6Container.Ops
