import Mathlib.Tactic.Ring
import Xv6Container.Mkfs.Image

/-! `iappend` puts its bytes behind the file. Blocks are taken one after the other from
`freeblock`, so the blocks below it are those that the files hold; `cost` says how many a file of
some length takes. -/

namespace Xv6Container.Mkfs

open Lib Fs

variable {T T' : Inum → Dinode} {data data' : ℕ → Block} {free : ℕ} {i j : Inum}

/-- The blocks of a file of `len` bytes, with its indirect block. -/
def cost (len : ℕ) : ℕ := (len + (BSIZE - 1)) / BSIZE + if NDIRECT * BSIZE < len then 1 else 0

theorem cost_mono {m n : ℕ} (h : m ≤ n) : cost m ≤ cost n := by
  simp only [cost, BSIZE, NDIRECT]
  split_ifs <;> omega

/-- What a pass of the loop takes: a block when it starts one, and the indirect block with the
first block behind the direct ones. -/
theorem cost_add {off m : ℕ} (hm : 0 < m) (hle : m ≤ BSIZE - off % BSIZE) :
    cost (off + m) = cost off + ((if off % BSIZE = 0 then 1 else 0) +
      if off = NDIRECT * BSIZE then 1 else 0) := by
  simp only [cost, BSIZE, NDIRECT] at hle ⊢
  split_ifs <;> omega

/-- The blocks of the data area below `free` are those that the inodes hold; the others have never
been written. -/
structure Laid (T : Inum → Dinode) (free : ℕ) (data : ℕ → Block) : Prop where
  owned : Owned T (fun b => decide (b < free)) data
  high : free ≤ FSSIZE
  zero : ∀ b, free ≤ b → data b = fun _ => 0

theorem Laid.low (h : Laid T free data) : nmeta ≤ free := by
  by_contra hlt
  have := h.owned.metaUsed free (by omega)
  rw [decide_eq_true_eq] at this
  omega

theorem Laid.ne_zero (h : Laid T free data) : free ≠ 0 := by
  have := h.low
  rintro rfl
  exact absurd this (by decide)

theorem Laid.lt {y : Inum × Place} {b : ℕ} (h : Laid T free data)
    (hy : refs T data y = some b) : DataBlock b ∧ b < free :=
  ⟨h.owned.exact.domain y b hy, of_decide_eq_true (h.owned.exact.marked y b hy)⟩

/-- The next block goes to an empty place. -/
theorem Laid.take (h : Laid T free data) (hfree : free < FSSIZE) {y : Inum × Place}
    (hy : refs T data y = none)
    (hrefs : refs T' data' = Function.update (refs T data) y (some free))
    (hzero : ∀ b, free + 1 ≤ b → data' b = fun _ => 0) : Laid T' (free + 1) data' := by
  have hused : (fun b => decide (b < free + 1)) =
      Function.update (fun b => decide (b < free)) free true := by
    funext b
    by_cases hb : b = free
    · rw [hb, Function.update_self, decide_eq_true_eq]
      omega
    · rw [Function.update_of_ne hb]
      exact decide_eq_decide.2 (by omega)
  refine ⟨⟨?_, fun b hb => ?_⟩, hfree, hzero⟩
  · rw [hused, hrefs]
    exact h.owned.exact.assign hy ⟨h.low, hfree⟩ (decide_eq_false (by omega))
  · have := h.low
    rw [decide_eq_true_eq]
    omega

/-- The file of inode `i` is `l`: its blocks are those of `l`, and they hold its bytes. -/
structure Filed (own : Inum × Place → Option ℕ) (data : ℕ → Block) (i : Inum) (l : List UInt8) :
    Prop where
  len : l.length ≤ MAXFILE * BSIZE
  place : ∀ bn x, blockPlace bn = some x → (own (i, x) ≠ none ↔ bn * BSIZE < l.length)
  ind : own (i, .addr indirect) ≠ none ↔ NDIRECT * BSIZE < l.length
  bytes : ∀ o (ho : o < l.length) x b, blockPlace (o / BSIZE) = some x → own (i, x) = some b →
    data b ⟨o % BSIZE, Nat.mod_lt _ (by decide)⟩ = l[o]

/-- A change elsewhere. -/
theorem Filed.congr {own own' : Inum × Place → Option ℕ} {l : List UInt8} (h : Filed own data i l)
    (hown : ∀ x, own' (i, x) = own (i, x))
    (hdata : ∀ x b, x ≠ .addr indirect → own (i, x) = some b → data' b = data b) :
    Filed own' data' i l := by
  refine ⟨h.len, fun bn x hx => ?_, ?_, fun o ho x b hx hb => ?_⟩
  · rw [hown]
    exact h.place bn x hx
  · rw [hown]
    exact h.ind
  · rw [hown] at hb
    rw [hdata x b (blockPlace_ne_indirect hx) hb]
    exact h.bytes o ho x b hx hb

/-- The inodes, with the copy `din` of inode `i` that `iappend` works on. -/
def Image.table (s : Image) (i : Inum) (din : Dinode) : Inum → Dinode :=
  Function.update s.disk.inode i din

def Image.own (s : Image) (i : Inum) (din : Dinode) : Inum × Place → Option ℕ :=
  refs (s.table i din) s.disk.data

/-- The image while `iappend` works on inode `i`. -/
structure Work (i : Inum) (s : Image) (din : Dinode) (content : Inum → List UInt8) : Prop where
  laid : Laid (s.table i din) s.freeblock s.disk.data
  alloc : din.type ≠ .free
  files : ∀ j, (s.table i din j).type ≠ .free → Filed (s.own i din) s.disk.data j (content j)

variable {s t u : Image} {din din' : Dinode} {content : Inum → List UInt8} {b : ℕ} {x : Place}

theorem own_self (h : din.type ≠ .free) (y : Place) :
    s.own i din (i, y) = din.ref s.disk.data y := by
  have hself : s.table i din i = din := Function.update_self ..
  rw [Image.own, refs_of_ne_free (by rwa [hself]), hself]

/-- A block goes to an empty slot of the inode. -/
theorem own_setAddr (hlaid : Laid (s.table i din) s.freeblock s.disk.data) (halloc : din.type ≠ .free)
    {k : AddrIdx} (h0 : din.addrs k = 0) :
    s.own i (din.setAddr k s.freeblock) =
      Function.update (s.own i din) (i, .addr k) (some s.freeblock) := by
  have hself : s.table i din i = din := Function.update_self ..
  have htable : s.table i (din.setAddr k s.freeblock) =
      Function.update (s.table i din) i (din.setAddr k s.freeblock) :=
    (Function.update_idem ..).symm
  rw [Image.own, htable]
  have htype : (s.table i din i).type ≠ .free := by rwa [hself]
  refine refs_update htype (din.setAddr k s.freeblock) halloc ?_
  rw [hself]
  exact Dinode.ref_setAddr din k hlaid.ne_zero h0 (hlaid.zero _ (le_refl _))

/-- Block `b` is at place `x` of inode `i`; the rest of the image is as before, but for the
indirect block. -/
structure Found (i : Inum) (s : Image) (din : Dinode) (x : Place) (need : ℕ) (din' : Dinode) (b : ℕ)
    (t : Image) : Prop where
  rest : t = { s with freeblock := s.freeblock + need, disk := { s.disk with data := t.disk.data } }
  type : din'.type = din.type
  laid : Laid (t.table i din') t.freeblock t.disk.data
  here : t.own i din' (i, x) = some b
  old : ∀ c, s.own i din (i, x) = some c → b = c
  others : ∀ y, y ≠ (i, x) → y ≠ (i, .addr indirect) → t.own i din' y = s.own i din y
  ind : t.own i din' (i, .addr indirect) ≠ none ↔
    s.own i din (i, .addr indirect) ≠ none ∨ ∃ j, x = .entry j
  data : ∀ c, t.own i din' (i, .addr indirect) ≠ some c → t.disk.data c = s.disk.data c

/-- The block was there. -/
theorem Found.refl (hlaid : Laid (s.table i din) s.freeblock s.disk.data)
    (hx : s.own i din (i, x) = some b)
    (hind : (∃ j, x = .entry j) → s.own i din (i, .addr indirect) ≠ none) :
    Found i s din x 0 din b s where
  rest := rfl
  type := rfl
  laid := hlaid
  here := hx
  old _ hc := Option.some.inj (hx.symm.trans hc)
  others _ _ _ := rfl
  ind := ⟨.inl, fun h => h.elim id hind⟩
  data _ _ := rfl

/-- A new direct block. -/
theorem findBlock_direct (hlaid : Laid (s.table i din) s.freeblock s.disk.data)
    (halloc : din.type ≠ .free) {k : Fin NDIRECT} (h0 : din.addrs (direct k) = 0)
    (hfree : s.freeblock < FSSIZE) :
    Found i s din (.addr (direct k)) 1 (din.setAddr (direct k) s.freeblock) s.freeblock
      { s with freeblock := s.freeblock + 1 } := by
  have hown := own_setAddr hlaid halloc h0
  have hnone : s.own i din (i, .addr (direct k)) = none := by
    rw [own_self halloc, Dinode.ref, h0]
    rfl
  have hne : (.addr indirect : Place) ≠ .addr (direct k) := by
    intro h
    have : NDIRECT = k.val := congrArg Fin.val (Place.addr.inj h)
    omega
  constructor
  case rest => exact rfl
  case type => exact rfl
  case laid =>
    exact hlaid.take hfree hnone hown fun b hb => hlaid.zero b (by omega)
  case here =>
    show s.own i (din.setAddr (direct k) s.freeblock) _ = _
    rw [hown, Function.update_self]
  case old =>
    intro _ hc
    rw [hnone] at hc
    cases hc
  case others =>
    intro y hy _
    show s.own i (din.setAddr (direct k) s.freeblock) _ = _
    rw [hown, Function.update_of_ne hy]
  case ind =>
    show s.own i (din.setAddr (direct k) s.freeblock) _ ≠ none ↔ _
    rw [hown, Function.update_of_ne (by simpa using hne)]
    simp
  case data => exact fun _ _ => rfl

/-- A new entry of the indirect block `c`. -/
theorem findBlock_entry (hlaid : Laid (s.table i din) s.freeblock s.disk.data)
    (halloc : din.type ≠ .free) (hind : din.addrs indirect ≠ 0) {e : Fin NINDIRECT}
    (h0 : getUint (s.disk.data (din.addrs indirect)) e = 0) (hfree : s.freeblock < FSSIZE) :
    Found i s din (.entry e) 1 din s.freeblock
      (({ s with freeblock := s.freeblock + 1 } : Image).write (din.addrs indirect)
        (putUint (s.disk.data (din.addrs indirect)) e s.freeblock)) := by
  let t : Image := ({ s with freeblock := s.freeblock + 1 } : Image).write (din.addrs indirect)
    (putUint (s.disk.data (din.addrs indirect)) e s.freeblock)
  have hself : s.table i din i = din := Function.update_self ..
  have htype : (s.table i din i).type ≠ .free := by rwa [hself]
  have hnone : s.own i din (i, .entry e) = none := by
    rw [own_self halloc, Dinode.ref, if_neg hind, h0]
    rfl
  have hown : t.own i din = Function.update (s.own i din) (i, .entry e) (some s.freeblock) := by
    have hput := hlaid.owned.refs_putEntry htype (by rwa [hself]) ⟨hlaid.low, hfree⟩
      (decide_eq_false (Nat.lt_irrefl _)) e
    rwa [hself, ← hlaid.zero _ (le_refl _), Function.update_eq_self] at hput
  have hsome : s.own i din (i, .addr indirect) = some (din.addrs indirect) := by
    rw [own_self halloc, Dinode.ref, stored_of_ne hind]
  have hindirect : t.own i din (i, .addr indirect) = some (din.addrs indirect) := by
    rw [hown, Function.update_of_ne (by simp), hsome]
  constructor
  case rest => exact rfl
  case type => exact rfl
  case laid =>
    refine hlaid.take hfree hnone hown fun b hb => ?_
    have hlt := (hlaid.lt hsome).2
    show Function.update _ _ _ b = _
    rw [Function.update_of_ne (by omega)]
    exact hlaid.zero b (by omega)
  case here =>
    rw [hown, Function.update_self]
  case old =>
    intro _ hc
    rw [hnone] at hc
    cases hc
  case others =>
    intro y hy _
    rw [hown, Function.update_of_ne hy]
  case ind =>
    rw [hindirect, hsome]
    simp
  case data =>
    intro c hc
    refine Function.update_of_ne ?_ ..
    rintro rfl
    exact hc hindirect

/-- The indirect block is new. -/
theorem Found.withIndirect (hlaid : Laid (s.table i din) s.freeblock s.disk.data)
    (halloc : din.type ≠ .free) (h0 : din.addrs indirect = 0) {e : Fin NINDIRECT} {need : ℕ}
    (hf : Found i { s with freeblock := s.freeblock + 1 } (din.setAddr indirect s.freeblock)
      (.entry e) need din' b t) : Found i s din (.entry e) (need + 1) din' b t := by
  have hown : Image.own { s with freeblock := s.freeblock + 1 } i
      (din.setAddr indirect s.freeblock) =
        Function.update (s.own i din) (i, .addr indirect) (some s.freeblock) :=
    own_setAddr hlaid halloc h0
  constructor
  case rest =>
    rw [hf.rest]
    simp only [Image.mk.injEq, true_and]
    omega
  case type => exact hf.type
  case laid => exact hf.laid
  case here => exact hf.here
  case old =>
    intro c hc
    apply hf.old
    rw [hown, Function.update_of_ne (by simp)]
    exact hc
  case others =>
    intro y hy hy'
    rw [hf.others y hy hy', hown, Function.update_of_ne hy']
  case ind =>
    rw [hf.ind, hown, Function.update_self]
    simp
  case data =>
    intro c hc
    exact hf.data c hc

theorem rsect_run (hb : DataBlock b) : rsect b s = .ok (s.disk.data b) s := by
  simp only [rsect, if_neg (Nat.not_lt.2 hb.1), if_pos hb.2]
  rfl

theorem rsect_exit (hb : FSSIZE ≤ b) : rsect b s = .error .exit s := by
  have hlow : nmeta ≤ b := le_trans (by decide) hb
  simp only [rsect, if_neg (Nat.not_lt.2 hlow), if_neg (Nat.not_lt.2 hb)]
  rfl

/-- How many blocks are missing for place `x`. -/
def need (s : Image) (i : Inum) (din : Dinode) (x : Place) : ℕ :=
  (if s.own i din (i, x) = none then 1 else 0) +
    match x with
    | .entry _ => if s.own i din (i, .addr indirect) = none then 1 else 0
    | .addr _ => 0

/-- The image has no room for the blocks that are missing. -/
def Short (s : Image) (n : ℕ) (e : Stop) : Prop := e = .exit ∧ FSSIZE < s.freeblock + n

/-- The block has been found, or it is behind the end of the image. -/
def Finds (i : Inum) (s : Image) (din : Dinode) (x : Place) (r : Dinode × ℕ) (t : Image) : Prop :=
  r.2 < FSSIZE ∧ Found i s din x (need s i din x) r.1 r.2 t ∨
    FSSIZE ≤ r.2 ∧ FSSIZE < s.freeblock + need s i din x

theorem findEntry_ends (hlaid : Laid (s.table i din) s.freeblock s.disk.data)
    (halloc : din.type ≠ .free) (hind : din.addrs indirect ≠ 0) (e : Fin NINDIRECT) :
    Ends (Finds i s din (.entry e)) (Short s (need s i din (.entry e))) (findEntry din e s) := by
  have hsome : s.own i din (i, .addr indirect) = some (din.addrs indirect) := by
    rw [own_self halloc, Dinode.ref, stored_of_ne hind]
  have hentry := own_self (s := s) (i := i) halloc (.entry e)
  rw [Dinode.ref, if_neg hind] at hentry
  unfold findEntry
  rw [run_bind_ok (rsect_run (hlaid.lt hsome).1)]
  by_cases h0 : getUint (s.disk.data (din.addrs indirect)) e = 0
  · have hneed : need s i din (.entry e) = 1 := by
      rw [need, hentry, h0, hsome]
      rfl
    rw [if_pos h0]
    refine ends_ok.2 ?_
    rw [Finds, hneed]
    rcases Nat.lt_or_ge s.freeblock FSSIZE with hfree | hfree
    · exact .inl ⟨hfree, findBlock_entry hlaid halloc hind h0 hfree⟩
    · exact .inr ⟨hfree, Nat.lt_succ_of_le hfree⟩
  · have hhere : s.own i din (i, .entry e) =
        some (getUint (s.disk.data (din.addrs indirect)) e) := by
      rw [hentry, stored_of_ne h0]
    have hneed : need s i din (.entry e) = 0 := by
      rw [need, hhere, hsome]
      rfl
    rw [if_neg h0]
    refine ends_ok.2 (.inl ⟨(hlaid.lt hhere).1.2, ?_⟩)
    rw [hneed]
    exact .refl hlaid hhere fun _ => by rw [hsome]; rintro ⟨⟩

theorem findBlock_ends (hlaid : Laid (s.table i din) s.freeblock s.disk.data)
    (halloc : din.type ≠ .free) {fbn : ℕ} (hx : blockPlace fbn = some x) :
    Ends (Finds i s din x) (Short s (need s i din x)) (findBlock din fbn s) := by
  unfold findBlock
  by_cases hd : fbn < NDIRECT
  · rw [dif_pos hd]
    rw [blockPlace, dif_pos hd] at hx
    cases hx
    have hown := own_self (s := s) (i := i) halloc (.addr (direct ⟨fbn, hd⟩))
    rw [Dinode.ref] at hown
    by_cases h0 : din.addrs (direct ⟨fbn, hd⟩) = 0
    · have hneed : need s i din (.addr (direct ⟨fbn, hd⟩)) = 1 := by
        rw [need, hown, h0]
        rfl
      rw [if_pos h0]
      refine ends_ok.2 ?_
      rw [Finds, hneed]
      rcases Nat.lt_or_ge s.freeblock FSSIZE with hfree | hfree
      · exact .inl ⟨hfree, findBlock_direct hlaid halloc h0 hfree⟩
      · exact .inr ⟨hfree, Nat.lt_succ_of_le hfree⟩
    · have hsome : s.own i din (i, .addr (direct ⟨fbn, hd⟩)) =
          some (din.addrs (direct ⟨fbn, hd⟩)) := by
        rw [hown, stored_of_ne h0]
      have hneed : need s i din (.addr (direct ⟨fbn, hd⟩)) = 0 := by
        rw [need, hsome]
        rfl
      rw [if_neg h0]
      refine ends_ok.2 (.inl ⟨(hlaid.lt hsome).1.2, ?_⟩)
      rw [hneed]
      exact .refl hlaid hsome (by rintro ⟨_, ⟨⟩⟩)
  · by_cases hj : fbn - NDIRECT < NINDIRECT
    · rw [dif_neg hd, dif_pos hj]
      rw [blockPlace, dif_neg hd, dif_pos hj] at hx
      cases hx
      by_cases h0 : din.addrs indirect = 0
      · rw [if_pos h0]
        have hnone : s.own i din (i, .addr indirect) = none := by
          rw [own_self halloc, Dinode.ref, h0]
          rfl
        have hentry : s.own i din (i, .entry ⟨fbn - NDIRECT, hj⟩) = none := by
          rw [own_self halloc, Dinode.ref, if_pos h0]
        have hneed : need s i din (.entry ⟨fbn - NDIRECT, hj⟩) = 2 := by
          rw [need, hentry, hnone]
          rfl
        rw [hneed]
        let u : Image := { s with freeblock := s.freeblock + 1 }
        show Ends _ _ (findEntry (din.setAddr indirect s.freeblock) ⟨fbn - NDIRECT, hj⟩ u)
        have hset : (din.setAddr indirect s.freeblock).addrs indirect = s.freeblock := by
          show Function.update din.addrs indirect s.freeblock indirect = s.freeblock
          rw [Function.update_self]
        rcases Nat.lt_or_ge s.freeblock FSSIZE with hfree | hfree
        · have hown := own_setAddr hlaid halloc h0
          have hlaid' : Laid (u.table i (din.setAddr indirect s.freeblock)) u.freeblock u.disk.data :=
            hlaid.take hfree hnone hown fun b hb => hlaid.zero b (by omega)
          have hneed' : need u i (din.setAddr indirect s.freeblock)
              (.entry ⟨fbn - NDIRECT, hj⟩) = 1 := by
            have hown : u.own i (din.setAddr indirect s.freeblock) = _ := hown
            rw [need, hown, Function.update_of_ne (by simp), hentry, Function.update_self]
            rfl
          have hends := findEntry_ends hlaid' halloc (by rw [hset]; exact hlaid.ne_zero)
            ⟨fbn - NDIRECT, hj⟩
          refine hends.mono (fun r t hr => ?_) fun e he => ?_
          · rw [Finds, hneed'] at hr
            rcases hr with ⟨hlt, hfound⟩ | ⟨hge, hshort⟩
            · refine .inl ⟨hlt, ?_⟩
              rw [hneed]
              exact hfound.withIndirect hlaid halloc h0
            · refine .inr ⟨hge, ?_⟩
              rw [hneed]
              have : FSSIZE < s.freeblock + 1 + 1 := hshort
              omega
          · rw [hneed'] at he
            have : FSSIZE < s.freeblock + 1 + 1 := he.2
            exact ⟨he.1, by omega⟩
        · unfold findEntry
          rw [hset, run_bind_error (rsect_exit hfree)]
          exact ends_error.2 ⟨rfl, by omega⟩
      · rw [if_neg h0]
        exact findEntry_ends hlaid halloc h0 _
    · rw [blockPlace, dif_neg hd, dif_neg hj] at hx
      cases hx

end Xv6Container.Mkfs
