import Xv6Container.Lib.Reach
import Xv6Container.Log.Commit

/-! Transactions and crashes. An action reads a block, changes one inside the transaction,
commits, or is a crash: the power fails after a number of block writes of `commit`, and
then any number of times during recovery, before recovery runs to its end. -/

namespace Xv6Container.Log

open Lib

/-! ### The machine -/

/-- `binit` on zeroed memory. -/
def binit (disk : Disk) (power : Option ℕ) : Kernel where
  disk := disk
  buf _ := ⟨0, 0, false, false, false, 0, fun _ => 0⟩
  order := (List.finRange NBUF).reverse
  lh := []
  power := power

/-- The disk when the program returns or stops. -/
def diskAfter (x : Run Unit) (k : Kernel) : Disk :=
  match x k with
  | .ok _ t => t.disk
  | .error _ t => t.disk

/-- Starts of the kernel whose recovery stops after a number of block writes. -/
def restarts (disk : Disk) : List ℕ → Disk
  | [] => disk
  | n :: ns => restarts (diskAfter recoverFromLog (binit disk (some n))) ns

def exec (x : Run Unit) (k : Kernel) : Except Stop Kernel :=
  match x k with
  | .ok _ t => .ok t
  | .error e _ => .error e

/-- `initlog` up to the end of recovery. -/
def initlog (disk : Disk) : Except Stop Kernel := exec recoverFromLog (binit disk none)

/-- The power fails after `n` writes of `commit`, and again in the recoveries of `ns`. -/
def crash (k : Kernel) (n : ℕ) (ns : List ℕ) : Except Stop Kernel :=
  initlog (restarts (diskAfter commit { k with power := some n }) ns)

def readBlock (b : BlockNo) : Run Unit := do
  let i ← bread ROOTDEV b
  brelse i

/-- The typical use of `log_write`. Its tests of the room in the log are made without the
lock, maybe before other blocks are added; they are left out here. -/
def updateBlock (b : BlockNo) (x : Block) : Run Unit := do
  let i ← bread ROOTDEV b
  setData i x
  logWrite b i
  brelse i

inductive Act where
  | read (b : BlockNo)
  | update (b : BlockNo) (x : Block)
  | commit
  | crash (n : ℕ) (ns : List ℕ)

def step (k : Kernel) : Act → Except Stop Kernel
  | .read b => exec (readBlock b) k
  | .update b x => if Home b then exec (updateBlock b x) k else .error .disabled
  | .commit => exec commit k
  | .crash n ns => crash k n ns

/-- The kernel has started on a disk with an empty log, such as `mkfs` makes. -/
def Booted (k : Kernel) : Prop := ∃ disk, getHead (disk logstart) = some [] ∧ initlog disk = .ok k

/-- What a reader of block `b` gets. -/
def Kernel.contents (k : Kernel) (b : BlockNo) : Block :=
  match k.cached ROOTDEV b with
  | some i => (k.buf i).data
  | none => k.disk b

/-! ### Between the calls -/

variable {c : Cache} {l : List BlockNo} {q : Bool} {b : BlockNo} {x : Block} {k t : Kernel}
  {v : Disk} {a : Act}

theorem exec_ok {y : Run Unit} {P : Kernel → Prop} {Q : Unit → Kernel → Prop} {E : Kernel → Prop}
    (h : Triple P y Q E) (hk : P k) (ht : exec y k = .ok t) : Q () t := by
  have hQ := h k hk
  unfold exec at ht
  cases hy : y k with
  | ok _ t' =>
    rw [hy] at hQ ht
    cases ht
    exact hQ
  | error e t' =>
    rw [hy] at ht
    cases ht

theorem binit_holds (disk : Disk) (power : Option ℕ) :
    At ⟨disk, disk, ∅, fun _ => none⟩ [] power.isSome (binit disk power) where
  holds := by
    have hzero : (0 : UInt32) ≠ ROOTDEV := by decide
    constructor
    case disk => rfl
    case order => exact fun i => List.mem_reverse.2 (List.mem_finRange i)
    case each => exact fun i => .inl ⟨hzero, rfl, rfl, rfl⟩
    case uniq => exact fun i j hi => absurd hi hzero
    case pinned => exact fun b hb => absurd hb (Finset.notMem_empty b)
    case caught => exact fun b i hb => absurd hb nofun
    case clean => exact fun b _ _ => rfl
  lh := rfl
  power := rfl

theorem Holds.contents (h : Holds k c) (hc : c.Quiet) (b : BlockNo) : k.contents b = c.data b := by
  unfold Kernel.contents
  split
  next i hi =>
    obtain ⟨hdev, hno⟩ := Holds.cached_some hi
    rw [(h.filled hdev).data, hno]
  next hn =>
    have hd : b ∉ c.dirty := by
      intro hb
      obtain ⟨i, hi⟩ := h.pinned b hb
      exact h.cached_none hn i hi.1 hi.2
    rw [h.clean b hd (hc b), h.disk]

/-- A transaction is under way: the blocks of the header wait in the cache. -/
def Ready (k : Kernel) (c : Cache) : Prop := Open c k.lh c.disk c.data ∧ At c k.lh false k

theorem Settled.ready (h : Settled c v) (hk : At c [] false k) : Ready k c := by
  have hlh := hk.lh
  unfold Ready
  rw [hlh]
  refine ⟨⟨h.quiet, h.dirty, List.nodup_nil, fun b hb => ?_, ⟨h.idle.head, fun _ _ => rfl⟩,
    fun b hb => rfl, fun b _ _ => ?_⟩, hk⟩
  · exact absurd hb List.not_mem_nil
  · exact (hk.holds.clean b (by simp [h.dirty]) (h.quiet b)).symm

/-- The disk of a restarted kernel recovers to the same contents. -/
theorem restarts_recovers (ns : List ℕ) (disk : Disk) (h : area.Recovers v disk) :
    area.Recovers v (restarts disk ns) := by
  induction ns generalizing disk with
  | nil => exact h
  | cons n ns ih =>
    apply ih
    have := recoverFromLog_spec (q := true) (c := ⟨disk, disk, ∅, fun _ => none⟩) (fun _ => rfl) rfl
      h _ (binit_holds disk (some n))
    unfold diskAfter
    revert this
    cases recoverFromLog (binit disk (some n)) with
    | ok _ t =>
      rintro ⟨c, hc, ht⟩
      exact (ht.holds.disk ▸ hc.idle).recovers
    | error _ t => exact fun ht => ht.1

/-- Recovery completes, with the contents that the disk recovers to. -/
theorem initlog_ok {disk : Disk} (h : area.Recovers v disk) :
    ∃ t c, initlog disk = .ok t ∧ Settled c v ∧ At c [] false t := by
  have := recoverFromLog_spec (q := false) (c := ⟨disk, disk, ∅, fun _ => none⟩) (fun _ => rfl) rfl
    h _ (binit_holds disk none)
  unfold initlog exec
  revert this
  cases recoverFromLog (binit disk none) with
  | ok _ t =>
    rintro ⟨c, hc, ht⟩
    exact ⟨t, c, rfl, hc, ht⟩
  | error _ t => exact fun ht => absurd ht.2 (by decide)

/-- After a crash in `commit` the contents are those before the transaction or after it. -/
theorem Ready.crash (h : Ready k c) (n : ℕ) (ns : List ℕ) :
    ∃ t c', crash k n ns = .ok t ∧ (Settled c' c.disk ∨ Settled c' c.data) ∧ At c' [] false t := by
  have hpow : At c k.lh true { k with power := some n } :=
    ⟨⟨h.2.holds.disk, h.2.holds.order, h.2.holds.each, h.2.holds.uniq, h.2.holds.pinned,
      h.2.holds.caught, h.2.holds.clean⟩, rfl, rfl⟩
  have hcut : area.Recovers c.disk (diskAfter commit { k with power := some n }) ∨
      area.Recovers c.data (diskAfter commit { k with power := some n }) := by
    have := commit_spec _ ⟨c, h.1, hpow⟩
    unfold diskAfter
    revert this
    cases commit { k with power := some n } with
    | ok _ t =>
      rintro ⟨c', hc', ht⟩
      exact .inr (ht.holds.disk ▸ hc'.idle).recovers
    | error _ t => exact fun ht => ht.1
  rcases hcut with hr | hr
  · obtain ⟨t, c', ht, hc', hat⟩ := initlog_ok (restarts_recovers ns _ hr)
    exact ⟨t, c', ht, .inl hc', hat⟩
  · obtain ⟨t, c', ht, hc', hat⟩ := initlog_ok (restarts_recovers ns _ hr)
    exact ⟨t, c', ht, .inr hc', hat⟩

theorem Ready.read (h : Ready k c) (ht : exec (readBlock b) k = .ok t) : Ready t c := by
  have hread : Triple (At c k.lh false) (readBlock b) (fun _ => At c k.lh false)
      (fun _ => True) := by
    refine .seq (bread_spec c k.lh false b) (fun _ _ => trivial) fun i => .assume fun hb => ?_
    refine .last (brelse_spec k.lh false hold_self fun hd => ?_) (fun _ => False.elim)
      fun _ t ht => ?_
    · exact h.2.holds.clean b hd hb
    · rwa [h.1.quiet.hold_release] at ht
  have hat := exec_ok hread h.2 ht
  unfold Ready
  rw [hat.lh]
  exact ⟨h.1, hat⟩

theorem Cache.Quiet.pin_release {i : BufId} (h : c.Quiet) :
    (((c.hold b i).setData b x).pin b).release b = (c.setData b x).pin b := by
  simp only [Cache.hold, Cache.setData, Cache.pin, Cache.release, h.update_held]

theorem logWrite_spec {i : BufId} (hi : c.held b = some i) :
    Triple (At c l q) (logWrite b i)
      (fun _ k => ∃ lh, logWriteAdd l b = .ok lh ∧ At (c.pin b) lh q k) (fun _ => True) := by
  refine .get_bind fun k hk => ?_
  rw [hk.lh]
  split
  next => exact fun _ _ => trivial
  next lh hlh =>
    refine .seq (setLh_spec lh) (fun _ => False.elim) fun _ => ?_
    exact .last (pin_spec lh q hi) (fun _ => False.elim) fun _ k hk => ⟨lh, hlh, hk⟩

theorem updateBlock_spec (h : c.Quiet) :
    Triple (At c l q) (updateBlock b x)
      (fun _ k => ∃ lh, logWriteAdd l b = .ok lh ∧ At ((c.setData b x).pin b) lh q k)
      (fun _ => True) := by
  unfold updateBlock
  refine .seq (bread_spec c l q b) (fun _ _ => trivial) fun i => .assume fun _ => ?_
  have hi : (c.hold b i).held b = some i := hold_self
  refine .seq (setData_spec l q hi) (fun _ => False.elim) fun _ => ?_
  refine .seq (logWrite_spec (b := b) hi) (fun _ => id) fun _ => ?_
  refine .exists_pre fun lh => .assume fun hlh => ?_
  refine .last (brelse_spec (b := b) lh q hi fun hd => ?_) (fun _ => False.elim) fun _ k hk => ?_
  · exact absurd (Finset.mem_insert_self _ _) hd
  · rw [h.pin_release] at hk
    exact ⟨lh, hlh, hk⟩

/-- A change to a block of the transaction. -/
theorem Open.update (h : Open c l c.disk c.data) (hb : Home b) {lh : List BlockNo}
    (hlh : logWriteAdd l b = .ok lh) :
    Open ((c.setData b x).pin b) lh ((c.setData b x).pin b).disk ((c.setData b x).pin b).data := by
  have hmem : ∀ b', b' ∈ lh ↔ b' = b ∨ b' ∈ l := by
    intro b'
    rcases logWriteAdd_ok hlh with ⟨hbl, rfl⟩ | ⟨-, -, rfl⟩
    · exact ⟨.inr, fun hb' => hb'.elim (fun he => he ▸ hbl) id⟩
    · rw [List.mem_append, List.mem_singleton, or_comm]
  constructor
  case quiet => exact h.quiet
  case dirty =>
    change insert b c.dirty = lh.toFinset
    ext b'
    rw [h.dirty, Finset.mem_insert, List.mem_toFinset, List.mem_toFinset, hmem]
  case nodup =>
    rcases logWriteAdd_ok hlh with ⟨-, rfl⟩ | ⟨hbl, -, rfl⟩
    · exact h.nodup
    · exact List.nodup_append.2 ⟨h.nodup, List.nodup_singleton b, fun b₁ h₁ b₂ h₂ he =>
        hbl (List.mem_singleton.1 h₂ ▸ he ▸ h₁)⟩
  case mem_home =>
    intro b' hb'
    rcases (hmem b').1 hb' with rfl | hb'
    · exact hb
    · exact h.mem_home b' hb'
  case idle => exact ⟨h.idle.head, fun _ _ => rfl⟩
  case data => exact fun _ _ => rfl
  case rest =>
    intro b' hb' hn
    change c.disk b' = Function.update c.data b x b'
    rw [Function.update_of_ne fun he => hn ((hmem b').2 (.inl he))]
    exact h.rest b' hb' fun hl => hn ((hmem b').2 (.inr hl))

theorem Ready.update (h : Ready k c) (hb : Home b) (ht : exec (updateBlock b x) k = .ok t) :
    Ready t ((c.setData b x).pin b) := by
  obtain ⟨lh, hlh, hat⟩ := exec_ok (updateBlock_spec h.1.quiet) h.2 ht
  unfold Ready
  rw [hat.lh]
  exact ⟨h.1.update hb hlh, hat⟩

/-- A commit that returns has put the contents of the cache on the disk. -/
theorem Ready.commit (h : Ready k c) (ht : exec commit k = .ok t) :
    ∃ c', Settled c' c.data ∧ At c' [] false t :=
  exec_ok commit_spec ⟨c, h⟩ ht

theorem Ready.step (h : Ready k c) (ht : step k a = .ok t) : ∃ c', Ready t c' := by
  cases a with
  | read b => exact ⟨c, h.read ht⟩
  | update b x =>
    simp only [Log.step] at ht
    split_ifs at ht with hb
    exact ⟨_, h.update hb ht⟩
  | commit =>
    obtain ⟨c', hc', hat⟩ := h.commit ht
    exact ⟨c', hc'.ready hat⟩
  | crash n ns =>
    obtain ⟨t', c', ht', hc' | hc', hat⟩ := h.crash n ns
    · cases ht'.symm.trans ht
      exact ⟨c', hc'.ready hat⟩
    · cases ht'.symm.trans ht
      exact ⟨c', hc'.ready hat⟩

/-! ### Runs -/

theorem Booted.ready (h : Booted k) : ∃ c, Ready k c := by
  obtain ⟨disk, hhead, hk⟩ := h
  have hidle : area.Idle disk disk := ⟨hhead, fun _ _ => rfl⟩
  obtain ⟨t, c, ht, hc, hat⟩ := initlog_ok hidle.recovers
  cases ht.symm.trans hk
  exact ⟨c, hc.ready hat⟩

theorem Ready.of_reach (hk : Reach Log.step always Booted k) : ∃ c, Ready k c :=
  hk.invariant (fun _ => Booted.ready) fun _ _ _ ⟨_, h⟩ _ ht => h.step ht

/-- The home blocks with the committed versions of the blocks of the transaction. -/
def Kernel.committed (k : Kernel) : Disk := fun b => if b ∈ k.lh then k.contents b else k.disk b

theorem Ready.committed (h : Ready k c) (hb : Home b) : c.data b = k.committed b := by
  unfold Kernel.committed
  split_ifs with hl
  · exact (h.2.holds.contents h.1.quiet b).symm
  · rw [h.2.holds.disk]
    exact (h.1.rest b hb hl).symm

/-- In every run, wherever the power fails during `commit` and however often it fails again
during recovery, recovery completes, and the home blocks are all as they were before the
transaction, or all as it has left them. -/
theorem crash_atomic (hk : Reach step always Booted k) (n : ℕ) (ns : List ℕ) :
    ∃ t, crash k n ns = .ok t ∧
      ((∀ b, Home b → t.disk b = k.disk b) ∨ ∀ b, Home b → t.disk b = k.committed b) := by
  obtain ⟨c, h⟩ := Ready.of_reach hk
  obtain ⟨t, c', ht, hc' | hc', hat⟩ := h.crash n ns
  · refine ⟨t, ht, .inl fun b hb => ?_⟩
    rw [hat.holds.disk, hc'.idle.home b hb, h.2.holds.disk]
  · refine ⟨t, ht, .inr fun b hb => ?_⟩
    rw [hat.holds.disk, hc'.idle.home b hb, h.committed hb]

/-- The kernel on a disk of zeros, such as `mkfs` starts from. -/
def firstBoot : Kernel :=
  match initlog fun _ _ => 0 with
  | .ok k => k
  | .error _ => binit (fun _ _ => 0) none

theorem booted_firstBoot : Booted firstBoot := by
  have hhead : getHead ((fun _ _ => 0 : Disk) logstart) = some [] := by decide
  have hidle : area.Idle (fun _ _ => 0) (fun _ _ => 0) := ⟨hhead, fun _ _ => rfl⟩
  obtain ⟨t, -, ht, -⟩ := initlog_ok hidle.recovers
  refine ⟨fun _ _ => 0, hhead, ?_⟩
  rw [firstBoot, ht]

/-- A crash after two block writes of a transaction with two blocks, and another one after
the first write of the recovery. -/
theorem crash_atomic_two_blocks : ∃ k t, k.lh = [100, 200] ∧ crash k 2 [1] = .ok t ∧
    ((∀ b, Home b → t.disk b = k.disk b) ∨ ∀ b, Home b → t.disk b = k.committed b) := by
  have hboot : Reach step always Booted firstBoot := .start booted_firstBoot
  obtain ⟨k, hk, hlh⟩ := hboot.of_endsIn (fun k => decide (k.lh = [100, 200]))
    [.update 100 fun _ => 7, .update 200 fun _ => 9] (by decide +kernel)
  obtain ⟨t, ht, h⟩ := crash_atomic hk 2 [1]
  exact ⟨k, t, of_decide_eq_true hlh, ht, h⟩

/-- A commit that returns has made the transaction durable. -/
theorem commit_durable (hk : Reach step always Booted k) (ht : step k .commit = .ok t) :
    t.lh = [] ∧ ∀ b, Home b → t.disk b = k.committed b := by
  obtain ⟨c, h⟩ := Ready.of_reach hk
  obtain ⟨c', hc', hat⟩ := h.commit ht
  refine ⟨hat.lh, fun b hb => ?_⟩
  rw [hat.holds.disk, hc'.idle.home b hb, h.committed hb]

/-- A change inside the transaction does not reach the disk, and a reader gets what was
last written. -/
theorem update_contents (hk : Reach step always Booted k) (ht : step k (.update b x) = .ok t) :
    t.disk = k.disk ∧ t.contents = Function.update k.contents b x := by
  obtain ⟨c, h⟩ := Ready.of_reach hk
  simp only [step] at ht
  split_ifs at ht with hb
  have h' := h.update hb ht
  refine ⟨h'.2.holds.disk.trans h.2.holds.disk.symm, ?_⟩
  funext b'
  rw [h'.2.holds.contents h'.1.quiet, Function.update_apply]
  simp only [Cache.pin, Cache.setData, Function.update_apply]
  split_ifs
  · rfl
  · exact (h.2.holds.contents h.1.quiet b').symm

end Xv6Container.Log
