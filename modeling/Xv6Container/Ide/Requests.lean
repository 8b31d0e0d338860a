import Mathlib.Data.Fintype.Card
import Xv6Container.Lib.Trace
import Xv6Container.Ide.Driver

/-! What the driver does to a request: the controller gets the address and the data of the first buffer
in the queue, and the interrupt handler leaves the buffer and the drives as one step of `iderw` would. -/

namespace Xv6Container.Ide

open Lib Monitor
open Log (Block BlockNo BufId Buf NBUF FSSIZE)

variable {c c' : Controller} {d : Driver} {x y : Buf} {a b z : BufId} {q l : List BufId} {f : Bool}

/-! ### The controller -/

/-- What is done with a request: a buffer that is dirty is written, and any other one read. A command
that fails changes neither the drive nor the data, and the buffer counts as done all the same. -/
def carryOut (fail : Bool) (x : Buf) (drives : Drives) : Buf × Drives :=
  ({ x with
      data := if x.dirty || fail then x.data else drives (drive x) x.blockno
      valid := true
      dirty := false },
    if x.dirty && !fail then drives.write (drive x) x.blockno x.data else drives)

/-- The controller has been given the request of a buffer. -/
structure Controller.Serves (c : Controller) (x : Buf) : Prop where
  command : c.command = some (if x.dirty then IDE_CMD_WRITE else IDE_CMD_READ)
  address : c.address = x.blockno
  drive : c.drive = Ide.drive x
  sector : x.dirty = true → c.sector = x.data

/-- Whether the next command to end fails. -/
def Controller.failing (c : Controller) : Bool := c.fails c.ncommand

theorem Controller.finish_idle (h : c.command = none) : c.finish = c := by
  rw [Controller.finish, h]

theorem Controller.command_finish (c : Controller) : c.finish.command = none := by
  unfold finish
  split
  next h => exact h
  next => rfl

theorem Controller.finish_finish (c : Controller) : c.finish.finish = c.finish :=
  finish_idle c.command_finish

namespace Controller.Serves

theorem finish (h : c.Serves x) : c.finish = { c with
    command := none
    error := c.failing
    ncommand := c.ncommand + 1
    sector := if x.dirty || c.failing then c.sector else c.drives (Ide.drive x) x.blockno
    drives := (carryOut c.failing x c.drives).2 } := by
  have hne : IDE_CMD_READ ≠ IDE_CMD_WRITE := by decide
  rw [Controller.finish, h.command]
  dsimp only
  rw [h.address, h.drive, ← Controller.failing]
  cases hx : x.dirty with
  | false => cases c.failing <;> simp [carryOut, hx, hne]
  | true =>
    rw [h.sector hx]
    cases c.failing <;> simp [carryOut, hx, hne.symm]

end Controller.Serves

/-! ### `idestart` -/

theorem uint8_of_uint32 (v : UInt32) : (v &&& 0xff).toUInt8.toNat = v.toNat % 256 := by
  rw [UInt32.toNat_toUInt8, UInt32.toNat_and]
  exact (congrArg (· % 2 ^ 8) (Nat.and_two_pow_sub_one_eq_mod v.toNat 8)).trans (Nat.mod_mod _ _)

/-- The four address ports hold the number of a block and the bit of its device. -/
theorem address_ports (hc : c.lba0 = (x.blockno &&& 0xff).toUInt8)
    (h1 : c.lba1 = (x.blockno >>> 8 &&& 0xff).toUInt8)
    (h2 : c.lba2 = (x.blockno >>> 16 &&& 0xff).toUInt8)
    (hh : c.head = ((0xe0 : UInt32) ||| (x.dev &&& 1) <<< 4 ||| (x.blockno >>> 24 &&& 0x0f)).toUInt8)
    (hsmall : x.blockno.toNat < FSSIZE) : c.address = x.blockno ∧ c.drive = drive x := by
  have hn : x.blockno.toNat < 1000 := hsmall
  have hhigh : x.blockno >>> 24 &&& 0x0f = 0 := by
    apply UInt32.toNat_inj.1
    have h0 : x.blockno.toNat / 2 ^ 24 = 0 := Nat.div_eq_of_lt (by omega)
    rw [UInt32.toNat_and, UInt32.toNat_shiftRight, Nat.shiftRight_eq_div_pow]
    exact (congrArg (· &&& 15) h0).trans (Nat.zero_and 15)
  have hdev : x.dev &&& 1 = 0 ∨ x.dev &&& 1 = 1 := by
    have h : (x.dev &&& 1).toNat = x.dev.toNat % 2 := by
      rw [UInt32.toNat_and]
      exact Nat.and_two_pow_sub_one_eq_mod x.dev.toNat 1
    rcases Nat.mod_two_eq_zero_or_one x.dev.toNat with h0 | h0
    · exact .inl (UInt32.toNat_inj.1 (h.trans h0))
    · exact .inr (UInt32.toNat_inj.1 (h.trans h0))
  rw [hhigh] at hh
  have hhead : c.head.toNat % 16 = 0 ∧ c.drive = drive x := by
    rw [Controller.drive, drive]
    rcases hdev with h | h <;> rw [h] at hh ⊢ <;> rw [hh] <;> decide
  refine ⟨?_, hhead.2⟩
  apply UInt32.toNat_inj.1
  rw [Controller.address, hhead.1, hc, h1, h2, uint8_of_uint32, uint8_of_uint32, uint8_of_uint32,
    UInt32.toNat_shiftRight, UInt32.toNat_shiftRight]
  simp [Nat.shiftRight_eq_div_pow]
  omega

/-- `idestart` hands the first request over once the controller is done with the last one. -/
theorem idestart_eq (hsmall : (d.buf b).blockno.toNat < FSSIZE) :
    ∃ c, d.idestart (some b) = some { d with ctl := c } ∧ c.Serves (d.buf b) ∧
      c.drives = d.ctl.finish.drives := by
  have hsector : (d.buf b).blockno * .ofNat (BSIZE / SECTOR_SIZE) = (d.buf b).blockno := by simp
  have hpass : ¬ ((d.buf b).blockno.toNat ≥ FSSIZE ∨ BSIZE / SECTOR_SIZE > 7) := by
    rintro (h | h)
    · exact absurd hsmall (Nat.not_lt.2 h)
    · exact absurd h (by decide)
  rw [Driver.idestart]
  simp only [if_neg hpass, hsector]
  refine ⟨_, rfl, ?_, ?_⟩
  · cases hx : (d.buf b).dirty with
    | false =>
      refine ⟨?_, ?_, ?_, ?_⟩
      · simp [hx, Controller.outb, BSIZE, SECTOR_SIZE]
      · exact (address_ports rfl rfl rfl rfl hsmall).1
      · exact (address_ports rfl rfl rfl rfl hsmall).2
      · rw [hx]
        rintro ⟨⟩
    | true =>
      refine ⟨?_, ?_, ?_, ?_⟩
      · simp [hx, Controller.outb, Controller.outsl, BSIZE, SECTOR_SIZE]
      · exact (address_ports rfl rfl rfl rfl hsmall).1
      · exact (address_ports rfl rfl rfl rfl hsmall).2
      · exact fun _ => rfl
  · split_ifs <;> rfl

theorem idestart_none (hbig : FSSIZE ≤ (d.buf b).blockno.toNat) : d.idestart (some b) = none := by
  rw [Driver.idestart]
  exact if_pos (.inl hbig)

/-! ### The queue -/

/-- The buffers of the queue, in its order. -/
structure Driver.Queue (d : Driver) (q : List BufId) : Prop where
  path : Path d.qnext d.idequeue q none
  nodup : q.Nodup

theorem Driver.last_eq {fuel : ℕ} (h : Path d.qnext (some a) (l ++ [z]) none)
    (hfuel : l.length < fuel) : d.last fuel a = some z := by
  induction l generalizing a fuel with
  | nil =>
    obtain ⟨ha, hz⟩ := h
    cases fuel with
    | zero => exact absurd hfuel (Nat.not_lt_zero _)
    | succ fuel => rw [last, Option.some.inj ha, show d.qnext z = none from hz]
  | cons y l ih =>
    obtain ⟨ha, hl⟩ := h
    have ha := Option.some.inj ha
    subst ha
    cases fuel with
    | zero => exact absurd hfuel (Nat.not_lt_zero _)
    | succ fuel =>
      obtain ⟨n, hn⟩ : ∃ n, d.qnext a = some n := by
        cases l with
        | nil => exact ⟨z, hl.1⟩
        | cons n l => exact ⟨n, hl.1⟩
      rw [last, hn]
      rw [hn] at hl
      exact ih hl (Nat.lt_of_succ_lt_succ hfuel)

/-- The loop of `iderw` ends and appends the buffer. -/
theorem Driver.Queue.append (h : d.Queue q) (hb : b ∉ q) : ∃ qnext,
    d.append b = some { d with idequeue := (q ++ [b]).head?, qnext := qnext } ∧
      Path qnext (q ++ [b]).head? (q ++ [b]) none := by
  have hpath : Path (Function.update d.qnext b none) d.idequeue q none :=
    h.path.congr fun p hp => Function.update_of_ne (ne_of_mem_of_not_mem hp hb) ..
  have hhead := hpath.eq_head?
  rcases List.eq_nil_or_concat q with rfl | ⟨l, z, rfl⟩
  · refine ⟨Function.update d.qnext b none, ?_, rfl, Function.update_self ..⟩
    rw [Driver.append, hhead]
    rfl
  · rw [List.concat_eq_append] at *
    have hz : z ∉ l := fun hmem =>
      (List.nodup_append.1 h.nodup).2.2 z hmem z (List.mem_singleton_self z) rfl
    obtain ⟨a, ha⟩ : ∃ a, d.idequeue = some a := by
      cases l with
      | nil => exact ⟨z, hhead⟩
      | cons a l => exact ⟨a, hhead⟩
    have hlen : l.length < NBUF := by
      have := List.Nodup.length_le_card h.nodup
      rw [List.length_append, List.length_singleton, Fintype.card_fin] at this
      omega
    have hlast : ({ d with qnext := Function.update d.qnext b none } : Driver).last NBUF a = some z := by
      rw [ha] at hpath
      exact last_eq hpath hlen
    have hq : ((l ++ [z]) ++ [b]).head? = d.idequeue := by
      rw [hhead]
      cases l <;> rfl
    refine ⟨Function.update (Function.update d.qnext b none) z (some b), ?_, ?_⟩
    · rw [Driver.append, hq]
      simp only [ha] at hlast ⊢
      rw [hlast]
      rfl
    · rw [hq]
      refine Path.append.2 ⟨some b, hpath.redirect hz (some b), rfl, ?_⟩
      have hbz : b ≠ z := by
        rintro rfl
        exact hb (List.mem_append_right _ (List.mem_singleton_self b))
      rw [Function.update_of_ne hbz, Function.update_self]
      rfl

/-- The handler finishes the first request: the buffer and the drives are as after one step of `iderw`,
as far as the controller is done. -/
theorem Driver.Queue.complete (h : d.Queue (b :: q)) (hs : d.ctl.Serves (d.buf b)) : ∃ c,
    d.complete b = { d with
      idequeue := q.head?
      buf := Function.update d.buf b (carryOut d.ctl.failing (d.buf b) d.ctl.drives).1
      ctl := c } ∧ c.finish.drives = (carryOut d.ctl.failing (d.buf b) d.ctl.drives).2 := by
  have hnext : d.qnext b = q.head? := h.path.2.eq_head?
  cases hx : (d.buf b).dirty with
  | true =>
    refine ⟨d.ctl, ?_, ?_⟩
    · simp [Driver.complete, Driver.setBuf, hx, hnext, carryOut]
    · rw [hs.finish]
  | false =>
    refine ⟨d.ctl.finish, ?_, ?_⟩
    · rw [Driver.complete]
      simp only [hx, Bool.false_eq_true, if_false, Controller.idewait, Bool.true_and, hnext,
        Driver.setBuf]
      rw [hs.finish]
      cases hf : d.ctl.failing <;> simp [carryOut, hx]
    · rw [Controller.finish_finish, hs.finish]

/-! ### Sections -/

/-- The drives, as far as requests that have left the queue are concerned. -/
def Driver.drives (d : Driver) : Drives :=
  if d.idequeue = none then d.ctl.finish.drives else d.ctl.drives

theorem Driver.Queue.idequeue (h : d.Queue q) : d.idequeue = q.head? := h.path.eq_head?

/-- `iderw` puts the buffer at the end of the queue, hands it over if it is the only one, and sleeps. -/
theorem iderw_spec {e : Sec} (h : d.Queue q) (hb : b ∉ q) (he : iderw d b x = some e) :
    e.wake = none ∧ e.after = .sleep b (.wait b) ∧ isDone x = false ∧
      e.data.buf = Function.update d.buf b x ∧ e.data.Queue (q ++ [b]) ∧ e.data.drives = d.drives ∧
      (q = [] → e.data.ctl.Serves x) ∧ (q ≠ [] → e.data.ctl = d.ctl) ∧
      e.data.havedisk1 = d.havedisk1 := by
  have hset : (d.setBuf b x).Queue q := ⟨h.path, h.nodup⟩
  obtain ⟨qnext, happ, hpath⟩ := hset.append hb
  have hnodup : (q ++ [b]).Nodup := by
    rw [List.nodup_append]
    refine ⟨h.nodup, List.nodup_singleton b, fun a ha c hc => ?_⟩
    rw [List.mem_singleton.1 hc]
    exact ne_of_mem_of_not_mem ha hb
  have hself : Function.update d.buf b x b = x := Function.update_self ..
  unfold iderw at he
  dsimp only at he
  split_ifs at he with hbad
  rw [happ] at he
  have hpending : isDone x = false := by
    rw [← Bool.not_eq_true]
    exact fun hx => hbad (.inr (.inl hx))
  have hqueue := h.idequeue
  rcases List.eq_nil_or_concat q with rfl | ⟨l, z, rfl⟩
  · simp only [Option.bind_eq_bind, Option.bind_some, List.nil_append, List.head?_cons, if_true] at he
    by_cases hsmall : x.blockno.toNat < FSSIZE
    · obtain ⟨c, hc, hs, hdrives⟩ := idestart_eq (b := b)
        (d := { d.setBuf b x with idequeue := some b, qnext := qnext })
        (by rw [Driver.setBuf]; dsimp only; rwa [hself])
      rw [hc] at he
      dsimp only [Driver.setBuf] at he hs hdrives
      rw [hself] at hs
      rw [Option.bind_some, waitDone] at he
      simp only [hself, hpending, Bool.false_eq_true, if_false] at he
      cases he
      refine ⟨rfl, rfl, hpending, rfl, ⟨hpath, hnodup⟩, ?_, fun _ => hs, fun h => absurd rfl h, rfl⟩
      rw [Driver.drives, Driver.drives, hqueue]
      exact hdrives
    · have hnone := idestart_none (b := b)
        (d := { d.setBuf b x with idequeue := some b, qnext := qnext })
        (by rw [Driver.setBuf]; dsimp only; rw [hself]; exact Nat.not_lt.1 hsmall)
      rw [hnone] at he
      cases he
  · rw [List.concat_eq_append] at *
    have hhead : (l ++ [z] ++ [b]).head? = d.idequeue := by
      rw [hqueue]
      cases l <;> rfl
    have hne : d.idequeue ≠ some b := by
      rw [hqueue]
      intro heq
      apply hb
      cases l with
      | nil => exact List.mem_singleton.2 (Option.some.inj heq).symm
      | cons a l => exact List.mem_append_left _ (Option.some.inj heq ▸ List.mem_cons_self)
    have hsome : d.idequeue ≠ none := by
      rw [hqueue]
      cases l <;> exact Option.some_ne_none _
    simp only [Option.bind_eq_bind, Option.bind_some, hhead, if_neg hne] at he
    rw [waitDone] at he
    simp only [Driver.setBuf, hself, hpending, Bool.false_eq_true, if_false] at he
    cases he
    rw [hhead] at hpath
    refine ⟨rfl, rfl, hpending, rfl, ⟨hpath, hnodup⟩, ?_, fun h => ?_, fun _ => rfl, rfl⟩
    · rw [Driver.drives, Driver.drives, if_neg hsome]
    · exact absurd h (by simp)

/-- What `iderw` and `idestart` ask of a buffer. -/
def Ready (havedisk1 : Bool) (x : Buf) : Prop :=
  x.locked = true ∧ isDone x = false ∧ (x.dev = 0 ∨ havedisk1 = true) ∧ x.blockno.toNat < FSSIZE

theorem iderw_ne_none (h : d.Queue q) (hb : b ∉ q) (hx : Ready d.havedisk1 x) :
    iderw d b x ≠ none := by
  obtain ⟨hlocked, hdone, hdisk, hsmall⟩ := hx
  have hset : (d.setBuf b x).Queue q := ⟨h.path, h.nodup⟩
  obtain ⟨qnext, happ, -⟩ := hset.append hb
  have hpass : ¬ (x.locked = false ∨ isDone x = true ∨
      x.dev ≠ 0 ∧ (d.setBuf b x).havedisk1 = false) := by
    rintro (hl | hd | ⟨hdev, hno⟩)
    · exact Bool.false_ne_true (hl.symm.trans hlocked)
    · exact Bool.false_ne_true (hdone.symm.trans hd)
    · rcases hdisk with hdisk | hdisk
      · exact hdev hdisk
      · exact Bool.false_ne_true (hno.symm.trans hdisk)
  have hself : Function.update d.buf b x b = x := Function.update_self ..
  unfold iderw
  dsimp only
  rw [if_neg hpass, happ]
  simp only [Option.bind_eq_bind, Option.bind_some]
  split_ifs with hfirst
  · obtain ⟨c, hc, -⟩ := idestart_eq (b := b)
      (d := { d.setBuf b x with idequeue := (q ++ [b]).head?, qnext := qnext })
      (by rw [Driver.setBuf]; dsimp only; rwa [hself])
    rw [hc]
    exact Option.some_ne_none _
  · exact Option.some_ne_none _

theorem ideintr_idle (h : d.idequeue = none) : ideintr d = some ⟨d, none, .back none⟩ := by
  rw [ideintr, h]

theorem ideintr_ne_none (h : d.Queue (b :: q)) (hs : d.ctl.Serves (d.buf b))
    (hsmall : ∀ n, q.head? = some n → (d.buf n).blockno.toNat < FSSIZE) : ideintr d ≠ none := by
  obtain ⟨c, hc, -⟩ := h.complete hs
  rw [ideintr, show d.idequeue = some b from h.idequeue]
  dsimp only
  rw [hc]
  cases hq : q.head? with
  | none =>
    simp only [if_true, Option.bind_eq_bind, Option.bind_some]
    exact Option.some_ne_none _
  | some n =>
    have hnb : n ≠ b := ne_of_mem_of_not_mem (List.mem_of_mem_head? hq) (List.nodup_cons.1 h.nodup).1
    obtain ⟨c', hc', -⟩ := idestart_eq (b := n) (d := { d with
      idequeue := some n
      buf := Function.update d.buf b (carryOut d.ctl.failing (d.buf b) d.ctl.drives).1
      ctl := c }) (by dsimp only; rw [Function.update_of_ne hnb]; exact hsmall n hq)
    simp only [Option.some_ne_none, if_false, Option.bind_eq_bind]
    rw [hc']
    exact Option.some_ne_none _

/-- `ideintr` finishes the first request, wakes its process up and hands the next one over. -/
theorem ideintr_spec {e : Sec} (h : d.Queue (b :: q)) (hs : d.ctl.Serves (d.buf b))
    (he : ideintr d = some e) :
    e.wake = some b ∧ e.after = .back none ∧ e.data.Queue q ∧
      e.data.buf = Function.update d.buf b (carryOut d.ctl.failing (d.buf b) d.ctl.drives).1 ∧
      e.data.drives = (carryOut d.ctl.failing (d.buf b) d.ctl.drives).2 ∧
      (∀ n, q.head? = some n → e.data.ctl.Serves (d.buf n)) ∧ e.data.havedisk1 = d.havedisk1 := by
  obtain ⟨c, hc, hdrives⟩ := h.complete hs
  have hfirst : d.idequeue = some b := h.idequeue
  have hpath : Path d.qnext q.head? q none := by
    rw [← h.path.2.eq_head?]
    exact h.path.2
  have hnodup := List.nodup_cons.1 h.nodup
  rw [ideintr, hfirst] at he
  dsimp only at he
  rw [hc] at he
  cases hq : q.head? with
  | none =>
    simp only [hq, if_true, Option.bind_eq_bind, Option.bind_some] at he
    cases he
    rw [hq] at hpath
    refine ⟨rfl, rfl, ⟨hpath, hnodup.2⟩, rfl, ?_, by rintro _ ⟨⟩, rfl⟩
    rw [Driver.drives]
    exact hdrives
  | some n =>
    have hmem : n ∈ q := List.mem_of_mem_head? hq
    have hnb : n ≠ b := ne_of_mem_of_not_mem hmem hnodup.1
    simp only [hq, Option.some_ne_none, if_false, Option.bind_eq_bind] at he
    cases hstart : ({ d with
        idequeue := some n
        buf := Function.update d.buf b (carryOut d.ctl.failing (d.buf b) d.ctl.drives).1
        ctl := c } : Driver).idestart (some n) with
    | none =>
      rw [hstart] at he
      cases he
    | some d' =>
      rw [hstart] at he
      cases he
      have hbuf : Function.update d.buf b (carryOut d.ctl.failing (d.buf b) d.ctl.drives).1 n =
        d.buf n := Function.update_of_ne hnb ..
      have hsmall : (d.buf n).blockno.toNat < FSSIZE := by
        by_contra hbig
        rw [idestart_none (by dsimp only; rw [hbuf]; exact Nat.not_lt.1 hbig)] at hstart
        cases hstart
      obtain ⟨c', hc', hs', hdrives'⟩ := idestart_eq (b := n) (d := { d with
        idequeue := some n
        buf := Function.update d.buf b (carryOut d.ctl.failing (d.buf b) d.ctl.drives).1
        ctl := c }) (by dsimp only; rwa [hbuf])
      rw [hstart] at hc'
      cases hc'
      dsimp only at hs' hdrives'
      rw [hbuf] at hs'
      rw [hq] at hpath
      refine ⟨rfl, rfl, ⟨hpath, hnodup.2⟩, rfl, ?_, fun m hm => ?_, rfl⟩
      · rw [Driver.drives]
        exact hdrives'.trans hdrives
      · cases hm
        exact hs'

end Xv6Container.Ide
