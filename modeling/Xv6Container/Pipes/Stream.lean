import Xv6Container.Lib.Trace
import Xv6Container.Pipes.Pipe

/-! The bytes of a pipe. What the reads return is what the writes store, in order; the bytes in
between are in the pipe, at most `PIPESIZE` of them. The counters are a ring buffer's, so it does
not matter how often they wrap. -/

namespace Xv6Container.Pipes

open Lib

variable {ι : Type*} [DecidableEq ι] {s t : Sys ι} {a : Act ι}

/-- The bytes that a section stores, or returns to its caller. -/
inductive Moved where
  | stored (bytes : List Byte)
  | read (bytes : List Byte)

/-- The bytes `addr[i]`, ..., `addr[j - 1]`. -/
def bytesFrom (addr : ℕ → Byte) (i j : ℕ) : List Byte := (List.range' i (j - i)).map addr

omit [DecidableEq ι] in
def moved (s : Sys ι) : Act ι → Option Moved
  | .run p =>
    match s.call p with
    | some (.pipewrite addr n i) =>
      some (.stored (bytesFrom addr i (s.pipe.writeLoop addr (n.toNat - i) i).1))
    | some (.piperead n) =>
      if s.pipe.empty && s.pipe.writeopen then none else some (.read (s.pipe.readLoop n.toNat).1)
    | none => none
  | _ => none

def Moved.stored? : Moved → List Byte
  | .stored bytes => bytes
  | .read _ => []

def Moved.read? : Moved → List Byte
  | .stored _ => []
  | .read bytes => bytes

/-- The bytes stored by the writes, and returned by the reads. -/
def bytesStored (l : List Moved) : List Byte := l.flatMap Moved.stored?
def bytesRead (l : List Moved) : List Byte := l.flatMap Moved.read?

/-! ### The loops -/

namespace Pipe
variable {p : Pipe}

@[simp] theorem ring_store (c : Byte) : (p.store c).ring = p.ring.put c := rfl

@[simp] theorem ring_fetch : p.fetch.2.ring = p.ring.drop := rfl

theorem full_iff : p.full = true ↔ p.ring.count = PIPESIZE := by
  rw [full, beq_iff_eq, Ring.count_eq (by decide)]
  rfl

theorem empty_iff : p.empty = true ↔ p.ring.count = 0 := by
  rw [empty, beq_iff_eq, Ring.count_eq_zero]
  rfl

/-- The bytes that are in the pipe. -/
def contents (p : Pipe) : List Byte := p.ring.contents

/-- A pipe never holds more than fits. -/
def Sound (p : Pipe) : Prop := p.ring.count ≤ PIPESIZE

theorem Sound.store (h : p.Sound) (hfull : p.full = false) (c : Byte) :
    (p.store c).Sound ∧ (p.store c).contents = p.contents ++ [c] := by
  have hlt : p.ring.count < PIPESIZE := by
    refine lt_of_le_of_ne h fun heq => ?_
    rw [full_iff.2 heq] at hfull
    cases hfull
  refine ⟨?_, Ring.contents_put (by decide) hlt (by decide) c⟩
  rw [Sound, ring_store, Ring.count_put]
  · exact hlt
  · simp only [PIPESIZE] at hlt
    omega

theorem Sound.fetch (h : p.Sound) (hempty : p.empty = false) :
    p.fetch.2.Sound ∧ p.contents = p.fetch.1 :: p.fetch.2.contents := by
  have hne : p.ring.count ≠ 0 := by
    intro heq
    rw [empty_iff.2 heq] at hempty
    cases hempty
  refine ⟨?_, Ring.contents_drop hne⟩
  have hdrop := Ring.count_drop hne
  rw [Sound, ring_fetch]
  rw [Sound] at h
  omega

/-- `pipewrite` puts the bytes it passes behind those in the pipe. -/
theorem writeLoop_contents {addr : ℕ → Byte} {k i j : ℕ} {q : Pipe} (h : p.Sound)
    (hq : p.writeLoop addr k i = (j, q)) :
    i ≤ j ∧ q.Sound ∧ q.contents = p.contents ++ bytesFrom addr i j := by
  induction k generalizing p i with
  | zero =>
    cases hq
    refine ⟨le_refl _, h, ?_⟩
    rw [bytesFrom, Nat.sub_self]
    exact (List.append_nil _).symm
  | succ k ih =>
    rw [writeLoop] at hq
    split at hq
    next hfull =>
      cases hq
      refine ⟨le_refl _, h, ?_⟩
      rw [bytesFrom, Nat.sub_self]
      exact (List.append_nil _).symm
    next hfull =>
      obtain ⟨hsound, hstore⟩ := h.store (Bool.eq_false_of_not_eq_true hfull) (addr i)
      obtain ⟨hle, hq, hcontents⟩ := ih hsound hq
      have hsplit : bytesFrom addr i j = addr i :: bytesFrom addr (i + 1) j := by
        rw [bytesFrom, show j - i = (j - (i + 1)) + 1 by omega, List.range'_succ, List.map_cons]
        rfl
      refine ⟨by omega, hq, ?_⟩
      rw [hcontents, hstore, hsplit, List.append_assoc]
      rfl

/-- `piperead` takes the first bytes of the pipe. -/
theorem readLoop_contents {k : ℕ} {l : List Byte} {q : Pipe} (h : p.Sound)
    (hq : p.readLoop k = (l, q)) : q.Sound ∧ p.contents = l ++ q.contents := by
  induction k generalizing p l with
  | zero =>
    cases hq
    exact ⟨h, rfl⟩
  | succ k ih =>
    rw [readLoop] at hq
    split at hq
    next =>
      cases hq
      exact ⟨h, rfl⟩
    next hempty =>
      obtain ⟨hsound, hfetch⟩ := h.fetch (Bool.eq_false_of_not_eq_true hempty)
      cases hrest : p.fetch.2.readLoop k with
      | mk l' q' =>
        rw [hrest] at hq
        cases hq
        obtain ⟨hq, hcontents⟩ := ih hsound hrest
        refine ⟨hq, ?_⟩
        rw [hfetch, hcontents]
        rfl

end Pipe

/-! ### Runs -/

/-- The bytes that have been stored are those that have been read and those in the pipe. -/
structure Streams (l : List Moved) (s : Sys ι) : Prop where
  sound : s.pipe.Sound
  bytes : bytesStored l = bytesRead l ++ s.pipe.contents

omit [DecidableEq ι] in
theorem Streams.stored {l : List Moved} {bytes : List Byte} (h : Streams l s)
    (hsound : t.pipe.Sound) (ht : t.pipe.contents = s.pipe.contents ++ bytes) :
    Streams (l ++ [.stored bytes]) t := by
  refine ⟨hsound, ?_⟩
  rw [bytesStored, bytesRead, List.flatMap_append, List.flatMap_append, ht]
  show bytesStored l ++ (bytes ++ []) = bytesRead l ++ [] ++ (s.pipe.contents ++ bytes)
  rw [h.bytes, List.append_nil, List.append_nil, List.append_assoc]

omit [DecidableEq ι] in
theorem Streams.read {l : List Moved} {bytes : List Byte} (h : Streams l s)
    (hsound : t.pipe.Sound) (hs : s.pipe.contents = bytes ++ t.pipe.contents) :
    Streams (l ++ [.read bytes]) t := by
  refine ⟨hsound, ?_⟩
  rw [bytesStored, bytesRead, List.flatMap_append, List.flatMap_append]
  show bytesStored l ++ [] = bytesRead l ++ (bytes ++ []) ++ t.pipe.contents
  rw [h.bytes, List.append_nil, List.append_nil, List.append_assoc, hs]

omit [DecidableEq ι] in
/-- The bytes stay where they are. -/
theorem Streams.same {l : List Moved} (h : Streams l s) (hring : t.pipe.ring = s.pipe.ring) :
    Streams l t := by
  constructor
  · rw [Pipe.Sound, hring]
    exact h.sound
  · rw [h.bytes, Pipe.contents, Pipe.contents, hring]

theorem pipewrite_pipe {p : ι} {addr : ℕ → Byte} {n : ℤ} {i : ℕ} :
    (pipewrite s p addr n i).pipe = (s.pipe.writeLoop addr (n.toNat - i) i).2 := by
  unfold pipewrite
  dsimp only
  split_ifs
  all_goals rfl

theorem piperead_pipe {p : ι} {n : ℤ} :
    (piperead s p n).pipe = if s.pipe.empty && s.pipe.writeopen then s.pipe
      else (s.pipe.readLoop n.toNat).2 := by
  unfold piperead
  dsimp only
  split_ifs
  all_goals rfl

theorem Streams.step {l : List Moved} (h : Streams l s) (ht : Pipes.step s a = .ok t) :
    Streams (l ++ (moved s a).toList) t := by
  unfold Pipes.step at ht
  split_ifs at ht
  have hquiet : t.pipe.ring = s.pipe.ring → moved s a = none →
      Streams (l ++ (moved s a).toList) t := by
    intro hring hnone
    rw [hnone, Option.toList_none, List.append_nil]
    exact h.same hring
  cases a with
  | pipewrite p addr n | piperead p n =>
    simp only at ht
    split_ifs at ht
    cases ht
    exact hquiet rfl rfl
  | kill p =>
    cases ht
    exact hquiet rfl rfl
  | pipeclose writable =>
    cases ht
    refine hquiet ?_ rfl
    cases writable
    · rfl
    · rfl
  | run p =>
    simp only at ht
    split at ht
    next addr n i hcall hawake =>
      cases ht
      have hloop := Pipe.writeLoop_contents h.sound
        (rfl : s.pipe.writeLoop addr (n.toNat - i) i = (_, _))
      rw [← pipewrite_pipe (p := p) (n := n)] at hloop
      simp only [moved, hcall, Option.toList_some]
      exact h.stored hloop.2.1 hloop.2.2
    next n hcall hawake =>
      cases ht
      by_cases hwait : (s.pipe.empty && s.pipe.writeopen) = true
      · refine hquiet ?_ ?_
        · rw [piperead_pipe, if_pos hwait]
        · simp only [moved, hcall, if_pos hwait]
      · have hloop := Pipe.readLoop_contents h.sound
          (rfl : s.pipe.readLoop n.toNat = (_, _))
        have hpipe : (piperead s p n).pipe = (s.pipe.readLoop n.toNat).2 := by
          rw [piperead_pipe, if_neg hwait]
        rw [← hpipe] at hloop
        simp only [moved, hcall, if_neg hwait, Option.toList_some]
        exact h.read hloop.1 hloop.2
    next => cases ht

omit [DecidableEq ι] in
theorem Opened.streams (h : Opened s) : Streams [] s := by
  obtain ⟨data, hpipe⟩ := h.pipe
  have hcount : s.pipe.ring.count = 0 := by
    rw [hpipe, Ring.count_eq_zero]
    rfl
  refine ⟨?_, ?_⟩
  · rw [Pipe.Sound, hcount]
    exact Nat.zero_le _
  · rw [Pipe.contents, Ring.contents, hcount]
    rfl

/-- The bytes that the reads have returned are the first ones that the writes have stored; the
others are in the pipe. -/
theorem pipe_streams {l : List Moved} (hs : Opened s) (hl : Trace step always moved s l t) :
    bytesRead l <+: bytesStored l ∧ bytesStored l = bytesRead l ++ t.pipe.contents ∧
      (t.pipe.nwrite - t.pipe.nread).toNat ≤ PIPESIZE := by
  have h := hl.invariant (I := Streams) hs.streams fun _ _ _ _ h _ ht => h.step ht
  refine ⟨?_, h.bytes, h.sound⟩
  rw [h.bytes]
  exact List.prefix_append ..

/-- A pipe that two processes have just got. -/
def newPipe : Sys (Fin 2) := ⟨.pipealloc fun _ => 0, fun _ => none, fun _ => none, fun _ => false,
  fun _ => 0⟩

/-- The reader sleeps until the writer has stored three bytes, and takes two of them. -/
theorem pipe_streams_two : ∃ l t, Trace step always moved newPipe l t ∧ bytesRead l = [7, 8] ∧
    (bytesRead l <+: bytesStored l ∧ bytesStored l = bytesRead l ++ t.pipe.contents ∧
      (t.pipe.nwrite - t.pipe.nread).toNat ≤ PIPESIZE) := by
  obtain ⟨l, t, hl, hread⟩ := (Trace.nil : Trace step always moved newPipe [] newPipe).of_watch
    (fun l _ => decide (bytesRead l = [7, 8]))
    [.piperead 1 2, .run 1, .pipewrite 0 (fun i => BitVec.ofNat 8 (7 + i)) 3, .run 0, .run 1]
    (by decide +kernel)
  exact ⟨l, t, hl, of_decide_eq_true hread, pipe_streams ⟨⟨_, rfl⟩, fun _ => rfl⟩ hl⟩

end Xv6Container.Pipes
