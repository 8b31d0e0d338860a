import Xv6Container.Console.Console

/-! Line editing. The buffer of the console is a list of bytes that have been committed and a line
that is still edited; what has been committed stays, and `consoleread` takes it in order. -/

namespace Xv6Container.Console

open Lib

/-- What is typed: `eaten` bytes of those `committed` have been taken by the readers, and `line` may
still be edited. -/
structure Editor where
  committed : List Byte
  eaten : ℕ
  line : List Byte

namespace Editor

def start : Editor := ⟨[], 0, []⟩

/-- The bytes that are in the buffer. -/
def held (d : Editor) : ℕ := d.committed.length - d.eaten + d.line.length

/-- A byte goes behind the line, and the line is committed if it ends or the buffer is full. -/
def add (d : Editor) (c : Byte) : Editor :=
  if c = chr '\n' ∨ c = C 'D' ∨ d.held + 1 = INPUT_BUF then
    { d with committed := d.committed ++ d.line ++ [c], line := [] }
  else { d with line := d.line ++ [c] }

def type (d : Editor) (c : Byte) : Editor :=
  if c = C 'P' then d
  else if c = C 'U' then { d with line := [] }
  else if c = C 'H' ∨ c = 0x7f then { d with line := d.line.dropLast }
  else if c ≠ 0 ∧ d.held < INPUT_BUF then d.add (if c = chr '\r' then chr '\n' else c)
  else d

end Editor

def Input.ring (i : Input) : Ring 32 INPUT_BUF Byte := ⟨i.buf, i.r, i.e⟩

/-- The buffer holds what the editor says. -/
structure Edits (i : Input) (d : Editor) : Prop where
  held : i.ring.contents = d.committed.drop d.eaten ++ d.line
  ready : (i.w - i.r).toNat + d.eaten = d.committed.length
  fits : i.ring.count ≤ INPUT_BUF
  line : chr '\n' ∉ d.line

namespace Edits
variable {i : Input} {d : Editor} {c : Byte}

theorem count (h : Edits i d) : i.ring.count = d.held := by
  rw [← Ring.length_contents, h.held, List.length_append, List.length_drop]
  rfl

theorem eq_add (h : Edits i d) : (i.e - i.r).toNat = (i.w - i.r).toNat + d.line.length := by
  have hcount : (i.e - i.r).toNat = d.held := h.count
  have hready := h.ready
  rw [Editor.held] at hcount
  omega

theorem e_eq_w (h : Edits i d) : i.e = i.w ↔ d.line = [] := by
  have heq := h.eq_add
  rw [← List.length_eq_zero_iff]
  constructor
  · intro he
    rw [he] at heq
    omega
  · intro hl
    rw [hl, Nat.add_zero, ← BitVec.toNat_eq] at heq
    have := congrArg (· + i.r) heq
    simpa only [BitVec.sub_add_cancel] using this

/-- The last byte of the line is taken back. -/
theorem back (h : Edits i d) (hne : d.line ≠ []) : Edits { i with e := i.e - 1 }
    { d with line := d.line.dropLast } ∧ i.cell (i.e - 1) = d.line.getLast hne := by
  have hcount : i.ring.count ≠ 0 := by
    have := List.length_pos_iff.2 hne
    rw [h.count, Editor.held]
    omega
  have hcontents := Ring.contents_unput hcount
  rw [h.held, ← List.dropLast_concat_getLast hne, ← List.append_assoc] at hcontents
  obtain ⟨hinit, hlast⟩ := List.append_inj' hcontents rfl
  refine ⟨⟨?_, h.ready, ?_, ?_⟩, (List.cons.inj hlast).1.symm⟩
  · exact hinit.symm
  · have := Ring.count_unput hcount
    have hle := h.fits
    show i.ring.unput.count ≤ _
    omega
  · intro hmem
    exact h.line (List.dropLast_subset _ hmem)

theorem backspace (h : Edits i d) : Edits i.backspace { d with line := d.line.dropLast } := by
  unfold Input.backspace
  split_ifs with he
  · exact (h.back fun hl => he (h.e_eq_w.2 hl)).1
  · have hl := h.e_eq_w.1 (not_not.1 he)
    rw [hl]
    exact ⟨by rw [h.held, hl]; rfl, h.ready, h.fits, List.not_mem_nil⟩

/-- Kill-line takes the whole line: there is no newline in it. -/
theorem killLoop {k : ℕ} (h : Edits i d) (hk : d.line.length = k) :
    Edits (i.killLoop k) { d with line := [] } := by
  induction k generalizing i d with
  | zero =>
    rw [List.length_eq_zero_iff] at hk
    rw [← hk]
    exact h
  | succ k ih =>
    have hne : d.line ≠ [] := by
      intro hl
      rw [hl] at hk
      cases hk
    obtain ⟨hback, hlast⟩ := h.back hne
    have hcell : i.cell (i.e - 1) ≠ chr '\n' := by
      intro hc
      rw [hc] at hlast
      exact h.line (hlast ▸ List.getLast_mem hne)
    rw [Input.killLoop, if_pos ⟨fun he => hne (h.e_eq_w.1 he), hcell⟩]
    have hlength : d.line.dropLast.length = k := by rw [List.length_dropLast, hk, Nat.add_sub_cancel]
    have := ih hback hlength
    exact this

theorem killLine (h : Edits i d) : Edits i.killLine { d with line := [] } := by
  apply h.killLoop
  have heq := h.eq_add
  bv_omega

/-- A byte that is typed while there is room. -/
theorem store (h : Edits i d) (hroom : d.held < INPUT_BUF) (hc : chr '\n' ≠ c) :
    Edits (i.store c) { d with line := d.line ++ [c] } := by
  have hlt : i.ring.count < INPUT_BUF := by
    rw [h.count]
    exact hroom
  refine ⟨?_, h.ready, ?_, ?_⟩
  · have hput := Ring.contents_put (by decide) hlt (by decide) c
    rw [h.held, List.append_assoc] at hput
    exact hput
  · have hput : (i.ring.put c).count = i.ring.count + 1 := by
      apply Ring.count_put
      simp only [INPUT_BUF] at hlt
      omega
    show (i.ring.put c).count ≤ _
    omega
  · rw [List.mem_append, List.mem_singleton, not_or]
    exact ⟨h.line, hc⟩

/-- The line and the byte behind it are given to the readers. -/
theorem commit (h : Edits i d) (hroom : d.held < INPUT_BUF) :
    Edits { i.store c with w := (i.store c).e }
      { d with committed := d.committed ++ d.line ++ [c], line := [] } := by
  have hlt : i.ring.count < INPUT_BUF := by
    rw [h.count]
    exact hroom
  have hput : (i.ring.put c).count = i.ring.count + 1 := by
    apply Ring.count_put
    simp only [INPUT_BUF] at hlt
    omega
  have hready := h.ready
  refine ⟨?_, ?_, ?_, List.not_mem_nil⟩
  · have hcontents := Ring.contents_put (by decide) hlt (by decide) c
    rw [h.held, List.append_assoc] at hcontents
    dsimp only
    rw [List.append_nil, List.append_assoc, List.drop_append_of_le_length (by omega)]
    exact hcontents
  · have hcount : (i.e + 1 - i.r).toNat = i.ring.count + 1 := hput
    have hheld := h.count
    rw [Editor.held] at hheld
    show (i.e + 1 - i.r).toNat + d.eaten = _
    rw [hcount, hheld, List.length_append, List.length_append, List.length_singleton]
    omega
  · show (i.ring.put c).count ≤ _
    omega

theorem add (h : Edits i d) (hroom : d.held < INPUT_BUF) :
    Edits ((i.store c).commit c).1 (d.add c) := by
  have hlt : i.ring.count < INPUT_BUF := by
    rw [h.count]
    exact hroom
  have hfull : (i.store c).e = (i.store c).r + BitVec.ofNat 32 INPUT_BUF ↔
      d.held + 1 = INPUT_BUF := by
    have hput : (i.ring.put c).count = i.ring.count + 1 := by
      apply Ring.count_put
      simp only [INPUT_BUF] at hlt
      omega
    rw [← h.count, ← hput, Ring.count_eq (by decide)]
    rfl
  unfold Input.commit Editor.add
  simp only [hfull]
  split_ifs with hends
  · exact h.commit hroom
  · rw [not_or] at hends
    exact h.store hroom fun hc => hends.1 hc.symm

theorem type (h : Edits i d) (c : Byte) : Edits (i.type c).1 (d.type c) := by
  have hroom : i.e - i.r < BitVec.ofNat 32 INPUT_BUF ↔ d.held < INPUT_BUF := by
    rw [← h.count, BitVec.lt_def]
    rfl
  unfold Input.type Editor.type
  simp only [hroom]
  split_ifs with _ _ _ hc
  · exact h
  · exact h.killLine
  · exact h.backspace
  · exact h.add hc.2
  · exact h.add hc.2
  · exact h

theorem consoleintr (h : Edits i d) (cs : List Byte) :
    Edits (i.consoleintr cs).1 (cs.foldl Editor.type d) := by
  induction cs generalizing i d with
  | nil => exact h
  | cons c cs ih => exact ih (h.type c)

end Edits

/-- The bytes that `consoleread` may take. -/
def Input.ready (i : Input) : List Byte := (⟨i.buf, i.r, i.w⟩ : Ring 32 INPUT_BUF Byte).contents

/-- The bytes that may still be edited. -/
def Input.typing (i : Input) : List Byte := (⟨i.buf, i.w, i.e⟩ : Ring 32 INPUT_BUF Byte).contents

namespace Edits
variable {i : Input} {d : Editor}

theorem parts (h : Edits i d) : i.ready = d.committed.drop d.eaten ∧ i.typing = d.line := by
  have heq := h.eq_add
  have hle : (i.w - i.r).toNat ≤ (i.e - i.r).toNat := by omega
  have hsplit : i.ring.contents = i.ready ++ i.typing := Ring.contents_split hle
  rw [h.held] at hsplit
  have hlength : i.ready.length = (i.w - i.r).toNat := Ring.length_contents _
  have hready := h.ready
  obtain ⟨h1, h2⟩ := List.append_inj hsplit (by rw [List.length_drop, hlength]; omega)
  exact ⟨h1.symm, h2.symm⟩

/-- The readers take `m` bytes. -/
theorem eat (h : Edits i d) {m : ℕ} {r : BitVec 32} (hm : (r - i.r).toNat = m)
    (hle : m ≤ (i.w - i.r).toNat) : Edits { i with r := r } { d with eaten := d.eaten + m } := by
  have heq := h.eq_add
  have hready := h.ready
  have hwe : (r - i.r).toNat ≤ (i.e - i.r).toNat := by omega
  have hw : (i.w - i.r).toNat = (r - i.r).toNat + (i.w - r).toNat := Ring.count_split (by omega)
  have he : (i.e - i.r).toNat = (r - i.r).toNat + (i.e - r).toNat := Ring.count_split hwe
  refine ⟨?_, ?_, ?_, h.line⟩
  · have hsplit : i.ring.contents = _ ++ (⟨i.buf, r, i.e⟩ : Ring 32 INPUT_BUF Byte).contents :=
      Ring.contents_split hwe
    have hlength : (⟨i.buf, i.r, r⟩ : Ring 32 INPUT_BUF Byte).contents.length = m := by
      rw [Ring.length_contents]
      exact hm
    have hdrop := congrArg (List.drop m) hsplit
    rw [h.held, ← hlength, List.drop_left, List.drop_append_of_le_length, List.drop_drop,
      hlength] at hdrop
    · exact hdrop.symm
    · rw [hlength, List.length_drop]
      omega
  · dsimp only
    omega
  · have hfits : (i.e - i.r).toNat ≤ INPUT_BUF := h.fits
    show (i.e - r).toNat ≤ INPUT_BUF
    omega

end Edits

end Xv6Container.Console
