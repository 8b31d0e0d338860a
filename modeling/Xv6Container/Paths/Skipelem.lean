import Xv6Container.Lib.Components
import Xv6Container.Ops.Direntry

/-! `skipelem` of `fs.c`. A pointer into a path is what is left of the path before the terminating
zero; the buffer for the name is memory, of which the first `DIRSIZ` bytes belong to it. Called over
and over, `skipelem` goes through the components of the path. -/

namespace Xv6Container.Paths

open Lib
open Names (DIRSIZ Name slash)
open Ops (cutString nameOf cutString_succ nameOf_eq_iff)

/-- `*path` -/
def deref (path : List UInt8) : UInt8 := path.headD 0

/-- `while(*path == '/') path++;` -/
def skipSlashes : List UInt8 → List UInt8
  | [] => []
  | c :: path => if c = slash then skipSlashes path else c :: path

/-- `while(*path != '/' && *path != 0) path++;` -/
def skipName : List UInt8 → List UInt8
  | [] => []
  | c :: path => if c ≠ slash ∧ c ≠ 0 then skipName path else c :: path

/-- `memmove(name, s, n)` -/
def memmove (name : ℕ → UInt8) (s : List UInt8) (n : ℕ) : ℕ → UInt8 :=
  fun k => if k < n then s.getD k 0 else name k

/-- The rest of the path and the buffer. -/
def skipelem (path : List UInt8) (name : ℕ → UInt8) : Option (List UInt8 × (ℕ → UInt8)) :=
  let s := skipSlashes path
  if deref s = 0 then none
  else
    let path := skipName s
    let len := s.length - path.length
    let name :=
      if len ≥ DIRSIZ then memmove name s DIRSIZ
      else Function.update (memmove name s len) len 0
    some (skipSlashes path, name)

variable {path path' : List UInt8} {name name' : ℕ → UInt8} {n : ℕ}

/-! ### The loops -/

theorem skipSlashes_eq (path : List UInt8) : skipSlashes path = path.dropWhile (· = slash) := by
  induction path with
  | nil => rfl
  | cons c path ih =>
    rw [skipSlashes, List.dropWhile_cons, ih]
    simp only [decide_eq_true_eq]

theorem skipName_eq (h0 : 0 ∉ path) : skipName path = path.dropWhile (· ≠ slash) := by
  induction path with
  | nil => rfl
  | cons c path ih =>
    have hc : c ≠ 0 := fun h => h0 (h ▸ List.mem_cons_self)
    rw [skipName, List.dropWhile_cons, ih fun h => h0 (List.mem_cons_of_mem c h)]
    simp only [hc, ne_eq, not_false_eq_true, and_true, decide_eq_true_eq]

theorem length_skipSlashes_le (path : List UInt8) : (skipSlashes path).length ≤ path.length := by
  rw [skipSlashes_eq]
  exact List.length_dropWhile_le _ _

theorem length_skipName_le (path : List UInt8) : (skipName path).length ≤ path.length := by
  induction path with
  | nil => exact Nat.le_refl 0
  | cons c path ih =>
    rw [skipName]
    split_ifs
    · exact Nat.le_succ_of_le ih
    · exact Nat.le_refl _

/-- Behind the slashes there is a byte of a name or the end. -/
theorem skipSlashes_cases (path : List UInt8) :
    skipSlashes path = [] ∨ ∃ c s, skipSlashes path = c :: s ∧ c ≠ slash := by
  rw [skipSlashes_eq]
  cases hd : path.dropWhile (· = slash) with
  | nil => exact .inl rfl
  | cons c s => exact .inr ⟨c, s, rfl, by simpa using not_of_dropWhile_eq_cons hd⟩

/-- Every call goes on in the path. -/
theorem skipelem_shorter (h : skipelem path name = some (path', name')) :
    path'.length < path.length := by
  rw [skipelem] at h
  obtain hs | ⟨c, s, hs, hc⟩ := skipSlashes_cases path
  · rw [hs] at h
    cases h
  · rw [hs] at h
    dsimp only at h
    split_ifs at h with h0
    all_goals
      cases h
      have hc0 : c ≠ 0 := h0
      have hle := length_skipSlashes_le path
      have hname := length_skipName_le s
      have hrest := length_skipSlashes_le (skipName s)
      rw [hs, List.length_cons] at hle
      rw [skipName, if_pos ⟨hc, hc0⟩]
      omega

/-- The buffers and the rests that the calls of `skipelem` leave one after the other. -/
def iterate (path : List UInt8) (name : ℕ → UInt8) : List ((ℕ → UInt8) × List UInt8) :=
  match _ : skipelem path name with
  | none => []
  | some (path', name') => (name', path') :: iterate path' name'
termination_by path.length
decreasing_by exact skipelem_shorter ‹_›

/-! ### What a call does -/

/-- The first `DIRSIZ` bytes of a component, and a zero behind them if there is room. -/
theorem cutString_eq {p : ℕ → UInt8} {l : List UInt8} (hl : l.length ≤ n) (h0 : 0 ∉ l)
    (hp : ∀ k, k < l.length → p k = l.getD k 0) (hend : l.length < n → p l.length = 0) :
    cutString p n = l := by
  induction n generalizing p l with
  | zero =>
    rw [List.length_eq_zero_iff.1 (Nat.le_zero.1 hl)]
    rfl
  | succ n ih =>
    rw [cutString_succ]
    cases l with
    | nil =>
      have hzero : p 0 = 0 := hend (Nat.succ_pos n)
      rw [if_neg (not_not.2 hzero)]
    | cons a l =>
      have ha : p 0 = a := hp 0 (Nat.succ_pos _)
      have hne : a ≠ 0 := fun h => h0 (h ▸ List.mem_cons_self)
      rw [ha, if_pos hne]
      congr 1
      apply ih (Nat.le_of_succ_le_succ hl) fun h => h0 (List.mem_cons_of_mem a h)
      · intro k hk
        exact hp (k + 1) (Nat.succ_lt_succ hk)
      · intro hlt
        exact hend (Nat.succ_lt_succ hlt)

/-- What a call of `skipelem` leaves in the buffer of the component `w`, and behind the buffer. -/
structure Holds (w : List UInt8) (name name' : ℕ → UInt8) : Prop where
  name_eq : cutString name' DIRSIZ = w.take DIRSIZ
  outside : ∀ k, DIRSIZ ≤ k → name' k = name k

theorem holds_memmove {w rest : List UInt8} (h0 : 0 ∉ w) : Holds w name
    (if w.length ≥ DIRSIZ then memmove name (w ++ rest) DIRSIZ
      else Function.update (memmove name (w ++ rest) w.length) w.length 0) := by
  have hmove : ∀ n k, n ≤ w.length → k < n → memmove name (w ++ rest) n k = w.getD k 0 := by
    intro n k hn hk
    rw [memmove, if_pos hk, List.getD_eq_getElem?_getD, List.getD_eq_getElem?_getD,
      List.getElem?_append_left (hk.trans_le hn)]
  have h0' : 0 ∉ w.take DIRSIZ := fun h => h0 (List.mem_of_mem_take h)
  split_ifs with hlen
  · have htake : (w.take DIRSIZ).length = DIRSIZ := by
      rw [List.length_take]
      omega
    refine ⟨cutString_eq htake.le h0' ?_ ?_, fun k hk => if_neg (by omega)⟩
    · intro k hk
      rw [htake] at hk
      rw [hmove DIRSIZ k hlen hk, List.getD_eq_getElem?_getD, List.getD_eq_getElem?_getD,
        List.getElem?_take_of_lt hk]
    · rw [htake]
      exact fun h => absurd h (Nat.lt_irrefl _)
  · have htake : w.take DIRSIZ = w := List.take_of_length_le (by omega)
    rw [htake] at h0'
    constructor
    · rw [htake]
      apply cutString_eq (by omega) h0'
      · intro k hk
        rw [Function.update_of_ne hk.ne, hmove _ k (Nat.le_refl _) hk]
      · intro _
        exact Function.update_self ..
    · intro k hk
      rw [Function.update_of_ne (by omega)]
      exact if_neg (by omega)

/-- The path without its first slashes. -/
theorem skipSlashes_components (h0 : 0 ∉ path) :
    skipSlashes path = [] ∧ components slash path = [] ∨
      ∃ c s, skipSlashes path = c :: s ∧ c ≠ slash ∧ 0 ∉ c :: s ∧
        components slash path = components slash (c :: s) := by
  have hcomp : components slash (skipSlashes path) = components slash path := by
    rw [skipSlashes_eq, components_dropWhile]
  obtain hs | ⟨c, s, hs, hc⟩ := skipSlashes_cases path
  · exact .inl ⟨hs, by rw [← hcomp, hs, components_nil]⟩
  · refine .inr ⟨c, s, hs, hc, fun h => h0 ?_, hs ▸ hcomp.symm⟩
    rw [← hs, skipSlashes_eq] at h
    exact (List.dropWhile_sublist _).subset h

theorem skipelem_eq_none (h0 : 0 ∉ path) :
    skipelem path name = none ↔ components slash path = [] := by
  rw [skipelem]
  obtain ⟨hs, hcomp⟩ | ⟨c, s, hs, hc, hzero, hcomp⟩ := skipSlashes_components h0
  · rw [hs, hcomp]
    exact ⟨fun _ => rfl, fun _ => rfl⟩
  · have hc0 : deref (c :: s) ≠ 0 := fun h => hzero (h ▸ List.mem_cons_self)
    rw [hs, hcomp, components_cons hc]
    dsimp only
    rw [if_neg hc0]
    exact ⟨nofun, nofun⟩

/-- `skipelem` takes the first component off, and nothing is left of the path if it is the last. -/
theorem skipelem_eq_some (h0 : 0 ∉ path) (h : skipelem path name = some (path', name')) :
    ∃ w, components slash path = w :: components slash path' ∧ Holds w name name' ∧
      (path' = [] ↔ components slash path' = []) ∧ 0 ∉ path' := by
  rw [skipelem] at h
  obtain ⟨hs, -⟩ | ⟨c, s, hs, hc, hzero, hcomp⟩ := skipSlashes_components h0
  · rw [hs] at h
    cases h
  · have hc0 : deref (c :: s) ≠ 0 := fun h => hzero (h ▸ List.mem_cons_self)
    rw [hs] at h
    dsimp only at h
    rw [if_neg hc0, Option.some.injEq, Prod.mk.injEq, skipName_eq hzero, skipSlashes_eq] at h
    obtain ⟨hpath, hname⟩ := h
    set w := (c :: s).takeWhile (· ≠ slash) with hw
    set rest := (c :: s).dropWhile (· ≠ slash) with hrest
    have happ : w ++ rest = c :: s := List.takeWhile_append_dropWhile
    have hlen : (c :: s).length - rest.length = w.length := by
      rw [← happ, List.length_append, Nat.add_sub_cancel]
    have hcomp' : components slash path' = components slash rest := by
      rw [← hpath, components_dropWhile]
    refine ⟨w, ?_, ?_, ?_, ?_⟩
    · rw [hcomp, components_cons hc, hcomp']
    · rw [hlen, ← happ] at hname
      rw [← hname]
      exact holds_memmove fun h => hzero ((List.takeWhile_sublist _).subset h)
    · rw [hcomp', components_eq_nil_iff, hpath]
    · intro hmem
      rw [← hpath] at hmem
      exact hzero ((List.dropWhile_sublist _).subset ((List.dropWhile_sublist _).subset hmem))

/-! ### All calls -/

theorem iterate_none (h : skipelem path name = none) : iterate path name = [] := by
  rw [iterate]
  split
  next => rfl
  next h' => cases h.symm.trans h'

theorem iterate_some (h : skipelem path name = some (path', name')) :
    iterate path name = (name', path') :: iterate path' name' := by
  rw [iterate]
  split
  next h' => cases h.symm.trans h'
  next h' =>
    cases h.symm.trans h'
    rfl

/-- What the calls leave in the buffer is the names of the components, each cut to `DIRSIZ` bytes;
what is left of the path then are the components behind it. -/
theorem iterate_components (name : ℕ → UInt8) (h0 : 0 ∉ path) :
    (iterate path name).map (fun x => cutString x.1 DIRSIZ) =
        (components slash path).map (List.take DIRSIZ) ∧
      ∀ k x, (iterate path name)[k]? = some x →
        components slash x.2 = (components slash path).drop (k + 1) ∧
        (x.2 = [] ↔ k + 1 = (components slash path).length) ∧ ∀ j, DIRSIZ ≤ j → x.1 j = name j := by
  induction hn : path.length using Nat.strong_induction_on generalizing path name with
  | h n ih =>
    cases hskip : skipelem path name with
    | none =>
      rw [iterate_none hskip, (skipelem_eq_none h0).1 hskip]
      exact ⟨rfl, nofun⟩
    | some x =>
      obtain ⟨path', name'⟩ := x
      obtain ⟨w, hcomp, hholds, hend, h0'⟩ := skipelem_eq_some h0 hskip
      obtain ⟨hnames, hrests⟩ :=
        @ih path'.length (hn ▸ skipelem_shorter hskip) path' name' h0' rfl
      rw [iterate_some hskip, hcomp]
      constructor
      · rw [List.map_cons, List.map_cons, hnames, hholds.name_eq]
      · rintro (_ | k) x hx
        · cases hx
          refine ⟨rfl, ?_, hholds.outside⟩
          rw [hend, List.length_cons, ← List.length_eq_zero_iff]
          omega
        · obtain ⟨hdrop, hlast, hout⟩ := hrests k x hx
          refine ⟨hdrop, ?_, fun j hj => (hout j hj).trans (hholds.outside j hj)⟩
          rw [hlast, List.length_cons, Nat.add_right_cancel_iff]

end Xv6Container.Paths
