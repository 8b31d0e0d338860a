import Mathlib.Computability.Language

/-! The matcher of `grep.c`. A string is the list of its bytes in front of the terminating zero,
and a pointer into it is what is left of the list. -/

namespace Xv6Container.Grep

open Computability

def caret : UInt8 := '^'.toUInt8
def star : UInt8 := '*'.toUInt8
def dollar : UInt8 := '$'.toUInt8
def dot : UInt8 := '.'.toUInt8

/-! ### The source -/

mutual

/-- Search for `re` at the beginning of `text`. -/
def matchhere (re text : List UInt8) : Bool :=
  match re with
  | [] => true
  | x :: re =>
    if re.head? = some star then matchstar x re.tail text
    else if x = dollar ∧ re = [] then text = []
    else
      match text with
      | [] => false
      | c :: text => (x = dot ∨ x = c) && matchhere re text
termination_by (re.length, text.length, 0)
decreasing_by
  · left
    rw [List.length_tail, List.length_cons]
    omega
  · left
    exact Nat.lt_succ_self _

/-- Search for `c*re` at the beginning of `text`. -/
def matchstar (c : UInt8) (re text : List UInt8) : Bool :=
  matchhere re text ||
    match text with
    | [] => false
    | x :: text => (x = c ∨ c = dot) && matchstar c re text
termination_by (re.length, text.length, 1)
decreasing_by
  · right
    right
    exact Nat.zero_lt_one
  · right
    left
    exact Nat.lt_succ_self _

end

/-- `do ... while(*text++ != '\0')` of `match`. -/
def matchLoop (re : List UInt8) : List UInt8 → Bool
  | [] => matchhere re []
  | x :: text => matchhere re (x :: text) || matchLoop re text

/-- `match` -/
def matchText (re text : List UInt8) : Bool :=
  if re.head? = some caret then matchhere re.tail text else matchLoop re text

/-! ### The language of a pattern -/

/-- What a pattern is read as from left to right. -/
inductive Item
  /-- a character in front of `*` -/
  | star (x : UInt8)
  /-- `$` at the end of the pattern -/
  | last
  | one (x : UInt8)
  deriving DecidableEq

def items : List UInt8 → List Item
  | [] => []
  | x :: re =>
    if re.head? = some star then .star x :: items re.tail
    else if x = dollar ∧ re = [] then [.last]
    else .one x :: items re
termination_by re => re.length
decreasing_by
  · rw [List.length_tail, List.length_cons]
    omega
  · exact Nat.lt_succ_self _

/-- The words of one letter that `x` stands for. -/
def letter (x : UInt8) : Language UInt8 := {w | ∃ c, (x = dot ∨ x = c) ∧ w = [c]}

def Item.language : Item → Language UInt8
  | .star x => (letter x)∗
  | .last => 1
  | .one x => letter x

/-- Some part of the text is a word of the pattern: it is at the beginning of the text if the pattern
begins with `^`, and at its end if `$` is the last character. -/
def Matches (re text : List UInt8) : Prop :=
  ∃ front w behind, text = front ++ w ++ behind ∧ (re.head? = some caret → front = []) ∧
    let is := items (if re.head? = some caret then re.tail else re)
    (.last ∈ is → behind = []) ∧ w ∈ (is.map Item.language).prod

/-! ### Words of letters -/

theorem cons_mem_letter_mul {x c : UInt8} {w : List UInt8} {l : Language UInt8} :
    c :: w ∈ letter x * l ↔ (x = dot ∨ x = c) ∧ w ∈ l := by
  rw [Language.mem_mul]
  constructor
  · rintro ⟨_, ⟨c', hc, rfl⟩, v, hv, heq⟩
    obtain ⟨rfl, rfl⟩ := List.cons.inj heq
    exact ⟨hc, hv⟩
  · rintro ⟨hc, hw⟩
    exact ⟨[c], ⟨c, hc, rfl⟩, w, hw, rfl⟩

theorem nil_notMem_letter_mul {x : UInt8} {l : Language UInt8} : [] ∉ letter x * l := by
  rw [Language.mem_mul]
  rintro ⟨_, ⟨c, -, rfl⟩, v, -, heq⟩
  cases heq

theorem mem_letter_kstar {x : UInt8} {u : List UInt8} :
    u ∈ (letter x)∗ ↔ ∀ c ∈ u, x = dot ∨ x = c := by
  induction u with
  | nil => simp [Language.nil_mem_kstar]
  | cons c u ih =>
    rw [← Language.one_add_self_mul_kstar_eq_kstar, Language.mem_add, cons_mem_letter_mul, ih,
      Language.mem_one, List.forall_mem_cons]
    simp

/-! ### The matcher finds the words -/

variable {re text : List UInt8} {c x : UInt8}

/-- The loop of `matchstar` goes over characters that `c` stands for. -/
theorem matchstar_iff : matchstar c re text = true ↔
    ∃ u left, text = u ++ left ∧ u ∈ (letter c)∗ ∧ matchhere re left = true := by
  induction text with
  | nil =>
    rw [matchstar, Bool.or_false]
    constructor
    · intro h
      exact ⟨[], [], rfl, Language.nil_mem_kstar _, h⟩
    · rintro ⟨u, left, heq, -, h⟩
      obtain ⟨-, rfl⟩ := List.append_eq_nil_iff.1 heq.symm
      exact h
  | cons y text ih =>
    rw [matchstar, Bool.or_eq_true, Bool.and_eq_true, decide_eq_true_eq, ih]
    constructor
    · rintro (h | ⟨hy, u, left, rfl, hu, h⟩)
      · exact ⟨[], y :: text, rfl, Language.nil_mem_kstar _, h⟩
      · refine ⟨y :: u, left, rfl, ?_, h⟩
        rw [mem_letter_kstar] at hu ⊢
        exact List.forall_mem_cons.2 ⟨hy.symm.imp_right Eq.symm, hu⟩
    · rintro ⟨u, left, heq, hu, h⟩
      cases u with
      | nil =>
        rw [List.nil_append] at heq
        exact .inl (heq ▸ h)
      | cons z u =>
        obtain ⟨rfl, rfl⟩ := List.cons.inj heq
        rw [mem_letter_kstar, List.forall_mem_cons] at hu
        exact .inr ⟨hu.1.symm.imp_left Eq.symm, u, left, rfl, mem_letter_kstar.2 hu.2, h⟩

/-- A word of the pattern at the beginning of the text. -/
def Begins (is : List Item) (text : List UInt8) : Prop :=
  ∃ w behind, text = w ++ behind ∧ (.last ∈ is → behind = []) ∧ w ∈ (is.map Item.language).prod

theorem begins_nil : Begins [] text := by
  refine ⟨[], text, rfl, fun h => absurd h List.not_mem_nil, ?_⟩
  exact Language.nil_mem_one

theorem begins_last : Begins [.last] text ↔ text = [] := by
  constructor
  · rintro ⟨w, behind, rfl, hlast, hw⟩
    rw [List.map_singleton, List.prod_singleton, Item.language, Language.mem_one] at hw
    rw [hw, hlast List.mem_cons_self, List.append_nil]
  · rintro rfl
    refine ⟨[], [], rfl, fun _ => rfl, ?_⟩
    rw [List.map_singleton, List.prod_singleton]
    exact Language.nil_mem_one

theorem begins_star {is : List Item} : Begins (.star x :: is) text ↔
    ∃ u left, text = u ++ left ∧ u ∈ (letter x)∗ ∧ Begins is left := by
  have hlast : Item.last ∈ Item.star x :: is ↔ .last ∈ is := by simp
  constructor
  · rintro ⟨w, behind, rfl, hend, hw⟩
    rw [List.map_cons, List.prod_cons, Language.mem_mul] at hw
    obtain ⟨u, hu, v, hv, rfl⟩ := hw
    exact ⟨u, v ++ behind, List.append_assoc .., hu, v, behind, rfl, hend ∘ hlast.2, hv⟩
  · rintro ⟨u, _, rfl, hu, v, behind, rfl, hend, hv⟩
    refine ⟨u ++ v, behind, (List.append_assoc ..).symm, hend ∘ hlast.1, ?_⟩
    rw [List.map_cons, List.prod_cons]
    exact Language.append_mem_mul hu hv

theorem begins_one_nil {is : List Item} : ¬ Begins (.one x :: is) [] := by
  rintro ⟨w, behind, heq, -, hw⟩
  obtain ⟨rfl, -⟩ := List.append_eq_nil_iff.1 heq.symm
  rw [List.map_cons, List.prod_cons] at hw
  exact nil_notMem_letter_mul hw

theorem begins_one_cons {is : List Item} : Begins (.one x :: is) (c :: text) ↔
    (x = dot ∨ x = c) ∧ Begins is text := by
  have hlast : Item.last ∈ Item.one x :: is ↔ .last ∈ is := by simp
  constructor
  · rintro ⟨w, behind, heq, hend, hw⟩
    rw [List.map_cons, List.prod_cons] at hw
    cases w with
    | nil => exact absurd hw nil_notMem_letter_mul
    | cons d w =>
      obtain ⟨rfl, rfl⟩ := List.cons.inj heq
      obtain ⟨hx, hw⟩ := cons_mem_letter_mul.1 hw
      exact ⟨hx, w, behind, rfl, hend ∘ hlast.2, hw⟩
  · rintro ⟨hx, w, behind, rfl, hend, hw⟩
    refine ⟨c :: w, behind, rfl, hend ∘ hlast.1, ?_⟩
    rw [List.map_cons, List.prod_cons]
    exact cons_mem_letter_mul.2 ⟨hx, hw⟩

/-- By the length of the pattern; `matchstar` takes two characters off it. -/
theorem matchhere_iff (re text : List UInt8) : matchhere re text = true ↔ Begins (items re) text := by
  induction h : re.length using Nat.strong_induction_on generalizing re text with
  | _ n ih =>
    subst h
    cases re with
    | nil =>
      rw [matchhere, items]
      exact ⟨fun _ => begins_nil, fun _ => rfl⟩
    | cons x re =>
      rw [matchhere.eq_def, items]
      dsimp only
      split_ifs with hstar hlast
      · have hlen : re.tail.length < (x :: re).length := by
          rw [List.length_tail, List.length_cons]
          omega
        rw [matchstar_iff, begins_star]
        simp only [ih _ hlen re.tail _ rfl]
      · rw [begins_last, decide_eq_true_eq]
      · cases text with
        | nil => exact ⟨fun h => absurd h Bool.false_ne_true, fun h => absurd h begins_one_nil⟩
        | cons c text =>
          dsimp only
          rw [begins_one_cons, Bool.and_eq_true, decide_eq_true_eq,
            ih _ (Nat.lt_succ_self _) re text rfl]

theorem matchLoop_iff : matchLoop re text = true ↔
    ∃ front left, text = front ++ left ∧ matchhere re left = true := by
  induction text with
  | nil =>
    rw [matchLoop]
    constructor
    · intro h
      exact ⟨[], [], rfl, h⟩
    · rintro ⟨front, left, heq, h⟩
      obtain ⟨-, rfl⟩ := List.append_eq_nil_iff.1 heq.symm
      exact h
  | cons x text ih =>
    rw [matchLoop, Bool.or_eq_true, ih]
    constructor
    · rintro (h | ⟨front, left, rfl, h⟩)
      · exact ⟨[], x :: text, rfl, h⟩
      · exact ⟨x :: front, left, rfl, h⟩
    · rintro ⟨front, left, heq, h⟩
      cases front with
      | nil => exact .inl (heq ▸ h)
      | cons y front =>
        obtain ⟨-, rfl⟩ := List.cons.inj heq
        exact .inr ⟨front, left, rfl, h⟩

/-- `match` always ends, and it returns 1 just when the pattern matches the text. -/
theorem matchText_iff (re text : List UInt8) : matchText re text = true ↔ Matches re text := by
  rw [matchText, Matches]
  split_ifs with hcaret
  · rw [matchhere_iff]
    constructor
    · rintro ⟨w, behind, rfl, hlast, hw⟩
      exact ⟨[], w, behind, rfl, fun _ => rfl, hlast, hw⟩
    · rintro ⟨front, w, behind, rfl, hfront, hlast, hw⟩
      rw [hfront hcaret, List.nil_append]
      exact ⟨w, behind, rfl, hlast, hw⟩
  · rw [matchLoop_iff]
    constructor
    · rintro ⟨front, left, rfl, h⟩
      obtain ⟨w, behind, rfl, hlast, hw⟩ := (matchhere_iff re left).1 h
      exact ⟨front, w, behind, (List.append_assoc ..).symm, fun h => absurd h hcaret, hlast, hw⟩
    · rintro ⟨front, w, behind, rfl, -, hlast, hw⟩
      exact ⟨front, w ++ behind, List.append_assoc .., (matchhere_iff re _).2
        ⟨w, behind, rfl, hlast, hw⟩⟩

end Xv6Container.Grep
