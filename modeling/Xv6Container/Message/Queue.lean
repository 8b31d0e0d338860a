import Mathlib.Data.Fin.Tuple.Basic
import Mathlib.Data.Int.Basic
import Mathlib.Data.List.Nodup
import Xv6Container.Lib.Path
import Xv6Container.Lib.Numerals

/-! The message queues of `xv6/proc.c`: circular lists of nodes, one page of memory for
each node, with a pointer to the first and to the last one. `enQueue` does not test the
page it gets from `kalloc`. A null page drops the message, and on a queue in use it also
cuts the circle open: the pointer to the last node becomes null, and whatever is queued
later cannot be reached from the front any more. Both shapes are represented here, and
every operation on one queue of a family keeps all of them. -/

namespace Xv6Container.Message

open Lib

/-! ### Memory and operations -/

abbrev MSGSIZE : ℕ := 8

/-- The bytes of a message. -/
abbrev Msg := Vector UInt8 MSGSIZE

/-- A page by its kernel address. A pointer that may be `NULL` is an `Option Page`. -/
abbrev Page := ℕ

structure Node where
  msg : Msg
  link : Option Page

/-- The pages used for nodes: their contents, and which of them are allocated. -/
structure Mem where
  node : Page → Node
  used : Page → Bool

structure Queue where
  front : Option Page
  rear : Option Page
  deriving DecidableEq

namespace Mem

def link (m : Mem) (p : Page) : Option Page := (m.node p).link

def msg (m : Mem) (p : Page) : Msg := (m.node p).msg

/-- The page is handed out by `kalloc`. -/
def kalloc (m : Mem) : Option Page → Mem
  | none => m
  | some p => { m with used := Function.update m.used p true }

/-- Free a page; `kfree` fills it with ones. -/
def kfree (m : Mem) (p : Page) : Mem where
  node := Function.update m.node p ⟨Vector.replicate MSGSIZE 1, some 0x01010101⟩
  used := Function.update m.used p false

/-- A store to a message through a pointer. Through a null pointer it goes to page 0 of
the calling process and not to a node. -/
def setMsg (m : Mem) : Option Page → Msg → Mem
  | none, _ => m
  | some p, v => { m with node := Function.update m.node p { m.node p with msg := v } }

/-- A store to a link through a pointer. -/
def setLink (m : Mem) : Option Page → Option Page → Mem
  | none, _ => m
  | some p, v => { m with node := Function.update m.node p { m.node p with link := v } }

end Mem

/-- `temp` is the answer of `kalloc`. -/
def enQueue (m : Mem) (q : Queue) (msg : Msg) (temp : Option Page) : Mem × Queue :=
  let m := (m.kalloc temp).setMsg temp msg
  let (m, front) := if q.front = none then (m, temp) else (m.setLink q.rear temp, q.front)
  (m.setLink temp front, ⟨front, temp⟩)

/-- `none` is the return value -1 of `deQueue`; else the message is copied out. -/
def deQueue (m : Mem) (q : Queue) : Option (Msg × Mem × Queue) :=
  match q.front with
  | none => none
  | some p =>
    if q.front = q.rear then some (m.msg p, m.kfree p, ⟨none, none⟩)
    else some (m.msg p, (m.setLink q.rear (m.link p)).kfree p, ⟨m.link p, q.rear⟩)

theorem deQueue_eq_none {m : Mem} {q : Queue} : deQueue m q = none ↔ q.front = none := by
  unfold deQueue
  split
  next h => simp [h]
  next p h => split_ifs <;> simp [h]

theorem enQueue_of_empty {m : Mem} {q : Queue} {msg : Msg} {temp : Option Page}
    (h : q.front = none) : enQueue m q msg temp =
      (((m.kalloc temp).setMsg temp msg).setLink temp temp, ⟨temp, temp⟩) := by
  simp only [enQueue, h, if_true]

theorem enQueue_of_front {m : Mem} {q : Queue} {msg : Msg} {temp : Option Page}
    (h : q.front ≠ none) : enQueue m q msg temp =
      ((((m.kalloc temp).setMsg temp msg).setLink q.rear temp).setLink temp q.front,
        ⟨q.front, temp⟩) := by
  simp only [enQueue, h, if_false]

/-- `enQueue` never empties a queue. -/
theorem enQueue_front {m : Mem} {q : Queue} {msg : Msg} {temp : Option Page} (h : q.front ≠ none) :
    (enQueue m q msg temp).2.front ≠ none := by
  rw [enQueue_of_front h]
  exact h

/-! ### Frames -/

section Frames
variable {m : Mem} {a v : Option Page} {w : Msg} {p q : Page}

@[simp] theorem Mem.link_kalloc : (m.kalloc a).link = m.link := by cases a <;> rfl

@[simp] theorem Mem.msg_kalloc : (m.kalloc a).msg = m.msg := by cases a <;> rfl

@[simp] theorem Mem.link_setMsg : (m.setMsg a w).link = m.link := by
  cases a with
  | none => rfl
  | some p =>
    funext q
    simp only [Mem.link, Mem.setMsg, Function.update_apply]
    split_ifs with hq
    · rw [hq]
    · rfl

@[simp] theorem Mem.used_setMsg : (m.setMsg a w).used = m.used := by cases a <;> rfl

@[simp] theorem Mem.used_setLink : (m.setLink a v).used = m.used := by cases a <;> rfl

@[simp] theorem Mem.msg_setLink : (m.setLink a v).msg = m.msg := by
  cases a with
  | none => rfl
  | some p =>
    funext q
    simp only [Mem.msg, Mem.setLink, Function.update_apply]
    split_ifs with hq
    · rw [hq]
    · rfl

theorem Mem.link_setLink : (m.setLink (some p) v).link = Function.update m.link p v := by
  funext q
  simp only [Mem.link, Mem.setLink, Function.update_apply]
  split_ifs <;> rfl

theorem Mem.link_setLink_of_ne (h : a ≠ some q) : (m.setLink a v).link q = m.link q := by
  cases a with
  | none => rfl
  | some p =>
    rw [link_setLink, Function.update_of_ne]
    rintro rfl
    exact h rfl

theorem Mem.msg_setMsg_self : (m.setMsg (some p) w).msg p = w := by
  simp [Mem.msg, Mem.setMsg]

theorem Mem.used_kalloc : (m.kalloc a).used q = true ↔ m.used q = true ∨ a = some q := by
  cases a with
  | none => simp [Mem.kalloc]
  | some p =>
    simp only [Mem.kalloc, Function.update_apply, Option.some.injEq]
    split_ifs with hq
    · simp [hq]
    · simp [Ne.symm hq]

theorem Mem.link_kfree_of_ne (h : q ≠ p) : (m.kfree p).link q = m.link q := by
  simp [Mem.link, Mem.kfree, h]

theorem Mem.msg_kfree_of_ne (h : q ≠ p) : (m.kfree p).msg q = m.msg q := by
  simp [Mem.msg, Mem.kfree, h]

theorem Mem.used_kfree_of_ne (h : q ≠ p) : (m.kfree p).used q = m.used q := by
  simp [Mem.kfree, h]

end Frames

section Contents
variable {m : Mem} {q : Queue} {msg : Msg} {p r : Page}

theorem Mem.msg_setMsg : (m.setMsg (some p) msg).msg = Function.update m.msg p msg := by
  funext r
  simp only [Mem.msg, Mem.setMsg, Function.update_apply]
  split_ifs <;> rfl

/-- `enQueue` writes one message. -/
theorem enQueue_msg : (enQueue m q msg (some p)).1.msg = Function.update m.msg p msg := by
  by_cases hf : q.front = none
  · rw [enQueue_of_empty hf, Mem.msg_setLink, Mem.msg_setMsg, Mem.msg_kalloc]
  · rw [enQueue_of_front hf, Mem.msg_setLink, Mem.msg_setLink, Mem.msg_setMsg, Mem.msg_kalloc]

theorem enQueue_used :
    (enQueue m q msg (some p)).1.used r = true ↔ m.used r = true ∨ some p = some r := by
  by_cases hf : q.front = none
  · rw [enQueue_of_empty hf, Mem.used_setLink, Mem.used_setMsg, Mem.used_kalloc]
  · rw [enQueue_of_front hf, Mem.used_setLink, Mem.used_setLink, Mem.used_setMsg, Mem.used_kalloc]

theorem enQueue_rear : (enQueue m q msg (some p)).2.rear = some p := rfl

end Contents

/-! ### Rings -/

section Ring
variable {m : Mem} {q : Queue} {l : List Page} {x y p : Page}

/-- A new node closes the ring behind the old last one. -/
theorem ring_enQueue (path : Path m.link q.front (l ++ [x]) q.front) (rear : q.rear = some x)
    (hx : x ∉ l) (hp : p ∉ l ++ [x]) (msg : Msg) :
    Path (enQueue m q msg (some p)).1.link q.front (l ++ [x] ++ [p]) q.front := by
  have hfront : q.front ≠ none := by
    intro hf
    rw [hf] at path
    exact absurd path.eq_nil (by simp)
  rw [enQueue_of_front hfront, rear, Mem.link_setLink, Mem.link_setLink, Mem.link_setMsg,
    Mem.link_kalloc, Path.concat_iff]
  refine ⟨(path.redirect hx (some p)).congr fun r hr => ?_, Function.update_self _ _ _⟩
  rw [Function.update_of_ne]
  rintro rfl
  exact hp hr

/-- The ring without its first node. -/
theorem ring_deQueue (path : Path m.link q.front (x :: (l ++ [y])) q.front) (hy : y ∉ l)
    (hx : x ∉ l ++ [y]) :
    Path ((m.setLink (some y) (m.link x)).kfree x).link (m.link x) (l ++ [y]) (m.link x) := by
  refine (path.2.redirect hy (m.link x)).congr fun r hr => ?_
  have hrx : r ≠ x := by
    rintro rfl
    exact hx hr
  rw [Mem.link_kfree_of_ne hrx, Mem.link_setLink]

end Ring

/-! ### Representation -/

/-- The nodes of a queue from front to rear: none, a circle, or a circle that has been
cut open after its last node. -/
inductive Rep (m : Mem) (q : Queue) : List Page → Prop
  | empty (front : q.front = none) : Rep m q []
  | ring (l : List Page) (x : Page) (path : Path m.link q.front (l ++ [x]) q.front)
      (rear : q.rear = some x) (nodup : (l ++ [x]).Nodup) (used : ∀ p ∈ l ++ [x], m.used p = true) :
      Rep m q (l ++ [x])
  | cut (x : Page) (l : List Page) (path : Path m.link q.front (x :: l) none)
      (rear : ∀ y, q.rear = some y → y ∉ x :: l ∧ m.used y = true) (nodup : (x :: l).Nodup)
      (used : ∀ p ∈ x :: l, m.used p = true) : Rep m q (x :: l)

namespace Rep

variable {m m' : Mem} {q : Queue} {l : List Page} {x : Page}

theorem nil_iff_front (h : Rep m q l) : l = [] ↔ q.front = none := by
  cases h with
  | empty front => simp [front]
  | ring l x path =>
    refine ⟨fun h => absurd h (by simp), fun h => ?_⟩
    rw [h] at path
    exact path.eq_nil
  | cut x l path => simp [path.1]

theorem front_cons (h : Rep m q (x :: l)) : q.front = some x := by
  generalize hl : x :: l = l' at h
  cases h with
  | empty => cases hl
  | ring l₁ y path =>
    rw [← hl] at path
    exact path.1
  | cut y l₁ path =>
    rw [← hl] at path
    exact path.1

theorem used (h : Rep m q l) {p : Page} (hp : p ∈ l) : m.used p = true := by
  cases h with
  | empty => cases hp
  | ring _ _ _ _ _ used => exact used p hp
  | cut _ _ _ _ _ used => exact used p hp

theorem used_rear (h : Rep m q l) (hl : l ≠ []) {y : Page} (hy : q.rear = some y) :
    m.used y = true := by
  cases h with
  | empty => exact absurd rfl hl
  | ring l x _ rear _ used =>
    rw [rear] at hy
    cases hy
    exact used y (by simp)
  | cut _ _ _ rear => exact (rear y hy).2

/-- Only the links of the nodes and the allocation of nodes and rear matter. -/
theorem congr (h : Rep m q l) (hlink : ∀ p ∈ l, m'.link p = m.link p)
    (hused : ∀ p, p ∈ l ∨ l ≠ [] ∧ q.rear = some p → m'.used p = true) : Rep m' q l := by
  cases h with
  | empty front => exact .empty front
  | ring l x path rear nodup used =>
    exact .ring l x (path.congr hlink) rear nodup fun p hp => hused p (.inl hp)
  | cut x l path rear nodup used =>
    exact .cut x l (path.congr hlink)
      (fun y hy => ⟨(rear y hy).1, hused y (.inr ⟨by simp, hy⟩)⟩) nodup
      fun p hp => hused p (.inl hp)

/-- A queued node is added at the end, or it is lost. -/
theorem enQueue (h : Rep m q l) (msg : Msg) {temp : Option Page}
    (hfresh : ∀ p, temp = some p → m.used p = false) :
    ∃ l', Rep (Message.enQueue m q msg temp).1 (Message.enQueue m q msg temp).2 l' ∧
      (l' = l ∨ ∃ p, temp = some p ∧ l' = l ++ [p]) := by
  have hnew : ∀ p ∈ l, temp ≠ some p := by
    intro p hp ht
    have := hfresh p ht
    rw [h.used hp] at this
    cases this
  cases h with
  | empty front =>
    rw [enQueue_of_empty front]
    cases temp with
    | none => exact ⟨[], .empty rfl, .inl rfl⟩
    | some p =>
      refine ⟨[] ++ [p], .ring [] p ?_ rfl (by simp) fun q hq => ?_, .inr ⟨p, rfl, rfl⟩⟩
      · simp [Mem.link_setLink]
      · simp only [List.nil_append, List.mem_singleton] at hq
        simp [Mem.used_kalloc, hq]
  | ring l x path rear nodup used =>
    have hfront : q.front ≠ none := by
      intro hf
      rw [hf] at path
      exact absurd path.eq_nil (by simp)
    have hx : x ∉ l := fun hx => by
      rw [List.nodup_append] at nodup
      exact nodup.2.2 x hx x (by simp) rfl
    have hpath := path.redirect hx temp
    rw [enQueue_of_front hfront, rear]
    cases temp with
    | none =>
      -- the last node now links to nothing
      obtain ⟨f, hf⟩ := Option.ne_none_iff_exists'.mp hfront
      have hcut : Path (m.setLink (some x) none).link q.front (l ++ [x]) none := by
        rw [Mem.link_setLink]
        exact hpath
      refine ⟨l ++ [x], ?_, .inl rfl⟩
      generalize hl : l ++ [x] = l' at *
      cases l' with
      | nil => simp at hl
      | cons y l₁ =>
        exact .cut y l₁ hcut (fun z hz => nomatch hz) nodup fun p hp => by
          simpa [Mem.setMsg, Mem.kalloc, Mem.setLink] using used p hp
    | some p =>
      have hp : p ∉ l ++ [x] := fun hp => hnew p hp rfl
      refine ⟨l ++ [x] ++ [p], .ring (l ++ [x]) p ?_ rfl ?_ ?_, .inr ⟨p, rfl, rfl⟩⟩
      · have hring := ring_enQueue path rear hx hp msg
        rw [enQueue_of_front hfront, rear] at hring
        exact hring
      · exact List.nodup_append.mpr ⟨nodup, by simp, fun a ha b hb => by
          rw [List.mem_singleton] at hb
          rintro rfl
          exact hp (hb ▸ ha)⟩
      · intro r hr
        rw [List.mem_append, List.mem_singleton] at hr
        rcases hr with hr | rfl
        · simp [Mem.used_kalloc, used r hr]
        · simp [Mem.used_kalloc]
  | cut x l path rear nodup used =>
    have hfront : q.front ≠ none := by rw [path.1]; exact nofun
    rw [enQueue_of_front hfront]
    have hrear : ∀ r ∈ x :: l, q.rear ≠ some r := fun r hr hy => (rear r hy).1 hr
    refine ⟨x :: l, .cut x l ?_ (fun y hy => ⟨fun hm => hnew y hm hy, ?_⟩) nodup fun r hr => ?_,
      .inl rfl⟩
    · refine path.congr fun r hr => ?_
      rw [Mem.link_setLink_of_ne (hnew r hr), Mem.link_setLink_of_ne (hrear r hr),
        Mem.link_setMsg, Mem.link_kalloc]
    · have hy' : temp = some y := hy
      simp [Mem.used_kalloc, hy']
    · simp [Mem.used_kalloc, used r hr]

/-- `deQueue` takes the first node of a queue in use. -/
theorem deQueue (h : Rep m q (x :: l)) :
    ∃ m' q', Message.deQueue m q = some (m.msg x, m', q') ∧ Rep m' q' l ∧
      (∀ p, p ≠ x → m'.used p = m.used p) ∧ m'.used x = false ∧
      (∀ p, p ≠ x → q.rear ≠ some p → m'.link p = m.link p) ∧
      (∀ p, p ≠ x → m'.msg p = m.msg p) ∧ (q'.rear = none ∨ q'.rear = q.rear) := by
  have hfront := h.front_cons
  by_cases hlast : q.front = q.rear
  · -- the only node
    refine ⟨m.kfree x, ⟨none, none⟩, ?_, ?_, fun p hp => Mem.used_kfree_of_ne hp, by simp [Mem.kfree],
      fun p hp _ => Mem.link_kfree_of_ne hp, fun p hp => Mem.msg_kfree_of_ne hp, .inl rfl⟩
    · unfold Message.deQueue
      rw [hfront] at hlast ⊢
      simp [hlast]
    · suffices hl : l = [] by
        rw [hl]
        exact .empty rfl
      rw [hfront] at hlast
      generalize hl' : x :: l = l' at h
      cases h with
      | empty => cases hl'
      | ring l₁ y path rear nodup used =>
        rw [rear, Option.some.injEq] at hlast
        subst hlast
        cases l₁ with
        | nil => simpa using hl'
        | cons z l₁ =>
          simp only [List.cons_append, List.cons.injEq] at hl'
          obtain ⟨rfl, -⟩ := hl'
          simp at nodup
      | cut y l₁ path rear nodup used =>
        obtain ⟨rfl, rfl⟩ := List.cons.inj hl'
        exact absurd List.mem_cons_self (rear x hlast.symm).1
  · have hrear : q.rear ≠ some x := by
      intro hx
      exact hlast (hfront.trans hx.symm)
    refine ⟨(m.setLink q.rear (m.link x)).kfree x, ⟨m.link x, q.rear⟩, ?_, ?_,
      fun p hp => by rw [Mem.used_kfree_of_ne hp, Mem.used_setLink], by simp [Mem.kfree],
      fun p hp hr => by rw [Mem.link_kfree_of_ne hp, Mem.link_setLink_of_ne hr],
      fun p hp => by rw [Mem.msg_kfree_of_ne hp, Mem.msg_setLink], .inr rfl⟩
    · unfold Message.deQueue
      rw [hfront] at hlast ⊢
      simp [hlast]
    · generalize hl' : x :: l = l' at h
      cases h with
      | empty => cases hl'
      | ring l₁ y path rear nodup used =>
        cases l₁ with
        | nil =>
          obtain ⟨rfl, -⟩ := List.cons.inj hl'
          exact absurd rear hrear
        | cons z l₁ =>
          obtain ⟨rfl, rfl⟩ := List.cons.inj hl'
          rw [List.cons_append, List.nodup_cons] at nodup
          have hy : y ∉ l₁ := fun hy => by
            rw [List.nodup_append] at nodup
            exact nodup.2.2.2 y hy y (by simp) rfl
          refine .ring l₁ y ?_ rear nodup.2 fun p hp => ?_
          · rw [rear]
            exact ring_deQueue path hy nodup.1
          · have hpx : p ≠ x := by
              rintro rfl
              exact nodup.1 hp
            rw [Mem.used_kfree_of_ne hpx, Mem.used_setLink]
            exact used p (List.mem_cons_of_mem x hp)
      | cut y l₁ path rear nodup used =>
        obtain ⟨rfl, rfl⟩ := List.cons.inj hl'
        have hpath : Path ((m.setLink q.rear (m.link x)).kfree x).link (m.link x) l none := by
          refine path.2.congr fun p hp => ?_
          have hpx : p ≠ x := by
            rintro rfl
            exact (List.nodup_cons.mp nodup).1 hp
          rw [Mem.link_kfree_of_ne hpx, Mem.link_setLink_of_ne]
          exact fun hr => (rear p hr).1 (List.mem_cons_of_mem x hp)
        have hkept : ∀ p, p ≠ x → m.used p = true →
            ((m.setLink q.rear (m.link x)).kfree x).used p = true := by
          intro p hpx hp
          rw [Mem.used_kfree_of_ne hpx, Mem.used_setLink, hp]
        cases l with
        | nil => exact .empty hpath
        | cons z l₁ =>
          refine .cut z l₁ hpath (fun w hw => ⟨fun hm => ?_, ?_⟩) (List.nodup_cons.mp nodup).2
            fun p hp => hkept p ?_ (used p (List.mem_cons_of_mem x hp))
          · exact (rear w hw).1 (List.mem_cons_of_mem x hm)
          · refine hkept w ?_ (rear w hw).2
            rintro rfl
            exact (rear w hw).1 List.mem_cons_self
          · rintro rfl
            exact (List.nodup_cons.mp nodup).1 hp

end Rep

/-! ### A family of queues in one memory -/

/-- Every queue has its nodes, and no node is in two queues or the rear of another. -/
structure Queues {ι : Type} (m : Mem) (q : ι → Queue) (l : ι → List Page) : Prop where
  rep : ∀ i, Rep m (q i) (l i)
  apart : ∀ i j, i ≠ j → ∀ p ∈ l i, p ∉ l j
  rear : ∀ i j, i ≠ j → l i ≠ [] → ∀ p, (q i).rear = some p → p ∉ l j

namespace Queues

variable {ι : Type} [DecidableEq ι] {m : Mem} {q : ι → Queue} {l : ι → List Page} {i : ι}

/-- One queue changes, and with it only links of its own nodes and rear. -/
theorem update (h : Queues m q l) {m' : Mem} {qi : Queue} {li : List Page} (hrep : Rep m' qi li)
    (hnew : ∀ p ∈ li, p ∈ l i ∨ m.used p = false)
    (hrear : li ≠ [] → ∀ p, qi.rear = some p → (l i ≠ [] ∧ (q i).rear = some p) ∨ m.used p = false)
    (hused : ∀ p, p ∉ l i → m.used p = true → m'.used p = true)
    (hlink : ∀ p, p ∉ l i → m.used p = true → (l i ≠ [] → (q i).rear ≠ some p) →
      m'.link p = m.link p) :
    Queues m' (Function.update q i qi) (Function.update l i li) := by
  -- a page that is new to this queue is in no other
  have hfree : ∀ j p, m.used p = false → p ∉ l j := by
    intro j p hp hmem
    rw [(h.rep j).used hmem] at hp
    cases hp
  have hother : ∀ j, j ≠ i → Rep m' (q j) (l j) := by
    intro j hj
    refine (h.rep j).congr (fun p hp => ?_) fun p hp => ?_
    · exact hlink p (h.apart j i hj p hp) ((h.rep j).used hp)
        fun hne hr => h.rear i j (Ne.symm hj) hne p hr hp
    · rcases hp with hp | ⟨hne, hr⟩
      · exact hused p (h.apart j i hj p hp) ((h.rep j).used hp)
      · exact hused p (h.rear j i hj hne p hr) ((h.rep j).used_rear hne hr)
  refine ⟨fun j => ?_, fun j k hjk p hp => ?_, fun j k hjk hne p hp => ?_⟩
  · by_cases hj : j = i
    · subst hj
      simpa using hrep
    · simpa [hj] using hother j hj
  · by_cases hj : j = i
    · have hk : k ≠ i := fun hk => hjk (hj.trans hk.symm)
      rw [Function.update_of_ne hk]
      rw [hj, Function.update_self] at hp
      rcases hnew p hp with hold | hfresh
      · exact h.apart i k (Ne.symm hk) p hold
      · exact hfree k p hfresh
    · rw [Function.update_of_ne hj] at hp
      by_cases hk : k = i
      · rw [hk, Function.update_self]
        intro hmem
        rcases hnew p hmem with hold | hfresh
        · exact h.apart j i hj p hp hold
        · exact hfree j p hfresh hp
      · rw [Function.update_of_ne hk]
        exact h.apart j k hjk p hp
  · by_cases hj : j = i
    · have hk : k ≠ i := fun hk => hjk (hj.trans hk.symm)
      rw [Function.update_of_ne hk]
      rw [hj, Function.update_self] at hne hp
      rcases hrear hne p hp with ⟨hl, hr⟩ | hfresh
      · exact h.rear i k (Ne.symm hk) hl p hr
      · exact hfree k p hfresh
    · rw [Function.update_of_ne hj] at hne hp
      by_cases hk : k = i
      · rw [hk, Function.update_self]
        intro hmem
        rcases hnew p hmem with hold | hfresh
        · exact h.rear j i hj hne p hp hold
        · rw [(h.rep j).used_rear hne hp] at hfresh
          cases hfresh
      · rw [Function.update_of_ne hk]
        exact h.rear j k hjk hne p hp

/-- `enQueue` on one queue. -/
theorem enQueue (h : Queues m q l) (i : ι) (msg : Msg) {temp : Option Page}
    (hfresh : ∀ p, temp = some p → m.used p = false) :
    ∃ li, Queues (Message.enQueue m (q i) msg temp).1
        (Function.update q i (Message.enQueue m (q i) msg temp).2) (Function.update l i li) ∧
      (li = l i ∨ ∃ p, temp = some p ∧ li = l i ++ [p]) := by
  obtain ⟨li, hrep, hli⟩ := (h.rep i).enQueue msg hfresh
  refine ⟨li, h.update hrep (fun p hp => ?_) (fun _ p hp => .inr ?_) (fun p _ hp => ?_)
    fun p hmem hp hne => ?_, hli⟩
  · rcases hli with rfl | ⟨r, hr, rfl⟩
    · exact .inl hp
    · rw [List.mem_append, List.mem_singleton] at hp
      rcases hp with hp | rfl
      · exact .inl hp
      · exact .inr (hfresh p hr)
  · refine hfresh p ?_
    by_cases hf : (q i).front = none
    · rw [enQueue_of_empty hf] at hp
      exact hp
    · rw [enQueue_of_front hf] at hp
      exact hp
  · by_cases hf : (q i).front = none
    · rw [enQueue_of_empty hf]
      simp [Mem.used_kalloc, hp]
    · rw [enQueue_of_front hf]
      simp [Mem.used_kalloc, hp]
  · have htemp : temp ≠ some p := by
      intro ht
      rw [hfresh p ht] at hp
      cases hp
    by_cases hf : (q i).front = none
    · rw [enQueue_of_empty hf]
      simp [Mem.link_setLink_of_ne htemp]
    · have hl : l i ≠ [] := by rwa [Ne, (h.rep i).nil_iff_front]
      rw [enQueue_of_front hf]
      simp [Mem.link_setLink_of_ne htemp, Mem.link_setLink_of_ne (hne hl)]

/-- `deQueue` on one queue. -/
theorem deQueue (h : Queues m q l) {x : Page} {li : List Page} (hl : l i = x :: li) :
    ∃ m' qi, Message.deQueue m (q i) = some (m.msg x, m', qi) ∧
      Queues m' (Function.update q i qi) (Function.update l i li) := by
  have hrep := h.rep i
  rw [hl] at hrep
  obtain ⟨m', qi, hdeq, hrep', hused, -, hlink, -, hrear⟩ := hrep.deQueue
  have hx : ∀ p, p ∉ l i → p ≠ x := by
    rintro p hp rfl
    rw [hl] at hp
    exact hp List.mem_cons_self
  refine ⟨m', qi, hdeq, h.update hrep' (fun p hp => .inl ?_) (fun _ p hp => .inl ?_)
    (fun p hp hu => ?_) fun p hp _ hne => ?_⟩
  · rw [hl]
    exact List.mem_cons_of_mem x hp
  · rcases hrear with hr | hr
    · rw [hr] at hp; cases hp
    · exact ⟨by rw [hl]; simp, by rw [← hr, hp]⟩
  · rw [hused p (hx p hp), hu]
  · exact hlink p (hx p hp) (hne (by rw [hl]; simp))

end Queues

end Xv6Container.Message
