import Xv6Container.Lib.Ends
import Xv6Container.Message.Queue

/-! One queue, access by access: each read and each store goes through a pointer, and fails if the
pointer is null or its page is not allocated. With a fresh page from every `kalloc` no access fails,
the queue is a ring of the nodes that are allocated and not yet freed, and the calls answer as a list
of messages does. -/

namespace Xv6Container.Message.Nodes

open Lib

/-! ### The program -/

/-- Why an access fails. -/
inductive Fault where
  | null
  | freed (p : Page)

/-- The memory of the nodes and the queue; how often each page has been allocated and freed is
counted. -/
structure State where
  mem : Mem
  queue : Queue
  allocs : Page → ℕ
  frees : Page → ℕ

abbrev M := EStateM Fault State

/-- Follow a pointer. -/
def deref : Option Page → M Page
  | none => throw .null
  | some p => do
    let s ← get
    if s.mem.used p then pure p else throw (.freed p)

def readByte (a : Option Page) (loc : Fin MSGSIZE) : M UInt8 := do
  let p ← deref a
  let s ← get
  return (s.mem.msg p)[loc]

def writeByte (a : Option Page) (loc : Fin MSGSIZE) (b : UInt8) : M PUnit := do
  let p ← deref a
  modify fun s => { s with mem := s.mem.setMsg (some p) ((s.mem.msg p).set loc b) }

def readLink (a : Option Page) : M (Option Page) := do
  let p ← deref a
  let s ← get
  return s.mem.link p

def writeLink (a v : Option Page) : M PUnit := do
  let p ← deref a
  modify fun s => { s with mem := s.mem.setLink (some p) v }

/-- `page` is the answer. -/
def kalloc (page : Page) : M PUnit :=
  modify fun s => { s with
    mem := s.mem.kalloc (some page)
    allocs := Function.update s.allocs page (s.allocs page + 1) }

def kfree (a : Option Page) : M PUnit := do
  let p ← deref a
  modify fun s => { s with
    mem := s.mem.kfree p
    frees := Function.update s.frees p (s.frees p + 1) }

def setFront (a : Option Page) : M PUnit :=
  modify fun s => { s with queue := ⟨a, s.queue.rear⟩ }

def setRear (a : Option Page) : M PUnit :=
  modify fun s => { s with queue := ⟨s.queue.front, a⟩ }

/-- `while(loc < MSGSIZE){ temp->msg[loc] = msg[loc]; loc++; }`, for the first `n` bytes. -/
def copyIn (a : Option Page) (msg : Msg) : (n : ℕ) → n ≤ MSGSIZE → M PUnit
  | 0, _ => pure ⟨⟩
  | n + 1, h => do
    copyIn a msg n (by omega)
    writeByte a ⟨n, h⟩ msg[n]

/-- `while(loc < MSGSIZE){ msg[loc] = temp->msg[loc]; loc++; }`, for the first `n` bytes. -/
def copyOut (a : Option Page) (buf : Msg) : (n : ℕ) → n ≤ MSGSIZE → M Msg
  | 0, _ => pure buf
  | n + 1, h => do
    let buf ← copyOut a buf n (by omega)
    let b ← readByte a ⟨n, h⟩
    return buf.set n b

def enQueue (msg : Msg) (page : Page) : M PUnit := do
  kalloc page
  let temp := some page
  copyIn temp msg MSGSIZE le_rfl
  let s ← get
  if s.queue.front = none then setFront temp else writeLink s.queue.rear temp
  setRear temp
  let s ← get
  writeLink s.queue.rear s.queue.front

/-- `deQueue(q, msg)` returns its result and what is in `msg` after it. -/
def deQueue (buf : Msg) : M (ℤ × Msg) := do
  let s ← get
  if s.queue.front = none then return (-1, buf)
  if s.queue.front = s.queue.rear then
    let msg ← copyOut s.queue.front buf MSGSIZE le_rfl
    kfree s.queue.front
    setFront none
    setRear none
    return (0, msg)
  else
    let temp := s.queue.front
    let msg ← copyOut temp buf MSGSIZE le_rfl
    let next ← readLink temp
    setFront next
    let s ← get
    writeLink s.queue.rear s.queue.front
    kfree temp
    return (0, msg)

/-! ### Accesses -/

variable {s : State} {p : Page} {msg buf : Msg}

theorem deref_run (hp : s.mem.used p = true) : deref (some p) s = .ok p s := by
  simp only [deref, run_get_bind, hp, if_true, run_pure]

theorem readByte_run (hp : s.mem.used p = true) (loc : Fin MSGSIZE) :
    readByte (some p) loc s = .ok (s.mem.msg p)[loc] s := by
  rw [readByte, run_bind_ok (deref_run hp)]
  rfl

theorem writeByte_run (hp : s.mem.used p = true) (loc : Fin MSGSIZE) (b : UInt8) :
    writeByte (some p) loc b s =
      .ok ⟨⟩ { s with mem := s.mem.setMsg (some p) ((s.mem.msg p).set loc b) } := by
  rw [writeByte, run_bind_ok (deref_run hp)]
  rfl

theorem readLink_run (hp : s.mem.used p = true) :
    readLink (some p) s = .ok (s.mem.link p) s := by
  rw [readLink, run_bind_ok (deref_run hp)]
  rfl

theorem writeLink_run (hp : s.mem.used p = true) (v : Option Page) :
    writeLink (some p) v s = .ok ⟨⟩ { s with mem := s.mem.setLink (some p) v } := by
  rw [writeLink, run_bind_ok (deref_run hp)]
  rfl

theorem kalloc_run (s : State) (p : Page) :
    kalloc p s = .ok ⟨⟩ { s with
      mem := s.mem.kalloc (some p), allocs := Function.update s.allocs p (s.allocs p + 1) } := rfl

theorem setFront_run (s : State) (a : Option Page) :
    setFront a s = .ok ⟨⟩ { s with queue := ⟨a, s.queue.rear⟩ } := rfl

theorem setRear_run (s : State) (a : Option Page) :
    setRear a s = .ok ⟨⟩ { s with queue := ⟨s.queue.front, a⟩ } := rfl

theorem kfree_run (hp : s.mem.used p = true) :
    kfree (some p) s = .ok ⟨⟩ { s with
      mem := s.mem.kfree p, frees := Function.update s.frees p (s.frees p + 1) } := by
  rw [kfree, run_bind_ok (deref_run hp)]
  rfl

/-- Two stores to one message. -/
theorem setMsg_setMsg (m : Mem) (v w : Msg) :
    (m.setMsg (some p) v).setMsg (some p) w = m.setMsg (some p) w := by
  simp [Mem.setMsg]

theorem copyIn_run (hp : s.mem.used p = true) (msg : Msg) (n : ℕ) (hn : n ≤ MSGSIZE) :
    ∃ v : Msg, copyIn (some p) msg n hn s = .ok ⟨⟩ { s with mem := s.mem.setMsg (some p) v } ∧
      ∀ k (h : k < MSGSIZE), k < n → v[k] = msg[k] := by
  induction n with
  | zero =>
    refine ⟨s.mem.msg p, ?_, fun k _ hk => absurd hk (by omega)⟩
    simp [copyIn, Mem.setMsg, Mem.msg]
  | succ n ih =>
    obtain ⟨v, hv, hbytes⟩ := ih (by omega)
    have hused : (s.mem.setMsg (some p) v).used p = true := by rw [Mem.used_setMsg, hp]
    refine ⟨v.set n msg[n], ?_, fun k h hk => ?_⟩
    · rw [copyIn, run_bind_ok hv]
      rw [writeByte_run (s := { s with mem := s.mem.setMsg (some p) v }) hused]
      simp only [Mem.msg_setMsg_self, setMsg_setMsg]
    · rw [Vector.getElem_set]
      split_ifs with hnk
      · subst hnk
        rfl
      · exact hbytes k h (by omega)

/-- The loop of `enQueue` copies the message. -/
theorem copyIn_all (hp : s.mem.used p = true) :
    copyIn (some p) msg MSGSIZE le_rfl s =
      .ok ⟨⟩ { s with mem := s.mem.setMsg (some p) msg } := by
  obtain ⟨v, hv, hbytes⟩ := copyIn_run hp msg MSGSIZE le_rfl
  have : v = msg := Vector.ext fun k h => hbytes k h h
  rw [hv, this]

theorem copyOut_run (hp : s.mem.used p = true) (buf : Msg) (n : ℕ) (hn : n ≤ MSGSIZE) :
    ∃ v, copyOut (some p) buf n hn s = .ok v s ∧
      ∀ k (h : k < MSGSIZE), k < n → v[k] = (s.mem.msg p)[k] := by
  induction n with
  | zero => exact ⟨buf, rfl, fun k _ hk => absurd hk (by omega)⟩
  | succ n ih =>
    obtain ⟨v, hv, hbytes⟩ := ih (by omega)
    refine ⟨v.set n (s.mem.msg p)[n], ?_, fun k h hk => ?_⟩
    · rw [copyOut, run_bind_ok hv, run_bind_ok (readByte_run hp ⟨n, hn⟩)]
      rfl
    · rw [Vector.getElem_set]
      split_ifs with hnk
      · subst hnk
        rfl
      · exact hbytes k h (by omega)

/-- The loop of `deQueue` copies the message. -/
theorem copyOut_all (hp : s.mem.used p = true) :
    copyOut (some p) buf MSGSIZE le_rfl s = .ok (s.mem.msg p) s := by
  obtain ⟨v, hv, hbytes⟩ := copyOut_run hp buf MSGSIZE le_rfl
  have : v = s.mem.msg p := Vector.ext fun k h => hbytes k h h
  rw [hv, this]

/-! ### Calls -/

/-- With a fresh page, and a last node where one is needed, no access of `enQueue` fails. -/
theorem enQueue_run (hrear : s.queue.front ≠ none → ∃ x, s.queue.rear = some x ∧
    s.mem.used x = true) : enQueue msg p s = .ok ⟨⟩ { s with
      mem := (Message.enQueue s.mem s.queue msg (some p)).1
      queue := (Message.enQueue s.mem s.queue msg (some p)).2
      allocs := Function.update s.allocs p (s.allocs p + 1) } := by
  have hused : (s.mem.kalloc (some p)).used p = true := Mem.used_kalloc.2 (.inr rfl)
  have hkeep : ∀ x, s.mem.used x = true → (s.mem.kalloc (some p)).used x = true :=
    fun x hx => Mem.used_kalloc.2 (.inl hx)
  obtain ⟨m, q, allocs, frees⟩ := s
  unfold enQueue
  rw [run_bind_ok (kalloc_run ..), run_bind_ok (copyIn_all hused), run_get_bind]
  dsimp only
  by_cases hfront : q.front = none
  · have hstore : ((m.kalloc (some p)).setMsg (some p) msg).used p = true := by
      rw [Mem.used_setMsg, hused]
    rw [if_pos hfront, enQueue_of_empty hfront, run_bind_ok (setFront_run ..),
      run_bind_ok (setRear_run ..), run_get_bind, writeLink_run hstore]
  · obtain ⟨x, hx, hxu⟩ := hrear hfront
    have hstore : ((m.kalloc (some p)).setMsg (some p) msg).used x = true := by
      rw [Mem.used_setMsg, hkeep x hxu]
    have hclose : (((m.kalloc (some p)).setMsg (some p) msg).setLink (some x) (some p)).used p =
        true := by
      rw [Mem.used_setLink, Mem.used_setMsg, hused]
    dsimp only at hx
    rw [if_neg hfront, enQueue_of_front hfront, hx, run_bind_ok (writeLink_run hstore _),
      run_bind_ok (setRear_run ..), run_get_bind, writeLink_run hclose]

/-- `deQueue` takes the only node. -/
theorem deQueue_last_run {x : Page} (hfront : s.queue.front = some x)
    (hrear : s.queue.rear = some x) (hx : s.mem.used x = true) :
    deQueue buf s = .ok (0, s.mem.msg x) { s with
      mem := s.mem.kfree x, queue := ⟨none, none⟩
      frees := Function.update s.frees x (s.frees x + 1) } := by
  obtain ⟨m, q, allocs, frees⟩ := s
  dsimp only at hfront hrear hx
  unfold deQueue
  rw [run_get_bind, hfront, if_neg nofun, hrear, if_pos rfl, run_bind_ok (copyOut_all hx),
    run_bind_ok (kfree_run hx), run_bind_ok (setFront_run ..), run_bind_ok (setRear_run ..)]
  rfl

/-- `deQueue` takes the first of several nodes. -/
theorem deQueue_more_run {x y : Page} (hfront : s.queue.front = some x)
    (hrear : s.queue.rear = some y) (hxy : x ≠ y) (hx : s.mem.used x = true)
    (hy : s.mem.used y = true) :
    deQueue buf s = .ok (0, s.mem.msg x) { s with
      mem := (s.mem.setLink (some y) (s.mem.link x)).kfree x
      queue := ⟨s.mem.link x, some y⟩
      frees := Function.update s.frees x (s.frees x + 1) } := by
  have hstore : (s.mem.setLink (some y) (s.mem.link x)).used x = true := by
    rw [Mem.used_setLink, hx]
  have hlast : some x ≠ some y := by
    rw [Ne, Option.some_inj]
    exact hxy
  obtain ⟨m, q, allocs, frees⟩ := s
  dsimp only at hfront hrear hx hy hstore
  unfold deQueue
  rw [run_get_bind, hfront, if_neg nofun, hrear, if_neg hlast, run_bind_ok (copyOut_all hx),
    run_bind_ok (readLink_run hx), run_bind_ok (setFront_run ..), run_get_bind]
  dsimp only
  rw [hrear, run_bind_ok (writeLink_run hy _), run_bind_ok (kfree_run hstore)]
  rfl

/-! ### The queue as a list -/

/-- The nodes of the queue from front to rear hold the messages of the list. The links lead from
`front` through each node once and back to the first one, the last node is `rear`, and the nodes
are the pages that have been allocated and not been freed. -/
structure Fifo (s : State) (nodes : List Page) (msgs : List Msg) : Prop where
  contents : nodes.map s.mem.msg = msgs
  nodup : nodes.Nodup
  path : Path s.mem.link s.queue.front nodes s.queue.front
  rear : s.queue.rear = nodes.getLast?
  front : s.queue.front = none ↔ msgs = []
  used : ∀ p, s.mem.used p = true ↔ p ∈ nodes
  freed : ∀ p, s.allocs p = s.frees p + if p ∈ nodes then 1 else 0

variable {nodes l : List Page} {msgs : List Msg} {x : Page}

/-- What `enQueue` leaves, with the ring that it closes. -/
theorem Fifo.extend (h : Fifo s nodes msgs) (hp : p ∉ nodes) {q : Queue}
    (hq : (Message.enQueue s.mem s.queue msg (some p)).2 = q) (hfront : q.front ≠ none)
    (hpath : Path (Message.enQueue s.mem s.queue msg (some p)).1.link q.front (nodes ++ [p]) q.front) :
    Fifo { s with
      mem := (Message.enQueue s.mem s.queue msg (some p)).1
      queue := q
      allocs := Function.update s.allocs p (s.allocs p + 1) } (nodes ++ [p]) (msgs ++ [msg]) where
  contents := by
    have hold : nodes.map (Function.update s.mem.msg p msg) = nodes.map s.mem.msg := by
      refine List.map_congr_left fun r hr => Function.update_of_ne ?_ _ _
      rintro rfl
      exact hp hr
    rw [enQueue_msg, List.map_append, hold, h.contents]
    simp
  nodup := by
    refine List.nodup_append.2 ⟨h.nodup, by simp, ?_⟩
    rintro a ha b hb rfl
    rw [List.mem_singleton] at hb
    exact hp (hb ▸ ha)
  path := hpath
  rear := by
    rw [← hq, enQueue_rear]
    simp
  front := by simp [hfront]
  used r := by
    rw [enQueue_used, h.used, List.mem_append, List.mem_singleton, Option.some_inj, eq_comm (a := p)]
  freed r := by
    have hr := h.freed r
    by_cases hrp : r = p
    · subst hrp
      simp [hp] at hr
      simp [hr]
    · simp [hrp, hr]

theorem Fifo.enQueue (h : Fifo s nodes msgs) (hp : s.mem.used p = false) (msg : Msg) :
    ∃ t, Nodes.enQueue msg p s = .ok ⟨⟩ t ∧ Fifo t (nodes ++ [p]) (msgs ++ [msg]) := by
  have hnew : p ∉ nodes := by
    intro hmem
    rw [(h.used p).2 hmem] at hp
    cases hp
  obtain rfl | ⟨l, x, rfl⟩ := nodes.eq_nil_or_concat'
  · have hfront : s.queue.front = none := by
      rw [h.front, ← h.contents]
      rfl
    refine ⟨_, enQueue_run fun hne => absurd hfront hne, h.extend hnew rfl ?_ ?_⟩
    · rw [enQueue_of_empty hfront]
      exact nofun
    · rw [enQueue_of_empty hfront]
      simp [Mem.link_setLink]
  · have hrear : s.queue.rear = some x := by
      rw [h.rear]
      simp
    have hfront : s.queue.front ≠ none := by
      rw [Ne, h.front, ← h.contents]
      simp
    have hx : x ∉ l := by
      have := h.nodup
      rw [List.nodup_append] at this
      exact fun hx => this.2.2 x hx x (by simp) rfl
    refine ⟨_, enQueue_run fun _ => ⟨x, hrear, (h.used x).2 (by simp)⟩, h.extend hnew rfl ?_ ?_⟩
    · exact enQueue_front hfront
    · have hring := ring_enQueue h.path hrear hx hnew msg
      rw [enQueue_of_front hfront] at hring ⊢
      exact hring

/-- What is left when the first node has been freed. -/
theorem Fifo.shrink {m : Mem} {q : Queue} (h : Fifo s (x :: nodes) msgs)
    (hmsg : ∀ r, r ≠ x → m.msg r = s.mem.msg r) (hused : ∀ r, r ≠ x → m.used r = s.mem.used r)
    (hx : m.used x = false) (hpath : Path m.link q.front nodes q.front)
    (hrear : q.rear = nodes.getLast?) (hfront : q.front = none ↔ nodes = []) :
    Fifo { s with
      mem := m, queue := q, frees := Function.update s.frees x (s.frees x + 1) }
      nodes msgs.tail := by
  have hnodup := List.nodup_cons.1 h.nodup
  have hne : ∀ r ∈ nodes, r ≠ x := by
    rintro r hr rfl
    exact hnodup.1 hr
  constructor
  case contents =>
    rw [← h.contents, List.map_cons, List.tail_cons]
    exact List.map_congr_left fun r hr => hmsg r (hne r hr)
  case nodup => exact hnodup.2
  case path => exact hpath
  case rear => exact hrear
  case front =>
    rw [← h.contents]
    simpa using hfront
  case used =>
    intro r
    by_cases hr : r = x
    · subst hr
      simp [hx, hnodup.1]
    · have := h.used r
      simpa [hused r hr, hr] using this
  case freed =>
    intro r
    have hr := h.freed r
    by_cases hrx : r = x
    · subst hrx
      simp [hnodup.1, hr]
    · simpa [hrx] using hr

theorem Fifo.deQueue (h : Fifo s nodes msgs) (buf : Msg) :
    (msgs = [] ∧ Nodes.deQueue buf s = .ok (-1, buf) s) ∨
      ∃ msg t, msgs = msg :: msgs.tail ∧ Nodes.deQueue buf s = .ok (0, msg) t ∧
        Fifo t nodes.tail msgs.tail := by
  cases nodes with
  | nil =>
    have hmsgs : msgs = [] := h.contents.symm
    refine .inl ⟨hmsgs, ?_⟩
    unfold Nodes.deQueue
    rw [run_get_bind, if_pos (h.front.2 hmsgs)]
    rfl
  | cons x l =>
    have hfront : s.queue.front = some x := h.path.1
    have hx := (h.used x).2 List.mem_cons_self
    have hmsgs : msgs = s.mem.msg x :: msgs.tail := by
      rw [← h.contents]
      rfl
    obtain rfl | ⟨l, y, rfl⟩ := l.eq_nil_or_concat'
    · have hrear : s.queue.rear = some x := h.rear
      refine .inr ⟨_, _, hmsgs, deQueue_last_run hfront hrear hx, h.shrink ?_ ?_ ?_ ?_ ?_ ?_⟩
      · exact fun r hr => Mem.msg_kfree_of_ne hr
      · exact fun r hr => Mem.used_kfree_of_ne hr
      · simp [Mem.kfree]
      · rfl
      · rfl
      · simp
    · have hrear : s.queue.rear = some y := by
        rw [h.rear, ← List.cons_append, List.getLast?_concat]
      have hnodup := List.nodup_cons.1 h.nodup
      have hxy : x ≠ y := by
        rintro rfl
        exact hnodup.1 (by simp)
      have hy : y ∉ l := by
        have := hnodup.2
        rw [List.nodup_append] at this
        exact fun hy => this.2.2 y hy y (by simp) rfl
      have hpath := ring_deQueue h.path hy hnodup.1
      refine .inr ⟨_, _, hmsgs, deQueue_more_run hfront hrear hxy hx ((h.used y).2 (by simp)),
        h.shrink ?_ ?_ ?_ hpath ?_ ?_⟩
      · intro r hr
        rw [Mem.msg_kfree_of_ne hr, Mem.msg_setLink]
      · intro r hr
        rw [Mem.used_kfree_of_ne hr, Mem.used_setLink]
      · simp [Mem.kfree]
      · rw [List.getLast?_concat]
      · -- the second node is the new first one
        have hnext := h.path.2
        cases l with
        | nil => simp [hnext.1]
        | cons z l => simp [hnext.1]

/-! ### Sequences of calls -/

/-- A call, with the page that `kalloc` will return to `enQueue`. -/
inductive Call where
  | enQueue (msg : Msg) (page : Page)
  | deQueue (buf : Msg)

/-- What a call returns; `deQueue` also the message buffer of the caller. -/
inductive Ret where
  | done
  | deQueue (ret : ℤ) (buf : Msg)
  deriving DecidableEq

def call : Call → M Ret
  | .enQueue msg page => do
    enQueue msg page
    return .done
  | .deQueue buf => do
    let (ret, buf) ← deQueue buf
    return .deQueue ret buf

def run : List Call → M (List Ret)
  | [] => pure []
  | c :: cs => do
    let r ← call c
    let rs ← run cs
    return r :: rs

/-- The same call on a list of messages. -/
def fifoCall : List Msg → Call → Ret × List Msg
  | msgs, .enQueue msg _ => (.done, msgs ++ [msg])
  | [], .deQueue buf => (.deQueue (-1) buf, [])
  | msg :: msgs, .deQueue _ => (.deQueue 0 msg, msgs)

def fifoRun : List Msg → List Call → List Ret × List Msg
  | msgs, [] => ([], msgs)
  | msgs, c :: cs =>
    let (r, msgs) := fifoCall msgs c
    let (rs, msgs) := fifoRun msgs cs
    (r :: rs, msgs)

/-- The page that the call asks for is not in use. -/
def Call.fresh (s : State) : Call → Bool
  | .enQueue _ page => !s.mem.used page
  | .deQueue _ => true

/-- `kalloc` returns only pages that are not in use. -/
def FreshPages : State → List Call → Prop
  | _, [] => True
  | s, c :: cs => c.fresh s = true ∧
    match call c s with
    | .ok _ t => FreshPages t cs
    | .error _ _ => True

instance decidableFreshPages : (s : State) → (cs : List Call) → Decidable (FreshPages s cs)
  | _, [] => .isTrue trivial
  | s, c :: cs =>
    have : Decidable (match call c s with
        | .ok _ t => FreshPages t cs
        | .error _ _ => True) :=
      match call c s with
      | .ok _ t => decidableFreshPages t cs
      | .error _ _ => .isTrue trivial
    inferInstanceAs (Decidable (_ ∧ _))

/-- A queue before its first call: the bytes of the pages may be anything. -/
structure Empty (s : State) : Prop where
  queue : s.queue = ⟨none, none⟩
  used : ∀ p, s.mem.used p = false
  allocs : ∀ p, s.allocs p = 0
  frees : ∀ p, s.frees p = 0

theorem Empty.fifo (h : Empty s) : Fifo s [] [] where
  contents := rfl
  nodup := .nil
  path := rfl
  rear := by
    rw [h.queue]
    rfl
  front := by simp [h.queue]
  used p := by simp [h.used]
  freed p := by simp [h.allocs, h.frees]

theorem Fifo.call (h : Fifo s nodes msgs) {c : Call}
    (hfresh : c.fresh s = true) :
    ∃ t nodes', Nodes.call c s = .ok (fifoCall msgs c).1 t ∧ Fifo t nodes' (fifoCall msgs c).2 := by
  cases c with
  | enQueue msg page =>
    obtain ⟨t, ht, hfifo⟩ := h.enQueue (by simpa [Call.fresh] using hfresh) msg
    refine ⟨t, _, ?_, hfifo⟩
    rw [Nodes.call, run_bind_ok ht]
    rfl
  | deQueue buf =>
    obtain ⟨rfl, ht⟩ | ⟨msg, t, hmsgs, ht, hfifo⟩ := h.deQueue buf
    · refine ⟨s, nodes, ?_, h⟩
      rw [Nodes.call, run_bind_ok ht]
      rfl
    · refine ⟨t, nodes.tail, ?_, ?_⟩
      · rw [Nodes.call, run_bind_ok ht, hmsgs]
        rfl
      · rw [hmsgs]
        exact hfifo

theorem Fifo.run (h : Fifo s nodes msgs) {cs : List Call} (hfresh : FreshPages s cs) :
    ∃ t nodes', Nodes.run cs s = .ok (fifoRun msgs cs).1 t ∧ Fifo t nodes' (fifoRun msgs cs).2 := by
  induction cs generalizing s nodes msgs with
  | nil => exact ⟨s, nodes, rfl, h⟩
  | cons c cs ih =>
    obtain ⟨t, nodes', ht, hfifo⟩ := h.call hfresh.1
    have hrest := hfresh.2
    rw [ht] at hrest
    obtain ⟨u, nodes'', hu, hfifo'⟩ := ih hfifo hrest
    refine ⟨u, nodes'', ?_, hfifo'⟩
    rw [Nodes.run, run_bind_ok ht, run_bind_ok hu]
    rfl

/-- No access of any run fails, and the answers are those of a list of messages. -/
theorem queue_fifo {cs : List Call} (h : Empty s) (hfresh : FreshPages s cs) :
    ∃ t nodes, run cs s = .ok (fifoRun [] cs).1 t ∧ Fifo t nodes (fifoRun [] cs).2 :=
  h.fifo.run hfresh

/-- A queue, and a machine whose pages hold 0. -/
def empty : State :=
  ⟨⟨fun _ => ⟨Vector.replicate MSGSIZE 0, none⟩, fun _ => false⟩, ⟨none, none⟩, fun _ => 0, fun _ => 0⟩

theorem queue_fifo_reused :
    let a : Msg := Vector.replicate MSGSIZE 97
    let b : Msg := Vector.replicate MSGSIZE 98
    let o : Msg := Vector.replicate MSGSIZE 0
    ∃ t nodes, run [.enQueue a 4096, .enQueue b 8192, .deQueue o, .enQueue a 4096, .deQueue o,
        .deQueue o, .deQueue o] empty =
      .ok [.done, .done, .deQueue 0 a, .done, .deQueue 0 b, .deQueue 0 a, .deQueue (-1) o] t ∧
      Fifo t nodes [] :=
  queue_fifo ⟨rfl, fun _ => rfl, fun _ => rfl, fun _ => rfl⟩ (by decide +kernel)

end Xv6Container.Message.Nodes
