import Xv6Container.Ide.Requests
import Xv6Container.Log.Cache

/-! The driver over whole runs. Whatever the order in which calls and interrupts come, it is a disk
that serves one request after another, in the order in which they came in: `Service` is that disk, and
each section of `iderw` and `ideintr` is one of its steps or none. -/

namespace Xv6Container.Ide

open Lib Monitor
open Log (Block BlockNo BufId Buf NBUF FSSIZE)

/-- A request joins the queue, the handler is done with one, and a call returns. -/
inductive Event where
  | queued (b : BufId) (x : Buf)
  | served (b : BufId) (y : Buf) (failed : Bool)
  | returned (b : BufId) (y : Buf)

/-- The requests that wait, each with its buffer, and the buffers that are done and not yet returned. -/
structure Service where
  drives : Drives
  queue : List (BufId × Buf)
  done : BufId → Option Buf

namespace Service

def start (drives : Drives) : Service := ⟨drives, [], fun _ => none⟩

def pending (S : Service) : List BufId := S.queue.map Prod.fst

/-- Nothing has been asked for about the buffer, or it has been answered. -/
def Idle (S : Service) (b : BufId) : Prop := b ∉ S.pending ∧ S.done b = none

/-- The first request is done. -/
def serve (S : Service) (b : BufId) (x : Buf) (q : List (BufId × Buf)) (failed : Bool) : Service where
  drives := (carryOut failed x S.drives).2
  queue := q
  done := Function.update S.done b (some (carryOut failed x S.drives).1)

inductive Step (S : Service) : Event → Service → Prop
  | queued {b : BufId} {x : Buf} (hb : S.Idle b) :
      Step S (.queued b x) { S with queue := S.queue ++ [(b, x)] }
  | served {b : BufId} {x : Buf} {q : List (BufId × Buf)} (failed : Bool) (hq : S.queue = (b, x) :: q) :
      Step S (.served b (carryOut failed x S.drives).1 failed) (S.serve b x q failed)
  | returned {b : BufId} {y : Buf} (hb : S.done b = some y) :
      Step S (.returned b y) { S with done := Function.update S.done b none }

inductive Run (S : Service) : List Event → Service → Prop
  | nil : Run S [] S
  | next {l : List Event} {T U : Service} {e : Event} (h : Run S l T) (he : T.Step e U) :
      Run S (l ++ [e]) U

end Service

/-! ### Runs of the driver -/

variable {ι : Type*} [DecidableEq ι] {s t : St ι} {S : Service} {d : Driver} {x y : Buf} {b c : BufId}

/-- What a step of the driver is for the one that watches it. -/
def obs (s : St ι) : Lib.Monitor.Act ι Frame → Option Event
  | .enter p =>
    match s.place p with
    | some (.inl (.iderw b x)) => some (.queued b x)
    | some (.inl .ideintr) => s.data.idequeue.map fun b =>
      .served b ((s.data.complete b).buf b) (s.data.ctl.fails s.data.ctl.ncommand)
    | _ => none
  | .leave p =>
    match s.place p with
    | some (.inr (some (b, y))) => some (.returned b y)
    | _ => none
  | _ => none

/-- A call is where the disk has its request: not yet asked for, waiting, or done. -/
def Fits (S : Service) : Frame ⊕ Result → Prop
  | .inl (.iderw b _) => S.Idle b
  | .inl (.wait b) => ¬ S.Idle b
  | .inl .ideintr | .inr none => True
  | .inr (some (b, y)) => S.done b = some y

/-- The calls are where the disk has their requests, and a buffer that the disk has something to do with
is that of exactly one call. -/
structure Placed (S : Service) (place : ι → Option (Frame ⊕ Result)) : Prop where
  fits : ∀ p f, place p = some f → Fits S f
  alone : ∀ p q f g b, place p = some f → place q = some g → subject f = some b →
    subject g = some b → p = q
  owner : ∀ b, ¬ S.Idle b → ∃ p f, place p = some f ∧ subject f = some b

/-- The driver has the queue and the drives of the disk, and the controller the first request. -/
structure Serving (S : Service) (d : Driver) : Prop where
  queue : d.Queue S.pending
  pending : ∀ b x, (b, x) ∈ S.queue → d.buf b = x ∧ isDone x = false ∧ S.done b = none
  done : ∀ b y, S.done b = some y → d.buf b = y ∧ isDone y = true
  serves : ∀ b x, S.queue.head? = some (b, x) → d.ctl.Serves x
  drives : d.drives = S.drives

/-! ### The calls -/

namespace Placed

variable {place : ι → Option (Frame ⊕ Result)} {T : Service} {p : ι} {f g : Frame ⊕ Result}

/-- One call goes on to another place, or ends. -/
theorem update (h : Placed S place) (p : ι) (o : Option (Frame ⊕ Result))
    (hfits : ∀ q k, q ≠ p → place q = some k → Fits T k)
    (hp : ∀ g, o = some g → Fits T g ∧
      ∀ b, subject g = some b → ∀ q k, q ≠ p → place q = some k → subject k ≠ some b)
    (howner : ∀ b, ¬ T.Idle b → (∃ g, o = some g ∧ subject g = some b) ∨
      ∃ q k, q ≠ p ∧ place q = some k ∧ subject k = some b) :
    Placed T (Function.update place p o) := by
  refine ⟨fun q k hq => ?_, fun q r f g b hq hr hf hg => ?_, fun b hb => ?_⟩
  · by_cases hqp : q = p
    · rw [hqp, Function.update_self] at hq
      exact (hp k hq).1
    · rw [Function.update_of_ne hqp] at hq
      exact hfits q k hqp hq
  · by_cases hqp : q = p
    · by_cases hrp : r = p
      · rw [hqp, hrp]
      · rw [hqp, Function.update_self] at hq
        rw [Function.update_of_ne hrp] at hr
        exact absurd hg ((hp f hq).2 b hf r g hrp hr)
    · rw [Function.update_of_ne hqp] at hq
      by_cases hrp : r = p
      · rw [hrp, Function.update_self] at hr
        exact absurd hf ((hp g hr).2 b hg q f hqp hq)
      · rw [Function.update_of_ne hrp] at hr
        exact h.alone q r f g b hq hr hf hg
  · rcases howner b hb with ⟨g, hg, hsub⟩ | ⟨q, k, hqp, hq, hsub⟩
    · exact ⟨p, g, by rw [Function.update_self, hg], hsub⟩
    · exact ⟨q, k, by rw [Function.update_of_ne hqp, hq], hsub⟩

omit [DecidableEq ι] in
/-- Nobody else is about the buffer of a call. -/
theorem ne_subject (h : Placed S place) (hp : place p = some f) (hf : subject f = some b) (q : ι)
    (k : Frame ⊕ Result) (hqp : q ≠ p) (hq : place q = some k) : subject k ≠ some b :=
  fun hk => hqp (h.alone q p k f b hq hp hk hf)

/-- A call begins, about a buffer that no other call is about. -/
theorem call (h : Placed S place) (hp : place p = none) {l : Frame}
    (hl : ∀ b, subject (.inl l) = some b → ∀ q k, place q = some k → subject k ≠ some b)
    (hwait : ∀ b, l ≠ .wait b) : Placed S (Function.update place p (some (.inl l))) := by
  refine h.update p _ (fun q k _ hq => h.fits q k hq) (fun g hg => ?_) fun b hb => ?_
  · cases hg
    refine ⟨?_, fun b hb q k _ hq => hl b hb q k hq⟩
    cases l with
    | iderw b x =>
      by_contra hidle
      obtain ⟨q, k, hq, hk⟩ := h.owner b hidle
      exact hl b rfl q k hq hk
    | wait b => exact absurd rfl (hwait b)
    | ideintr => trivial
  · obtain ⟨q, k, hq, hk⟩ := h.owner b hb
    refine .inr ⟨q, k, ?_, hq, hk⟩
    rintro rfl
    rw [hp] at hq
    cases hq

/-- A call goes on, and does nothing to the requests of others. -/
theorem move (h : Placed S place) (hp : place p = some f) (hsub : subject g = subject f)
    (hg : Fits T g)
    (hfits : ∀ k, Fits S k → (∀ c, subject k = some c → subject f ≠ some c) → Fits T k)
    (hidle : ∀ c, ¬ T.Idle c → subject f = some c ∨ ¬ S.Idle c) :
    Placed T (Function.update place p (some g)) := by
  refine h.update p _ (fun q k hqp hq => ?_) (fun k hk => ?_) fun c hc => ?_
  · exact hfits k (h.fits q k hq) fun c hk hf => h.ne_subject hp hf q k hqp hq hk
  · cases hk
    exact ⟨hg, fun c hc => h.ne_subject hp (hsub ▸ hc)⟩
  · by_cases hf : subject f = some c
    · exact .inl ⟨g, rfl, hsub.trans hf⟩
    · obtain ⟨q, k, hq, hk⟩ := h.owner c ((hidle c hc).resolve_left hf)
      refine .inr ⟨q, k, ?_, hq, hk⟩
      rintro rfl
      rw [hp] at hq
      cases hq
      exact hf hk

/-- A call returns, and its buffer is no longer the disk's. -/
theorem leave (h : Placed S place) (hp : place p = some f)
    (hfits : ∀ k, Fits S k → (∀ c, subject k = some c → subject f ≠ some c) → Fits T k)
    (hidle : ∀ c, ¬ T.Idle c → subject f ≠ some c ∧ ¬ S.Idle c) :
    Placed T (Function.update place p none) := by
  refine h.update p _ (fun q k hqp hq => ?_) (by rintro _ ⟨⟩) fun c hc => ?_
  · exact hfits k (h.fits q k hq) fun c hk hf => h.ne_subject hp hf q k hqp hq hk
  · obtain ⟨q, k, hq, hk⟩ := h.owner c (hidle c hc).2
    refine .inr ⟨q, k, ?_, hq, hk⟩
    rintro rfl
    rw [hp] at hq
    cases hq
    exact (hidle c hc).1 hk

end Placed

/-- What a call is waiting for stays if the disk does nothing about its buffer. -/
theorem Fits.congr {T : Service} {f : Frame ⊕ Result} (h : Fits S f)
    (hidle : ∀ b, subject f = some b → (T.Idle b ↔ S.Idle b))
    (hdone : ∀ b y, subject f = some b → S.done b = some y → T.done b = some y) : Fits T f := by
  rcases f with (⟨b, x⟩ | b | _) | (_ | ⟨b, y⟩)
  · exact (hidle b rfl).2 h
  · exact fun hT => h ((hidle b rfl).1 hT)
  · trivial
  · trivial
  · exact hdone b y rfl h

/-! ### The sections -/

namespace Serving

/-- `iderw` adds a request. -/
theorem iderw {e : Sec} (h : Serving S d) (hb : S.Idle b) (he : iderw d b x = some e) :
    Serving { S with queue := S.queue ++ [(b, x)] } e.data := by
  obtain ⟨-, -, hx, hbuf, hqueue, hdrives, hfirst, hnext, -⟩ := iderw_spec h.queue hb.1 he
  have hne {c : BufId} (hc : c ≠ b) : e.data.buf c = d.buf c := by
    rw [hbuf, Function.update_of_ne hc]
  refine ⟨?_, fun c y hc => ?_, fun c y hc => ?_, fun c y hc => ?_, hdrives.trans h.drives⟩
  · rw [Service.pending, List.map_append]
    exact hqueue
  · rcases List.mem_append.1 hc with hc | hc
    · rw [hne (fun heq => hb.1 (heq ▸ List.mem_map_of_mem hc))]
      exact h.pending c y hc
    · cases List.mem_singleton.1 hc
      exact ⟨by rw [hbuf, Function.update_self], hx, hb.2⟩
  · have hcb : c ≠ b := by
      rintro rfl
      have := hb.2.symm.trans hc
      cases this
    rw [hne hcb]
    exact h.done c y hc
  · cases hq : S.queue with
    | nil =>
      rw [hq] at hc
      cases hc
      exact hfirst (by rw [Service.pending, hq]; rfl)
    | cons r q =>
      rw [hnext (by rw [Service.pending, hq]; exact List.cons_ne_nil _ _)]
      refine h.serves c y ?_
      rw [← hc, hq]
      rfl

/-- The first request is at the controller. -/
theorem first {q : List (BufId × Buf)} (h : Serving S d) (hq : S.queue = (b, x) :: q) :
    d.Queue (b :: q.map Prod.fst) ∧ d.buf b = x ∧ S.done b = none ∧ d.ctl.drives = S.drives ∧
      d.ctl.Serves (d.buf b) := by
  have hqueue := h.queue
  rw [Service.pending, hq, List.map_cons] at hqueue
  obtain ⟨hbuf, -, hdone⟩ := h.pending b x (hq ▸ List.mem_cons_self)
  refine ⟨hqueue, hbuf, hdone, ?_, ?_⟩
  · rw [← h.drives, Driver.drives, hqueue.idequeue]
    rfl
  · rw [hbuf]
    exact h.serves b x (by rw [hq]; rfl)

/-- `ideintr` serves the first request. -/
theorem ideintr {q : List (BufId × Buf)} {e : Sec} (h : Serving S d) (hq : S.queue = (b, x) :: q)
    (he : ideintr d = some e) : e.wake = some b ∧ e.after = .back none ∧
      (∀ c, c ≠ b → e.data.buf c = d.buf c) ∧
      e.data.buf b = (carryOut d.ctl.failing x S.drives).1 ∧
      Serving (S.serve b x q d.ctl.failing) e.data := by
  obtain ⟨hqueue, hx, -, hdrives, hctl⟩ := h.first hq
  obtain ⟨hwake, hafter, hqueue', hbuf, hdrives', hserves, -⟩ := ideintr_spec hqueue hctl he
  rw [hx, hdrives] at hbuf hdrives'
  have hne {c : BufId} (hc : c ≠ b) : e.data.buf c = d.buf c := by
    rw [hbuf, Function.update_of_ne hc]
  have hself : e.data.buf b = (carryOut d.ctl.failing x S.drives).1 := by
    rw [hbuf, Function.update_self]
  have hlater {c : BufId} {y : Buf} (hc : (c, y) ∈ q) : c ≠ b ∧ d.buf c = y := by
    refine ⟨?_, (h.pending c y (hq ▸ List.mem_cons_of_mem _ hc)).1⟩
    rintro rfl
    exact (List.nodup_cons.1 hqueue.nodup).1 (List.mem_map_of_mem hc)
  refine ⟨hwake, hafter, fun c => hne, hself, hqueue', fun c y hc => ?_, fun c y hc => ?_,
    fun c y hc => ?_, hdrives'⟩
  · have hcb := (hlater hc).1
    rw [hne hcb, Service.serve]
    dsimp only
    rw [Function.update_of_ne hcb]
    exact h.pending c y (hq ▸ List.mem_cons_of_mem _ hc)
  · rw [Service.serve] at hc
    dsimp only at hc
    by_cases hcb : c = b
    · rw [hcb] at hc ⊢
      rw [Function.update_self] at hc
      cases hc
      exact ⟨hself, rfl⟩
    · rw [Function.update_of_ne hcb] at hc
      rw [hne hcb]
      exact h.done c y hc
  · have hmem : (c, y) ∈ q := List.mem_of_mem_head? hc
    rw [← (hlater hmem).2]
    refine hserves c ?_
    cases q with
    | nil => cases hc
    | cons r q =>
      cases hc
      rfl

end Serving

/-! ### Steps -/

theorem Service.Run.append {T U : Service} {l m : List Event} (h : S.Run l T) (hm : T.Run m U) :
    S.Run (l ++ m) U := by
  induction hm with
  | nil => rwa [List.append_nil]
  | next _ he ih =>
    rw [← List.append_assoc]
    exact .next ih he

theorem Service.Step.run {T : Service} {e : Event} (h : S.Step e T) : S.Run [e] T := .next .nil h

theorem Service.idle_append {c : BufId} (hc : c ≠ b) :
    Service.Idle { S with queue := S.queue ++ [(b, x)] } c ↔ S.Idle c := by
  simp [Service.Idle, Service.pending, hc]

/-- A buffer that is done has yet to be returned. -/
theorem Service.idle_serve {q : List (BufId × Buf)} {failed : Bool} {c : BufId}
    (hq : S.queue = (b, x) :: q) : (S.serve b x q failed).Idle c ↔ S.Idle c := by
  by_cases hc : c = b
  · rw [hc]
    simp [Service.Idle, Service.pending, Service.serve, hq]
  · simp [Service.Idle, Service.pending, Service.serve, hq, hc]

theorem Service.idle_returned {c : BufId} (hc : c ≠ b) :
    Service.Idle { S with done := Function.update S.done b none } c ↔ S.Idle c := by
  simp [Service.Idle, Service.pending, hc]

/-- A request that the disk has got is an event. -/
theorem Service.Run.mem_queue {T : Service} {l : List Event} (h : S.Run l T) {b : BufId} {x : Buf}
    (hb : (b, x) ∈ T.queue) : (b, x) ∈ S.queue ∨ .queued b x ∈ l := by
  induction h with
  | nil => exact .inl hb
  | next _ he ih =>
    rw [List.mem_append, ← or_assoc]
    cases he with
    | queued =>
      rcases List.mem_append.1 hb with hb | hb
      · exact .inl (ih hb)
      · cases List.mem_singleton.1 hb
        exact .inr (List.mem_singleton_self _)
    | served failed hq => exact .inl (ih (hq ▸ List.mem_cons_of_mem _ hb))
    | returned => exact .inl (ih hb)

theorem waitDone_data (d : Driver) (b : BufId) : (waitDone d b).data = d ∧ (waitDone d b).wake = none := by
  unfold waitDone
  split_ifs <;> exact ⟨rfl, rfl⟩

variable {p : ι} {e : Sec}

/-- The first section of `iderw` asks for something. -/
theorem serves_iderw (hS : Serving S s.data) (hP : Placed S s.place)
    (hp : s.place p = some (.inl (.iderw b x))) (he : iderw s.data b x = some e) :
    ∃ T, S.Run (obs s (.enter p)).toList T ∧ Serving T e.data ∧
      Placed T (Function.update s.place p (some e.after.place)) := by
  have hfit : S.Idle b := hP.fits p _ hp
  have hobs : obs s (.enter p) = some (.queued b x) := by simp [obs, hp]
  obtain ⟨-, hafter, -⟩ := iderw_spec hS.queue hfit.1 he
  rw [hobs, hafter]
  refine ⟨_, (Service.Step.queued hfit).run, hS.iderw hfit he, hP.move hp rfl ?_ ?_ ?_⟩
  · rintro ⟨hb, -⟩
    exact hb (List.mem_map_of_mem (List.mem_append_right _ (List.mem_singleton_self (b, x))))
  · refine fun k hk hne => hk.congr (fun c hc => ?_) fun _ _ _ hd => hd
    exact Service.idle_append fun heq => hne c hc (congrArg some heq.symm)
  · intro c hc
    by_cases hcb : c = b
    · exact .inl (congrArg some hcb.symm)
    · exact .inr fun hS => hc ((Service.idle_append hcb).2 hS)

/-- A process that has slept returns with its buffer once the disk is done with it. -/
theorem serves_wait (hS : Serving S s.data) (hP : Placed S s.place)
    (hp : s.place p = some (.inl (.wait b))) (he : waitDone s.data b = e) :
    ∃ T, S.Run (obs s (.enter p)).toList T ∧ Serving T e.data ∧
      Placed T (Function.update s.place p (some e.after.place)) := by
  have hfit : ¬ S.Idle b := hP.fits p _ hp
  have hobs : obs s (.enter p) = none := by simp [obs, hp]
  rw [hobs, ← he, (waitDone_data s.data b).1]
  refine ⟨S, .nil, hS, hP.move hp ?_ ?_ (fun k hk _ => hk) fun c hc => .inr hc⟩
  · unfold waitDone
    split_ifs <;> rfl
  · unfold waitDone
    split_ifs with hdone
    · have hb : b ∉ S.pending := by
        intro hb
        obtain ⟨r, hr, rfl⟩ := List.mem_map.1 hb
        obtain ⟨hbuf, hx, -⟩ := hS.pending r.1 r.2 hr
        rw [← hbuf, hdone] at hx
        cases hx
      cases hy : S.done b with
      | none => exact absurd ⟨hb, hy⟩ hfit
      | some y =>
        rw [(hS.done b y hy).1]
        exact hy
    · exact hfit

/-- The handler serves the first request, if there is one. -/
theorem serves_ideintr (hS : Serving S s.data) (hP : Placed S s.place)
    (hp : s.place p = some (.inl .ideintr)) (he : ideintr s.data = some e) :
    ∃ T, S.Run (obs s (.enter p)).toList T ∧ Serving T e.data ∧
      Placed T (Function.update s.place p (some e.after.place)) := by
  cases hq : S.queue with
  | nil =>
    have hidle : s.data.idequeue = none := by
      rw [hS.queue.idequeue, Service.pending, hq]
      rfl
    have hobs : obs s (.enter p) = none := by simp [obs, hp, hidle]
    have he : e = ⟨s.data, none, .back none⟩ :=
      (Option.some.inj ((ideintr_idle hidle).symm.trans he)).symm
    rw [hobs, he]
    exact ⟨S, .nil, hS, hP.move hp rfl trivial (fun k hk _ => hk) fun c hc => .inr hc⟩
  | cons r q =>
    obtain ⟨b, x⟩ := r
    obtain ⟨hqueue, hbuf, hdone, hdrives, hctl⟩ := hS.first hq
    have hfirst : s.data.idequeue = some b := hqueue.idequeue
    obtain ⟨c, hc, -⟩ := hqueue.complete hctl
    have hobs : obs s (.enter p) =
        some (.served b (carryOut s.data.ctl.failing x S.drives).1 s.data.ctl.failing) := by
      simp [obs, hp, hfirst, hc, hbuf, hdrives, Controller.failing]
    obtain ⟨-, hafter, -, -, hS'⟩ := hS.ideintr hq he
    rw [hobs, hafter]
    refine ⟨_, (Service.Step.served _ hq).run, hS', hP.move hp rfl trivial ?_ ?_⟩
    · refine fun k hk _ => hk.congr (fun c _ => Service.idle_serve hq) fun c y hc hy => ?_
      have hcb : c ≠ b := by
        rintro rfl
        rw [hdone] at hy
        cases hy
      exact (Function.update_of_ne hcb ..).trans hy
    · exact fun c hc => .inr fun hS => hc ((Service.idle_serve hq).2 hS)

/-- A call that returns gives its buffer back. -/
theorem serves_leave (hS : Serving S s.data) (hP : Placed S s.place)
    {r : Result} (hp : s.place p = some (.inr r)) :
    ∃ T, S.Run (obs s (.leave p)).toList T ∧ Serving T s.data ∧
      Placed T (Function.update s.place p none) := by
  have hfit := hP.fits p _ hp
  rcases r with _ | ⟨b, y⟩
  · have hobs : obs s (.leave p) = none := by simp [obs, hp]
    rw [hobs]
    exact ⟨S, .nil, hS, hP.leave hp (fun k hk _ => hk) fun c hc => ⟨by rintro ⟨⟩, hc⟩⟩
  · have hobs : obs s (.leave p) = some (.returned b y) := by simp [obs, hp]
    have hb : S.done b = some y := hfit
    have hpend : b ∉ S.pending := by
      intro hmem
      obtain ⟨r, hr, rfl⟩ := List.mem_map.1 hmem
      have := (hS.pending r.1 r.2 hr).2.2.symm.trans hb
      cases this
    rw [hobs]
    refine ⟨_, (Service.Step.returned hb).run, ⟨hS.queue, fun c x hc => ?_, fun c x hc => ?_,
      hS.serves, hS.drives⟩, hP.leave hp (fun k hk hne => ?_) fun c hc => ?_⟩
    · have hcb : c ≠ b := fun heq => hpend (heq ▸ List.mem_map_of_mem hc)
      dsimp only
      rw [Function.update_of_ne hcb]
      exact hS.pending c x hc
    · dsimp only at hc
      by_cases hcb : c = b
      · rw [hcb, Function.update_self] at hc
        cases hc
      · rw [Function.update_of_ne hcb] at hc
        exact hS.done c x hc
    · refine hk.congr (fun c hc => ?_) fun c z hc hz => ?_
      · exact Service.idle_returned fun heq => hne c hc (congrArg some heq.symm)
      · have hcb : c ≠ b := fun heq => hne c hc (congrArg some heq.symm)
        exact (Function.update_of_ne hcb ..).trans hz
    · by_cases hcb : c = b
      · rw [hcb] at hc
        exact absurd ⟨hpend, Function.update_self ..⟩ hc
      · rw [Service.idle_returned hcb] at hc
        exact ⟨fun heq => hcb (Option.some.inj heq).symm, hc⟩

/-- Each step of the driver is one of the disk, or none. -/
theorem serves_step {a : Lib.Monitor.Act ι Frame} (hS : Serving S s.data) (hP : Placed S s.place)
    (hg : Allowed s a) (ht : Turn body s a t) :
    ∃ T, S.Run (obs s a).toList T ∧ Serving T t.data ∧ Placed T t.place := by
  cases ht with
  | @call _ p l hp hplace hdata hlog =>
    rw [hplace, hdata]
    cases l with
    | iderw b x =>
      refine ⟨S, .nil, hS, hP.call hp (fun c hc q k hq => ?_) (by rintro _ ⟨⟩)⟩
      cases hc
      have := hg q
      rwa [hq] at this
    | wait b => exact hg.elim
    | ideintr => exact ⟨S, .nil, hS, hP.call hp (by rintro _ ⟨⟩) (by rintro _ ⟨⟩)⟩
  | @enter _ p l e hp he hplace hdata hlog =>
    have hp : s.place p = some (.inl l) := by
      rw [State.place, hp]
      rfl
    rw [hplace, hdata]
    cases l with
    | iderw b x => exact serves_iderw hS hP hp he
    | wait b => exact serves_wait hS hP hp (Option.some.inj he)
    | ideintr => exact serves_ideintr hS hP hp he
  | @leave _ p r hp hplace hdata hlog =>
    rw [hplace, hdata]
    exact serves_leave hS hP hp
  | stay hcall henter hleave hplace hdata hlog =>
    have hobs : obs s a = none := by
      cases a with
      | enter p => exact absurd rfl (henter p)
      | leave p => exact absurd rfl (hleave p)
      | _ => rfl
    rw [hobs, hplace, hdata]
    exact ⟨S, .nil, hS, hP⟩

/-! ### Sleepers -/

/-- A process sleeps on its buffer as long as it is not done. -/
def Waits (c : BufId) (l : Frame) (d : Driver) : Prop := l = .wait c ∧ isDone (d.buf c) = false

theorem waitDone_waits {l : Frame} (h : (waitDone d b).after = .sleep c l) :
    Waits c l (waitDone d b).data := by
  unfold waitDone at h ⊢
  split_ifs at h ⊢ with hx
  cases h
  exact ⟨rfl, Bool.eq_false_iff.2 hx⟩

omit [DecidableEq ι] in
theorem body_waits {k : Bool} {f l : Frame} (he : body k p d f = some e)
    (h : e.after = .sleep c l) : Waits c l e.data := by
  cases f with
  | iderw b x =>
    unfold body iderw at he
    simp only [Option.ite_none_left_eq_some] at he
    obtain ⟨-, he⟩ := he
    obtain ⟨d₁, -, he⟩ := Option.bind_eq_some_iff.1 he
    split_ifs at he
    · obtain ⟨d₂, -, he⟩ := Option.bind_eq_some_iff.1 he
      cases he
      exact waitDone_waits h
    · cases he
      exact waitDone_waits h
  | wait b =>
    cases he
    exact waitDone_waits h
  | ideintr =>
    unfold body ideintr at he
    cases hq : d.idequeue with
    | none =>
      rw [hq] at he
      cases he
      cases h
    | some b =>
      rw [hq] at he
      dsimp only at he
      split_ifs at he
      · cases he
        cases h
      · obtain ⟨d₁, -, he⟩ := Option.bind_eq_some_iff.1 he
        cases he
        cases h

omit [DecidableEq ι] in
/-- Only the handler is done with a buffer, and it wakes up who sleeps on it. -/
theorem careful (hS : Serving S s.data) (hP : Placed S s.place) (a : Lib.Monitor.Act ι Frame) :
    Careful Waits body s a := by
  intro p l e ha hp he q c m hq hw
  obtain ⟨rfl, hw⟩ := hw
  have hpp : s.place p = some (.inl l) := by
    rw [State.place, hp]
    rfl
  have hqp : q ≠ p := by
    rintro rfl
    rw [hp] at hq
    cases hq
  have hqq : s.place q = some (.inl (.wait c)) := Pc.place_of_target hq
  cases l with
  | iderw b x =>
    obtain ⟨-, -, -, hbuf, -⟩ := iderw_spec hS.queue (hP.fits p _ hpp).1 he
    refine .inl ⟨rfl, ?_⟩
    rw [hbuf, Function.update_of_ne]
    · exact hw
    · rintro rfl
      exact hP.ne_subject hpp rfl q _ hqp hqq rfl
  | wait b =>
    cases he
    exact .inl ⟨rfl, by rwa [(waitDone_data _ _).1]⟩
  | ideintr =>
    cases hqueue : S.queue with
    | nil =>
      have hidle : s.data.idequeue = none := by
        rw [hS.queue.idequeue, Service.pending, hqueue]
        rfl
      cases (ideintr_idle hidle).symm.trans he
      exact .inl ⟨rfl, hw⟩
    | cons r q =>
      obtain ⟨hwake, -, hbuf, -⟩ := hS.ideintr hqueue he
      by_cases hc : c = r.1
      · exact .inr (hc ▸ hwake)
      · exact .inl ⟨rfl, by rwa [hbuf c hc]⟩

/-! ### Runs -/

omit [DecidableEq ι] in
theorem Start.serving {s₀ : St ι} (h : Start s₀) :
    Serving (Service.start s₀.data.ctl.drives) s₀.data ∧
      Placed (Service.start s₀.data.ctl.drives) s₀.place := by
  refine ⟨⟨⟨h.queue, List.nodup_nil⟩, by rintro _ _ ⟨⟩, by rintro _ _ ⟨⟩, by rintro _ _ ⟨⟩, ?_⟩,
    ⟨fun p f hp => ?_, fun p q f g b hp => ?_, fun b hb => ?_⟩⟩
  · rw [Driver.drives, h.queue, Controller.finish_idle h.idle]
    rfl
  · rw [h.place] at hp
    cases hp
  · rw [h.place] at hp
    cases hp
  · exact absurd ⟨List.not_mem_nil, rfl⟩ hb

/-- The driver is a disk that serves the requests one after another, in the order in which they come
in. While there are any, the first one is at the controller, and who is asleep with the lock free has
its request in the queue. -/
theorem driver_is_service {s₀ : St ι} {l : List Event} (h0 : Start s₀)
    (h : Trace (step body) Allowed obs s₀ l s) :
    ∃ S, (Service.start s₀.data.ctl.drives).Run l S ∧ s.data.Queue S.pending ∧
      s.data.drives = S.drives ∧
      (∀ b x, S.queue.head? = some (b, x) → s.data.ctl.Serves x) ∧
      (s.lk = none → ∀ p c m, s.pc p = .asleep c m → c ∈ S.pending) := by
  have hI : ∃ S, (Service.start s₀.data.ctl.drives).Run l S ∧ Serving S s.data ∧ Placed S s.place ∧
      Sound Waits s := by
    refine Trace.invariant (I := fun l s => ∃ S, (Service.start s₀.data.ctl.drives).Run l S ∧
      Serving S s.data ∧ Placed S s.place ∧ Sound Waits s) ?_ (fun l t a u hI hg hu => ?_) h
    · exact ⟨_, .nil, h0.serving.1, h0.serving.2, h0.toFresh.sound⟩
    · obtain ⟨S, hrun, hS, hP, hW⟩ := hI
      obtain ⟨T, hT, hS', hP'⟩ := serves_step hS hP hg (turn_of_move (move_of_step hu))
      exact ⟨T, hrun.append hT, hS', hP', hW.step (fun _ _ _ _ _ _ _ => body_waits)
        (careful hS hP a) (move_of_step hu)⟩
  obtain ⟨S, hrun, hS, hP, hW⟩ := hI
  refine ⟨S, hrun, hS.queue, hS.drives, hS.serves, fun hfree p c m hp => ?_⟩
  have hplace : s.place p = some (.inl m) := Pc.place_of_target (c := c) (by rw [hp]; rfl)
  obtain ⟨rfl, hw⟩ : Waits c m s.data := by
    rcases hW.waits p c m (by rw [hp]; rfl) (by rw [hp]; rfl) with hw | ⟨q, f, hq⟩
    · exact hw
    · have := (hW.lk q).1 (by rw [hq]; rfl)
      rw [hfree] at this
      cases this
  by_contra hc
  refine hP.fits p _ hplace ⟨hc, ?_⟩
  cases hd : S.done c with
  | none => rfl
  | some y =>
    obtain ⟨hbuf, hy⟩ := hS.done c y hd
    rw [hbuf, hy] at hw
    cases hw

/-- A request that is alone. -/
theorem Service.round (D : Drives) (b : BufId) (x : Buf) (f : Bool) :
    (Service.start D).Run [.queued b x, .served b (carryOut f x D).1 f, .returned b (carryOut f x D).1]
      (Service.start (carryOut f x D).2) := by
  have hqueued : (Service.start D).Step (.queued b x) ⟨D, [(b, x)], fun _ => none⟩ :=
    .queued ⟨List.not_mem_nil, rfl⟩
  have hserved := Service.Step.served (S := ⟨D, [(b, x)], fun _ => none⟩) f rfl
  have hreturned := Service.Step.returned
    (S := Service.serve ⟨D, [(b, x)], fun _ => none⟩ b x [] f) (Function.update_self ..)
  have hstart : Service.start (carryOut f x D).2 =
      ⟨(carryOut f x D).2, [], Function.update (Function.update (fun _ => none) b
        (some (carryOut f x D).1)) b none⟩ := by
    rw [Function.update_idem, Function.update_eq_self_iff.2 rfl]
    rfl
  rw [hstart]
  exact .next (.next hqueued.run hserved) hreturned

/-- The `iderw` of the log and of the buffer cache, for which one call is one step, is what the disk does
with a request that is alone and does not fail. -/
theorem iderw_is_service {k r : Log.Kernel} {D : Drives} (h : Log.iderw b k = .ok () r)
    (hD : D (drive (k.buf b)) = k.disk) :
    (Service.start D).Run [.queued b (k.buf b), .served b (r.buf b) false, .returned b (r.buf b)]
      (Service.start (Function.update D (drive (k.buf b)) r.disk)) := by
  have hround := Service.round D b (k.buf b) false
  suffices r.buf b = (carryOut false (k.buf b) D).1 ∧
      Function.update D (drive (k.buf b)) r.disk = (carryOut false (k.buf b) D).2 by
    rwa [this.1, this.2]
  rw [Log.iderw, run_get_bind] at h
  split_ifs at h with hlocked hdone hbig hdirty
  · cases h
  · cases h
  · cases h
  · rcases Log.writeBlock_cases k (k.buf b).blockno (k.buf b).data with ⟨p, -, hw⟩ | ⟨-, hw⟩
    · rw [run_bind_ok hw] at h
      cases h
      simp [carryOut, hdirty, Drives.write, hD, Log.Kernel.setBuf]
    · rw [run_bind_error hw] at h
      cases h
  · cases h
    simp [carryOut, hdirty, hD, Log.Kernel.setBuf]

/-- Two processes, and one disk that reads as zeros. -/
def idle : St (Fin 2) where
  data := ⟨none, fun _ => none, fun _ => ⟨0, 0, false, false, false, 0, fun _ => 0⟩,
    ⟨0, 0, 0, 0, 0, none, fun _ => 0, false, fun _ _ _ => 0, fun _ => false, 0⟩, false⟩
  lk := none
  ptable := none
  pc _ := .out
  killed _ := false
  log _ := []

theorem idle_start : Start idle := ⟨⟨rfl, rfl, fun _ => rfl, fun _ => rfl⟩, rfl, rfl⟩

/-- A buffer with which block 5 is to be written. -/
def five : Buf := ⟨0, 5, true, true, true, 1, fun _ => 7⟩

/-- Process 0 writes block 5 and sleeps until process 1 takes the interrupt. -/
theorem driver_is_service_write : ∃ l s, Trace (step body) Allowed obs idle l s ∧ l.length = 3 ∧
    ∃ S, (Service.start idle.data.ctl.drives).Run l S ∧ s.data.Queue S.pending ∧
      s.data.drives = S.drives ∧
      (∀ b x, S.queue.head? = some (b, x) → s.data.ctl.Serves x) ∧
      (s.lk = none → ∀ p c m, s.pc p = .asleep c m → c ∈ S.pending) := by
  obtain ⟨l, s, hl, hlength⟩ :=
    (Trace.nil : Trace (step body) Allowed obs idle [] idle).of_watch
      (fun l _ => decide (l.length = 3))
      [.call 0 (.iderw 0 five), .enter 0, .hand 0, .commit 0, .doze 0, .call 1 .ideintr, .enter 1,
        .wakeup 1, .leave 1, .resume 0, .enter 0, .leave 0]
      (by decide +kernel)
  exact ⟨l, s, hl, of_decide_eq_true hlength, driver_is_service idle_start hl⟩

/-! ### Panics -/

/-- A call of `iderw` meets what `iderw` and `idestart` ask of its buffer. -/
def Sane (s : St ι) (a : Lib.Monitor.Act ι Frame) : Prop :=
  Allowed s a ∧ ∀ p b x, a = .call p (.iderw b x) → Ready s.data.havedisk1 x

/-- The buffers of all requests, in the queue or yet to join it, are as they should be. -/
structure Fine (S : Service) (s : St ι) : Prop where
  serving : Serving S s.data
  placed : Placed S s.place
  begun : ∀ p b x, s.place p = some (.inl (.iderw b x)) → Ready s.data.havedisk1 x
  queued : ∀ b x, (b, x) ∈ S.queue → Ready s.data.havedisk1 x

omit [DecidableEq ι] in
theorem Fine.havedisk1 {l : Frame} {e : Sec} {k : Bool} (h : Fine S s)
    (hp : s.place p = some (.inl l)) (he : body k p s.data l = some e) :
    e.data.havedisk1 = s.data.havedisk1 := by
  cases l with
  | iderw b x =>
    exact (iderw_spec h.serving.queue (h.placed.fits p _ hp).1 he).2.2.2.2.2.2.2.2
  | wait b =>
    cases he
    rw [(waitDone_data _ _).1]
  | ideintr =>
    cases hq : S.queue with
    | nil =>
      have hidle : s.data.idequeue = none := by
        rw [h.serving.queue.idequeue, Service.pending, hq]
        rfl
      cases (ideintr_idle hidle).symm.trans he
      rfl
    | cons r q =>
      obtain ⟨hqueue, -, -, -, hctl⟩ := h.serving.first hq
      exact (ideintr_spec hqueue hctl he).2.2.2.2.2.2

omit [DecidableEq ι] in
theorem obs_queued {a : Lib.Monitor.Act ι Frame} (h : obs s a = some (.queued b x)) :
    ∃ p, s.place p = some (.inl (.iderw b x)) := by
  cases a with
  | enter p =>
    refine ⟨p, ?_⟩
    unfold obs at h
    dsimp only at h
    split at h
    next hp =>
      cases h
      exact hp
    next =>
      obtain ⟨c, -, hc⟩ := Option.map_eq_some_iff.1 h
      cases hc
    next => cases h
  | leave p =>
    unfold obs at h
    dsimp only at h
    split at h <;> cases h
  | _ => cases h

theorem Fine.step {a : Lib.Monitor.Act ι Frame} (h : Fine S s) (hg : Sane s a)
    (ht : Turn body s a t) : ∃ T, Fine T t := by
  obtain ⟨T, hrun, hS, hP⟩ := serves_step h.serving h.placed hg.1 ht
  have hqueued (b : BufId) (x : Buf) (hb : (b, x) ∈ T.queue) : Ready s.data.havedisk1 x := by
    rcases hrun.mem_queue hb with hb | hb
    · exact h.queued b x hb
    · obtain ⟨p, hp⟩ := obs_queued (Option.mem_toList.1 hb)
      exact h.begun p b x hp
  cases ht with
  | @call _ p l hp hplace hdata hlog =>
    rw [hdata.symm] at hqueued
    refine ⟨T, hS, hP, fun q b x hq => ?_, hqueued⟩
    rw [hdata]
    rw [hplace] at hq
    by_cases hqp : q = p
    · rw [hqp, Function.update_self] at hq
      cases hq
      exact hg.2 p b x rfl
    · rw [Function.update_of_ne hqp] at hq
      exact h.begun q b x hq
  | @enter _ p l e hp he hplace hdata hlog =>
    have hp : s.place p = some (.inl l) := by
      rw [State.place, hp]
      rfl
    have hdisk := h.havedisk1 hp he
    rw [← hdata] at hdisk
    rw [← hdisk] at hqueued
    refine ⟨T, hS, hP, fun q b x hq => ?_, hqueued⟩
    rw [hdisk]
    rw [hplace] at hq
    by_cases hqp : q = p
    · rw [hqp, Function.update_self] at hq
      cases hafter : e.after with
      | sleep c m =>
        rw [hafter] at hq
        cases (body_waits he hafter).1
        cases hq
      | back r =>
        rw [hafter] at hq
        cases hq
    · rw [Function.update_of_ne hqp] at hq
      exact h.begun q b x hq
  | @leave _ p r hp hplace hdata hlog =>
    rw [hdata.symm] at hqueued
    refine ⟨T, hS, hP, fun q b x hq => ?_, hqueued⟩
    rw [hdata]
    rw [hplace] at hq
    by_cases hqp : q = p
    · rw [hqp, Function.update_self] at hq
      cases hq
    · rw [Function.update_of_ne hqp] at hq
      exact h.begun q b x hq
  | stay hcall henter hleave hplace hdata hlog =>
    rw [hdata.symm] at hqueued
    refine ⟨T, hS, hP, fun q b x hq => ?_, hqueued⟩
    rw [hdata]
    rw [hplace] at hq
    exact h.begun q b x hq

omit [DecidableEq ι] in
theorem Fine.body_ne_none {l : Frame} {k : Bool} {p : ι} (h : Fine S s)
    (hp : s.place p = some (.inl l)) : body k p s.data l ≠ none := by
  cases l with
  | iderw b x => exact iderw_ne_none h.serving.queue (h.placed.fits p _ hp).1 (h.begun p b x hp)
  | wait b => exact Option.some_ne_none _
  | ideintr =>
    cases hq : S.queue with
    | nil =>
      have hidle : s.data.idequeue = none := by
        rw [h.serving.queue.idequeue, Service.pending, hq]
        rfl
      rw [body, ideintr_idle hidle]
      exact Option.some_ne_none _
    | cons r q =>
      obtain ⟨hqueue, -, -, -, hctl⟩ := h.serving.first hq
      refine ideintr_ne_none hqueue hctl fun n hn => ?_
      obtain ⟨⟨m, y⟩, hm, rfl⟩ := List.mem_map.1 (List.mem_of_mem_head? hn)
      have hmem : (m, y) ∈ S.queue := hq ▸ List.mem_cons_of_mem _ hm
      rw [(h.serving.pending m y hmem).1]
      exact (h.queued m y hmem).2.2.2

/-- While `iderw` gets buffers as they should be, nothing panics in the driver, and its loops end,
whenever the interrupts come. -/
theorem driver_never_stuck (h : Reach (step body) Sane Start s) (a : Lib.Monitor.Act ι Frame) :
    step body s a ≠ .error .stuck := by
  have hI : ∃ S, Fine S s := by
    refine h.invariant (I := fun s => ∃ S, Fine S s) (fun s h0 => ?_) fun s a t hI hg ht => ?_
    · refine ⟨_, h0.serving.1, h0.serving.2, fun p b x hp => ?_, by rintro _ _ ⟨⟩⟩
      rw [h0.place] at hp
      cases hp
    · obtain ⟨S, hS⟩ := hI
      exact hS.step hg (turn_of_move (move_of_step ht))
  obtain ⟨S, hS⟩ := hI
  intro hstuck
  cases a with
  | enter p =>
    rw [step] at hstuck
    split at hstuck
    next l hp hlk =>
      split at hstuck
      next => cases hstuck
      next hnone => exact hS.body_ne_none (by rw [State.place, hp]; rfl) hnone
    next => cases hstuck
  | _ =>
    rw [step] at hstuck
    split at hstuck <;> cases hstuck

/-- Process 0 has called `iderw` to write block 5. -/
theorem driver_never_stuck_write : ∃ s, step body idle (.call 0 (.iderw 0 five)) = .ok s ∧
    step body s (.enter 0) ≠ .error .stuck := by
  have hsane : Sane idle (.call 0 (.iderw 0 five)) := by
    refine ⟨fun q => ?_, ?_⟩
    · exact (Option.some_ne_none (0 : BufId)).symm
    · rintro p b x ⟨⟩
      exact ⟨rfl, rfl, .inl rfl, by decide⟩
  exact ⟨_, rfl, driver_never_stuck (.next (.start idle_start) hsane rfl) (.enter 0)⟩

end Xv6Container.Ide
