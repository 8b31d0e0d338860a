import Mathlib.Data.Fintype.Card
import Mathlib.Data.Finset.Card
import Xv6Container.Containers.Counting
import Xv6Container.Containers.Schedulable

/-! The loop at the end of `joinContainer` that takes the caller off the list of its old container.
It reads the pid behind every entry, also an empty one, until it finds the caller's; a process of
container 0 is usually not listed at all, so the loop runs into the first empty entry. The counter
`generatedProcess` is right as long as the loop empties an entry each time it counts down, and no
container is made anew while it has processes. -/

namespace Xv6Container.Containers

open Lib

variable {s t : Sys} {a : Act} {p : Slot}

/-! ### The number of entries -/

/-- The number of entries of a list that are not empty. -/
def occupied (process : Fin PROCESS_COUNT → Option Slot) : ℕ :=
  (Finset.univ.filter fun i => (process i).isSome).card

section Occupied
variable {f : Fin PROCESS_COUNT → Option Slot} {i : Fin PROCESS_COUNT} {np : Slot}

theorem occupied_insert (hi : f i = none) :
    occupied (Function.update f i (some np)) = occupied f + 1 := by
  have hfilter : (Finset.univ.filter fun j => (Function.update f i (some np) j).isSome) =
      insert i (Finset.univ.filter fun j => (f j).isSome) := by
    ext j
    by_cases hj : j = i
    · subst hj
      simp
    · simp [hj]
  unfold occupied
  rw [hfilter, Finset.card_insert_of_notMem]
  simp [hi]

theorem occupied_remove (hi : (f i).isSome) :
    occupied (Function.update f i none) + 1 = occupied f := by
  have hback : f = Function.update (Function.update f i none) i (f i) := by simp
  obtain ⟨q, hq⟩ := Option.isSome_iff_exists.1 hi
  rw [hq] at hback
  rw [hback, occupied_insert (by simp)]
  simp

theorem occupied_empty (h : ∀ i, f i = none) : occupied f = 0 := by
  unfold occupied
  rw [Finset.card_eq_zero, Finset.filter_eq_empty_iff]
  intro i _
  rw [h i]
  exact nofun

theorem occupied_eq_zero (h : occupied f = 0) (i : Fin PROCESS_COUNT) : f i = none := by
  unfold occupied at h
  rw [Finset.card_eq_zero, Finset.filter_eq_empty_iff] at h
  simpa using h (Finset.mem_univ i)

end Occupied

/-- `generatedProcess` of every container is the number of its entries. -/
def Agree (x : Tables) : Prop :=
  ∀ c, (x.container c).generatedProcess = occupied (x.container c).process

/-! ### Steps and lists -/

/-- The lists and their counters are the same. -/
def SameCounts (x y : Tables) : Prop :=
  ∀ c, (y.container c).process = (x.container c).process ∧
    (y.container c).generatedProcess = (x.container c).generatedProcess

section SameCounts
variable {x y : Tables}

theorem SameCounts.refl (x : Tables) : SameCounts x x := fun _ => ⟨rfl, rfl⟩

theorem SameCounts.setContainer (x : Tables) (c : Fin NCONT) (g : Container → Container)
    (hp : (g (x.container c)).process = (x.container c).process)
    (hg : (g (x.container c)).generatedProcess = (x.container c).generatedProcess) :
    SameCounts x (x.setContainer c g) := by
  intro d
  rw [Tables.setContainer_container]
  split_ifs with hd
  · subst hd
    exact ⟨hp, hg⟩
  · exact ⟨rfl, rfl⟩

theorem SameCounts.agree (h : SameCounts x y) (hx : Agree x) : Agree y := by
  intro c
  rw [(h c).1, (h c).2]
  exact hx c

theorem SameCounts.allocKstack {np : Slot} {page : Option Page} {b : Bool}
    (h : x.allocKstack np page = .ok (b, y)) : SameCounts x y := by
  have hset : ∀ (z : Tables) (mem : Option Page), z.setKstack np mem = (b, y) →
      y.container = z.container := by
    intro z mem hz
    cases mem with
    | none =>
      obtain ⟨-, rfl⟩ := Prod.mk.inj hz
      rfl
    | some m =>
      obtain ⟨-, rfl⟩ := Prod.mk.inj hz
      rfl
  unfold Tables.allocKstack at h
  split_ifs at h
  · intro c
    rw [hset x page (Except.ok.inj h)]
    exact ⟨rfl, rfl⟩
  · split at h
    · cases h
    next mem z hz =>
      obtain ⟨c, i, -, -, -, rfl⟩ := Tables.conalloc_ok hz
      have hcon := setContainer x c (fun k => { k with
        used := i.val + 1
        memory := Function.update k.memory i
          ⟨i.val, mem.getD 0, mem.getD 0 + 4096, (x.proc np).pid⟩ }) rfl rfl
      intro d
      rw [hset _ mem (Except.ok.inj h)]
      exact hcon d

theorem SameCounts.schedStep {u u' : Cpu} (h : schedStep x u = .ok (y, u')) : SameCounts x y := by
  unfold Containers.schedStep at h
  split_ifs at h
  split at h
  next =>
    unfold pick at h
    split at h
    · split at h
      · cases h
      · split at h
        · cases h
          exact refl x
        · simp only [Except.ok.injEq, Prod.mk.injEq] at h
          rw [← h.1]
          split_ifs
          · exact setContainer x _ _ rfl rfl
          · exact refl x
    · cases h
      exact refl x
  next =>
    simp only [Except.ok.injEq] at h
    unfold scan at h
    split at h
    · obtain ⟨rfl, -⟩ := Prod.mk.inj h
      exact refl x
    · obtain ⟨rfl, -⟩ := Prod.mk.inj h
      exact fun _ => ⟨rfl, rfl⟩
  next =>
    unfold check at h
    dsimp only at h
    split at h
    · split at h
      · cases h
      · split at h
        · cases h
          exact setContainer x _ _ rfl rfl
        · cases h
          exact refl x
    · cases h
      exact refl x
  next =>
    unfold endRound at h
    dsimp only at h
    split at h
    · split at h
      · cases h
        intro c
        dsimp only
        split_ifs <;> exact ⟨rfl, rfl⟩
      · cases h
    · cases h
      exact refl x

theorem SameCounts.exitLocked (x : Tables) (p : Slot) : SameCounts x (x.exitLocked p) := by
  have hparent : (x.wakeupParent p).container = x.container := by
    unfold Tables.wakeupParent
    split <;> rfl
  have hexit : (x.exitLocked p).container = (x.wakeupParent p).container := by
    unfold Tables.exitLocked
    dsimp only
    split_ifs <;> rfl
  intro c
  rw [hexit, hparent]
  exact ⟨rfl, rfl⟩

end SameCounts

/-- What a step does to the lists and their counters. -/
inductive Relisted (s : Sys) (a : Act) (t : Sys) : Prop
  | same (same : SameCounts s.t t.t)
  | enter (c : Fin NCONT) (i : Fin PROCESS_COUNT) (np : Slot) (free : s.list c i = none)
      (container : t.t.container = (s.t.setContainer c fun k => { k with
        process := Function.update k.process i (some np)
        generatedProcess := k.generatedProcess + 1 }).container)
  | delist (p : Slot) (e : Env) (pp : ℤ) (act : a = .step p e) (pc : s.pc p = .delist pp)
      (removed : s.t.removeProcess p pp e.nullPid = .ok t.t)
  | reserve (p : Slot) (e : Env) (act : a = .step p e) (pc : s.pc p = .initContainer)
      (added : s.t.addContainer e.pages = .ok t.t)

theorem section_relisted {e : Env} (h : sectionStep s p e = .ok t) : Relisted s (.step p e) t := by
  have hinsert : ∀ (k : Creator) (np : Slot) (b : Bool) (x : Tables),
      k.insert s.t p np = .ok (b, x) → SameCounts s.t x ∨
        ∃ c i, s.list c i = none ∧ x = s.t.setContainer c fun k => { k with
          process := Function.update k.process i (some np)
          generatedProcess := k.generatedProcess + 1 } := by
    intro k np b x hx
    have hlist : ∀ d, s.t.insertProcess d np = .ok (b, x) → _ := fun d hd =>
      Tables.insertProcess_ok hd
    cases k with
    | join d pp =>
      obtain ⟨-, rfl⟩ | ⟨c, i, -, -, hfree, rfl⟩ := hlist d hx
      · exact .inl (.refl _)
      · exact .inr ⟨c, i, hfree, rfl⟩
    | fork =>
      simp only [Creator.insert, Tables.forkInsert] at hx
      split_ifs at hx
      · obtain ⟨-, rfl⟩ | ⟨c, i, -, -, hfree, rfl⟩ := hlist _ hx
        · exact .inl (.refl _)
        · exact .inr ⟨c, i, hfree, rfl⟩
      · cases hx
        exact .inl (.refl _)
  unfold sectionStep at h
  split at h
  next => cases h
  next => cases h; exact .same fun _ => ⟨rfl, rfl⟩
  next =>
    split at h
    next => cases h
    next => cases h; exact .same (.refl _)
    next x hx =>
      cases h
      obtain ⟨-, -, rfl⟩ := Tables.allocproc_some hx
      exact .same fun _ => ⟨rfl, rfl⟩
  next =>
    split at h
    next => cases h
    next x hx => cases h; exact .same (.allocKstack hx)
    next x hx => split at h <;> cases h <;> exact .same (.allocKstack hx)
  next => cases h; exact .same fun _ => ⟨rfl, rfl⟩
  next => split_ifs at h <;> cases h <;> exact .same fun _ => ⟨rfl, rfl⟩
  next k np hpc =>
    split at h
    next => cases h
    next x hx =>
      cases h
      obtain hsame | ⟨c, i, hfree, rfl⟩ := hinsert k np _ x hx
      · exact .same hsame
      · exact .enter c i np hfree rfl
    next x hx =>
      cases h
      obtain hsame | ⟨c, i, hfree, rfl⟩ := hinsert k np _ x hx
      · exact .same hsame
      · exact .enter c i np hfree rfl
  next => cases h; exact .same fun _ => ⟨rfl, rfl⟩
  next => split at h <;> cases h <;> exact .same fun _ => ⟨rfl, rfl⟩
  next pp hpc =>
    split at h
    next => cases h
    next x hx =>
      split_ifs at h
      cases h
      exact .delist p e pp rfl hpc hx
  next => cases h; exact .same (.exitLocked s.t p)
  next => split at h <;> cases h <;> exact .same fun _ => ⟨rfl, rfl⟩
  next hpc =>
    split at h
    next => cases h
    next x hx =>
      cases h
      exact .reserve p e rfl hpc hx
  next => cases h; exact .same (.refl _)

theorem step_relisted (ht : step s a = .ok t) : Relisted s a t := by
  cases a with
  | call p c =>
    simp only [step] at ht
    split_ifs at ht
    cases c with
    | containerProcessNum c =>
      simp only [callStep] at ht
      split at ht
      · cases ht
      · cases ht
        exact .same (.refl _)
    | exit =>
      simp only [callStep] at ht
      split_ifs at ht
      cases ht
      exact .same (.refl _)
    | kill pid =>
      cases ht
      refine .same ?_
      simp only [Sys.back]
      cases hfind : Fin.find? (fun x => (s.t.proc x).pid == pid) with
      | none =>
        rw [Tables.kill_none hfind]
        exact .refl _
      | some q =>
        rw [Tables.kill_some hfind]
        exact fun _ => ⟨rfl, rfl⟩
    | _ =>
      cases ht
      exact .same fun _ => ⟨rfl, rfl⟩
  | step p e => exact section_relisted (running_of_step ht).2
  | yield p =>
    simp only [step] at ht
    split_ifs at ht
    cases ht
    exact .same fun _ => ⟨rfl, rfl⟩
  | sleep p chan =>
    simp only [step] at ht
    split_ifs at ht
    cases ht
    exact .same fun _ => ⟨rfl, rfl⟩
  | wakeup chan =>
    cases ht
    exact .same fun _ => ⟨rfl, rfl⟩
  | sched n =>
    simp only [step] at ht
    split at ht
    · cases ht
    next x hx =>
      cases ht
      exact .same (.schedStep hx)

/-! ### Ids -/

/-- The container of a process, and the one a new process is listed in, exist. -/
structure Targets (s : Sys) : Prop where
  id : ∀ q, ∃ c : Fin NCONT, s.containerID q = c.val
  joined : ∀ q d pp np, s.stage q = .entered (.join d pp) np → ∃ c : Fin NCONT, d = c.val

theorem Targets.target (h : Targets s) {k : Creator} {q np : Slot}
    (hq : s.stage q = .entered k np) : ∃ c : Fin NCONT, k.target s.t q = c.val := by
  cases k with
  | fork => exact h.id q
  | join d pp => exact h.joined q d pp np hq

/-- Steps that give nobody a container. -/
theorem Targets.frame (h : Targets s) (hid : t.containerID = s.containerID)
    (hstage : ∀ q d pp np, t.stage q = .entered (.join d pp) np →
      s.stage q = .entered (.join d pp) np ∨ ∃ c : Fin NCONT, d = c.val) : Targets t where
  id q := by
    rw [hid]
    exact h.id q
  joined q d pp np hq := by
    obtain hold | hc := hstage q d pp np hq
    · exact h.joined q d pp np hold
    · exact hc

theorem Targets.step (h : Targets s) (he : Effect s a t) : Targets t := by
  have hsame : t.stage = s.stage → ∀ q d pp np, t.stage q = .entered (.join d pp) np →
      s.stage q = .entered (.join d pp) np ∨ ∃ c : Fin NCONT, d = c.val := by
    intro hstage q d pp np hq
    rw [hstage] at hq
    exact .inl hq
  have hupdate : ∀ p x, t.stage = Function.update s.stage p x →
      (∀ d pp np, x = .entered (.join d pp) np → ∃ c : Fin NCONT, d = c.val) →
      ∀ q d pp np, t.stage q = .entered (.join d pp) np →
        s.stage q = .entered (.join d pp) np ∨ ∃ c : Fin NCONT, d = c.val := by
    intro p x hstage hx q d pp np hq
    rw [hstage, Function.update_apply] at hq
    split_ifs at hq
    · exact .inr (hx d pp np hq)
    · exact .inl hq
  cases he with
  | quiet names hstage _ | leave _ names hstage _ _ _ _ =>
    exact h.frame names.containerID (hsame hstage)
  | release _ _ names _ hstage _ | publish _ _ _ names _ hstage _ | exit _ names _ _ _ hstage _ _ =>
    exact h.frame names.containerID (hupdate _ _ hstage nofun)
  | enterUnlisted _ _ names _ _ hstage _ =>
    exact h.frame names.containerID (hupdate _ _ hstage nofun)
  | alloc _ _ _ hid _ _ _ _ _ hstage _ => exact h.frame hid (hupdate _ _ hstage nofun)
  | delist _ _ hid _ _ _ _ _ hstage _ => exact h.frame hid (hupdate _ _ hstage nofun)
  | reap _ _ _ hid _ _ _ _ _ _ hstage _ => exact h.frame hid (hsame hstage)
  | enter p np k c i hid _ _ _ htarget _ _ hstage _ =>
    refine h.frame hid (hupdate _ _ hstage ?_)
    intro d pp x hx
    cases hx
    exact ⟨c, htarget⟩
  | name p np k _ _ _ hentered hid hstage _ =>
    refine ⟨fun q => ?_, fun q d pp x hq => ?_⟩
    · rw [hid, Function.update_apply]
      split_ifs
      · exact h.target hentered
      · exact h.id q
    · obtain hold | hc := hupdate _ _ hstage nofun q d pp x hq
      · exact h.joined q d pp x hold
      · exact hc

theorem Booted.targets (h : Booted s) : Targets s where
  id q := ⟨0, h.containerID_zero q⟩
  joined q d pp np hq := by
    rw [h.stage] at hq
    cases hq

/-! ### The loop -/

/-- The loop over the list of container `d` reads entry `i`. -/
def Tables.Reads (x : Tables) (d : Fin NCONT) (parentpid nullPid : ℤ) (i : Fin PROCESS_COUNT) :
    Prop :=
  ∀ j, j < i → x.entryPid nullPid ((x.container d).process j) ≠ parentpid

/-- The loop of `joinContainer` has gone over the list of container `d`: it has read no empty entry,
and the first entry of `p` is all that it has emptied. -/
structure Delisted (x : Tables) (p : Slot) (d : Fin NCONT) (parentpid nullPid : ℤ) (y : Tables) :
    Prop where
  removed : x.removeProcess p parentpid nullPid = .ok y
  nonnull : ∀ i, x.Reads d parentpid nullPid i → ((x.container d).process i).isSome
  process : ∀ c i, (y.container c).process i =
    if c = d ∧ (x.container d).process i = some p ∧ ∀ j, j < i → (x.container d).process j ≠ some p
    then none else (x.container c).process i

/-- The list of container `d` has no empty entry before the one of `p`, or none at all if `p` is not
listed. -/
def Sys.Ahead (s : Sys) (p : Slot) (d : Fin NCONT) : Prop :=
  ∀ i, s.list d i = none → ∃ j, j < i ∧ s.list d j = some p

/-- The loop of `joinContainer` runs only if no empty entry comes before the caller's, and a
container is made only while its list is empty. -/
def ListedAhead (s : Sys) : Act → Prop
  | .step p _ =>
    match s.pc p with
    | .delist _ => ∀ d : Fin NCONT, s.containerID p = d.val → s.Ahead p d
    | .initContainer => ∀ c : Fin NCONT, s.t.containerNum - 1 = c.val → ∀ i, s.list c i = none
    | _ => True
  | _ => True

instance (s : Sys) (p : Slot) (d : Fin NCONT) : Decidable (s.Ahead p d) :=
  inferInstanceAs (Decidable (∀ i, s.list d i = none → ∃ j, j < i ∧ s.list d j = some p))

instance (s : Sys) (a : Act) : Decidable (ListedAhead s a) :=
  match a with
  | .step p _ =>
    match h : s.pc p with
    | .delist _ => decidable_of_iff
        (∀ d : Fin NCONT, s.containerID p = d.val → s.Ahead p d) (by simp [ListedAhead, h])
    | .initContainer => decidable_of_iff
        (∀ c : Fin NCONT, s.t.containerNum - 1 = c.val → ∀ i, s.list c i = none)
        (by simp [ListedAhead, h])
    | .user | .setAlloc _ _ | .alloc _ | .kstack _ _ | .resetAlloc _ _ | .copy _ _ | .list _ _
    | .fields _ _ | .publish _ _ | .exiting _ | .waiting | .createReturn =>
      .isTrue (by simp [ListedAhead, h])
  | .call _ _ | .yield _ | .sleep _ _ | .wakeup _ | .sched _ => .isTrue trivial

/-- The pid of an entry names its slot. -/
theorem entryPid_iff (hp : Pids s) (hin : s.state p ≠ .unused) {n : ℤ} {o : Option Slot}
    (ho : o.isSome) : s.t.entryPid n o = s.pid p ↔ o = some p := by
  obtain ⟨q, rfl⟩ := Option.isSome_iff_exists.1 ho
  rw [Option.some_inj]
  constructor
  · intro h
    refine (hp.tickets.unique p q (hp.inUse p hin) ?_).symm
    exact h.symm
  · rintro rfl
    rfl

/-- The loop reads no empty entry exactly if none comes before the caller's. -/
theorem nonnull_iff (hp : Pids s) (hin : s.state p ≠ .unused) {n : ℤ} {d : Fin NCONT} :
    (∀ i, s.t.Reads d (s.pid p) n i → (s.list d i).isSome) ↔ s.Ahead p d := by
  constructor
  · intro h i
    -- the first empty entry is read, unless the caller's comes before it
    induction i using WellFoundedLT.induction with
    | _ i ih =>
      intro hi
      by_contra hno
      have hread : s.t.Reads d (s.pid p) n i := by
        intro j hj hpid
        cases hlist : s.list d j with
        | none =>
          obtain ⟨k, hk, hp'⟩ := ih j hj hlist
          exact hno ⟨k, hk.trans hj, hp'⟩
        | some q =>
          change s.t.entryPid n (s.list d j) = s.pid p at hpid
          rw [entryPid_iff hp hin (by rw [hlist]; rfl)] at hpid
          exact hno ⟨j, hj, hpid⟩
      have := h i hread
      rw [hi] at this
      cases this
  · intro h i hread
    by_contra hnone
    rw [Option.not_isSome_iff_eq_none] at hnone
    obtain ⟨j, hj, hp'⟩ := h i hnone
    refine hread j hj ?_
    change s.t.entryPid n (s.list d j) = s.pid p
    rw [entryPid_iff hp hin (by rw [hp']; rfl)]
    exact hp'

/-- What the loop does if it reads no empty entry. -/
theorem delisted_of_nonnull (hp : Pids s) (hin : s.state p ≠ .unused) {n : ℤ} {d : Fin NCONT}
    (hd : s.containerID p = d.val)
    (h : ∀ i, s.t.Reads d (s.pid p) n i → (s.list d i).isSome) :
    ∃ y, Delisted s.t p d (s.pid p) n y ∧ (Agree s.t → Agree y) := by
  -- an entry that is read first of all with the pid is the first one of `p`
  have hfirst : ∀ i, (∀ j, j < i → s.t.entryPid n (s.list d j) ≠ s.pid p) →
      ((s.t.entryPid n (s.list d i) = s.pid p ↔ s.list d i = some p) ∧
        ∀ j, j < i → s.list d j ≠ some p) := by
    intro i hi
    refine ⟨entryPid_iff hp hin (h i hi), fun j hj hlist => hi j hj ?_⟩
    rw [hlist]
    rfl
  have hindex : index .container NCONT (s.t.proc p).containerID = .ok d := index_eq_ok.2 hd
  cases hfind : Fin.find? fun i => s.t.entryPid n ((s.t.container d).process i) == s.pid p with
  | none =>
    have hnone : ∀ i, s.t.entryPid n (s.list d i) ≠ s.pid p := by
      intro i
      simpa [Sys.list] using Fin.find?_eq_none_iff.1 hfind i
    refine ⟨s.t, ⟨?_, h, fun c i => ?_⟩, id⟩
    · unfold Tables.removeProcess
      simp only [hindex, hfind]
    · rw [if_neg]
      rintro ⟨-, hlist, -⟩
      exact hnone i ((hfirst i fun j _ => hnone j).1.2 hlist)
  | some k =>
    obtain ⟨hk, hbefore⟩ := Fin.find?_eq_some_iff.1 hfind
    have hk' : s.t.entryPid n (s.list d k) = s.pid p := by simpa [Sys.list] using hk
    have hbefore' : ∀ j, j < k → s.t.entryPid n (s.list d j) ≠ s.pid p := by
      intro j hj
      simpa [Sys.list] using hbefore j hj
    have hlist := (hfirst k hbefore').1.1 hk'
    refine ⟨s.t.setContainer d fun x => { x with
      process := Function.update x.process k none
      generatedProcess := x.generatedProcess - 1 }, ⟨?_, h, fun c i => ?_⟩, fun hagree c => ?_⟩
    · unfold Tables.removeProcess
      simp only [hindex, hfind]
    · rw [Tables.setContainer_container]
      by_cases hc : c = d
      · subst hc
        simp only [true_and, if_true, Function.update_apply]
        change (if i = k then none else s.list c i) =
          if s.list c i = some p ∧ ∀ j, j < i → s.list c j ≠ some p then none else s.list c i
        by_cases hi : i = k
        · subst hi
          rw [if_pos rfl, if_pos ⟨hlist, (hfirst i hbefore').2⟩]
        · rw [if_neg hi, if_neg]
          rintro ⟨hi', hno⟩
          obtain hlt | hlt := lt_or_gt_of_ne hi
          · refine hbefore' i hlt ?_
            rw [hi']
            rfl
          · exact hno k hlt hlist
      · rw [if_neg hc, if_neg]
        rintro ⟨rfl, -⟩
        exact hc rfl
    · rw [Tables.setContainer_container]
      split_ifs with hc
      · subst hc
        have hcount := hagree c
        have hremove := occupied_remove (f := (s.t.container c).process) (i := k)
          (by rw [show (s.t.container c).process k = some p from hlist]; rfl)
        dsimp only
        rw [hcount, ← hremove]
        push_cast
        omega
      · exact hagree c

/-! ### Runs -/

/-- A container is made anew: the counters stay right exactly if its list is empty. -/
theorem reserve_agree_iff {e : Env} (hpc : s.pc p = .initContainer) (hagree : Agree s.t)
    (ht : step s (.step p e) = .ok t) :
    Agree t.t ↔ ∀ c : Fin NCONT, s.t.containerNum - 1 = c.val → ∀ i, s.list c i = none := by
  obtain ⟨x, hx, rfl⟩ := reserve_step hpc ht
  obtain ⟨c, hc, rfl⟩ := Tables.addContainer_ok hx
  constructor
  · intro h d hd
    obtain rfl : d = c := by
      rw [hc] at hd
      exact Fin.ext (by exact_mod_cast hd.symm)
    have hcount := h d
    simp only [Sys.goto, Tables.setContainer_self] at hcount
    exact occupied_eq_zero (by exact_mod_cast hcount.symm)
  · intro h d
    simp only [Sys.goto, Tables.setContainer_container]
    split_ifs with hd
    · subst hd
      have hempty : ∀ i, (s.t.container d).process i = none := h d hc
      rw [occupied_empty hempty]
      rfl
    · exact hagree d

theorem Agree.step (h : Agree s.t) (hp : Pids s) (hcall : InCall s) (htarget : Targets s)
    (hg : ListedAhead s a) (ht : Containers.step s a = .ok t) : Agree t.t := by
  cases step_relisted ht with
  | same hsame => exact hsame.agree h
  | enter c i np hfree hcon =>
    intro d
    rw [hcon, Tables.setContainer_container]
    split_ifs with hd
    · subst hd
      dsimp only
      have hfree' : (s.t.container d).process i = none := hfree
      rw [h d, occupied_insert hfree']
      push_cast
      rfl
    · exact h d
  | delist p e pp hact hpc hremoved =>
    subst hact
    have hlive : s.state p ≠ .unused := by
      intro hu
      have := hcall.live p (by rw [hpc]; exact nofun)
      rw [hu] at this
      exact this
    obtain rfl := hcall.parentpid p pp (by rw [hpc]; rfl)
    obtain ⟨d, hd⟩ := htarget.id p
    have hahead : s.Ahead p d := by
      simp only [ListedAhead, hpc] at hg
      exact hg d hd
    obtain ⟨y, hy, hagree⟩ := delisted_of_nonnull hp hlive hd ((nonnull_iff hp hlive).2 hahead)
    rw [hy.removed] at hremoved
    cases hremoved
    exact hagree h
  | reserve p e hact hpc hadded =>
    subst hact
    simp only [ListedAhead, hpc] at hg
    exact (reserve_agree_iff hpc h ht).2 hg

/-- What every step keeps. -/
structure Numbered (s : Sys) : Prop where
  holders : Holders s
  inCall : InCall s
  pids : Pids s
  targets : Targets s

theorem Numbered.step (h : Numbered s) (ht : Containers.step s a = .ok t) : Numbered t where
  holders := h.holders.step (step_effect ht)
  inCall := h.inCall.step h.holders ht
  pids := h.pids.step h.holders (step_effect ht)
  targets := h.targets.step (step_effect ht)

theorem Booted.numbered (h : Booted s) : Numbered s where
  holders := h.holders
  inCall := h.inCall
  pids := h.pids
  targets := h.targets

theorem Booted.agree (h : Booted s) : Agree s.t := by
  obtain ⟨page, t, ht, rfl⟩ := h
  obtain ⟨t', ht', -, -, -, -, -, hcon⟩ := Tables.userinit_ok page
  cases Except.ok.inj (ht.symm.trans ht')
  intro c
  simp only [boot, hcon, Function.update_apply]
  split_ifs
  · decide
  · decide

/-- The loop has read no empty entry, has emptied the caller's entry if there is one, and the
counters are right after it. -/
def DelistOk (s : Sys) (p : Slot) (pp nullPid : ℤ) : Prop :=
  ∃ d : Fin NCONT, s.containerID p = d.val ∧ ∃ y, Delisted s.t p d pp nullPid y ∧ Agree y

/-- For one loop the condition is exact. -/
theorem delistOk_iff (h : Numbered s) {pp n : ℤ} (hpc : s.pc p = .delist pp) (hagree : Agree s.t) :
    DelistOk s p pp n ↔ ∀ d : Fin NCONT, s.containerID p = d.val → s.Ahead p d := by
  have hlive : s.state p ≠ .unused := by
    intro hu
    have := h.inCall.live p (by rw [hpc]; exact nofun)
    rw [hu] at this
    exact this
  obtain rfl := h.inCall.parentpid p pp (by rw [hpc]; rfl)
  constructor
  · rintro ⟨d, hd, y, hy, -⟩ d' hd'
    obtain rfl : d' = d := by
      rw [hd] at hd'
      exact Fin.ext (by exact_mod_cast hd'.symm)
    exact (nonnull_iff h.pids hlive).1 hy.nonnull
  · intro hahead
    obtain ⟨d, hd⟩ := h.targets.id p
    obtain ⟨y, hy, hkeep⟩ := delisted_of_nonnull h.pids hlive hd
      ((nonnull_iff h.pids hlive).2 (hahead d hd))
    exact ⟨d, hd, y, hy, hkeep hagree⟩

/-- The counters are right at any time, and every loop over the caller's old list is right. -/
theorem delists_safe (hs : Reach step ListedAhead Booted s) :
    Agree s.t ∧ ∀ p pp e, s.pc p = .delist pp → ListedAhead s (.step p e) →
      DelistOk s p pp e.nullPid := by
  have h : Numbered s ∧ Agree s.t := by
    refine hs.invariant (I := fun s => Numbered s ∧ Agree s.t)
      (fun _ hb => ⟨hb.numbered, hb.agree⟩) ?_
    intro s a t h hg ht
    exact ⟨h.1.step ht, h.2.step h.1.pids h.1.inCall h.1.targets hg ht⟩
  refine ⟨h.2, fun p pp e hpc hg => ?_⟩
  simp only [ListedAhead, hpc] at hg
  exact (delistOk_iff h.1 hpc h.2).2 hg

/-! ### Runs on one machine -/

/-- The first process makes container 1 and goes into a new process of container 0, which is listed
behind it and joins container 1. -/
def listedRun : List Act :=
  turns 2 ++ .call 0 .create_container :: sections 0 2 ++ .call 0 .leave_container :: sections 0 8 ++
  .yield 0 :: turns 1 ++ .call 1 (.join_container 1) :: sections 1 8

theorem delists_safe_listed : ∃ s, s.list 0 1 = some 1 ∧ DelistOk s 1 2 0 := by
  have hboot : Reach step ListedAhead Booted firstBoot := .start booted_firstBoot
  obtain ⟨s, hs, ht⟩ := hboot.of_endsIn
    (fun s => decide (s.pc 1 = .delist 2) && decide (s.list 0 1 = some 1) &&
      decide (ListedAhead s (.step 1 answers))) listedRun (by decide +kernel)
  simp only [Bool.and_eq_true, decide_eq_true_eq] at ht
  obtain ⟨⟨hpc, hlist⟩, hg⟩ := ht
  exact ⟨s, hlist, (delists_safe hs).2 1 2 answers hpc hg⟩

/-- A child of the first process joins container 1. It is not in the list of container 0, the loop
reads address 16 for entry 1, finds the pid of the child there, and counts down. -/
theorem unlisted_counts_down : ∃ s x, Reach step always Booted s ∧ s.pc 1 = .delist 2 ∧
    s.list 0 1 = none ∧ s.t.removeProcess 1 2 2 = .ok x ∧ (x.container 0).process 0 = some 0 ∧
    (x.container 0).generatedProcess = 0 ∧ ¬ DelistOk s 1 2 2 := by
  have hboot : Reach step always Booted firstBoot := .start booted_firstBoot
  obtain ⟨s, hs, ht⟩ := hboot.of_endsIn
    (fun s => decide (s.pc 1 = .delist 2) && decide (s.list 0 1 = none) &&
      (s.t.removeProcess 1 2 2).toOption.any fun (x : Tables) =>
        decide ((x.container 0).process 0 = some 0) &&
        decide ((x.container 0).generatedProcess = 0)) (joinRun.take 24) (by decide +kernel)
  simp only [Bool.and_eq_true, decide_eq_true_eq] at ht
  obtain ⟨⟨hpc, hlist⟩, ht⟩ := ht
  obtain ⟨x, hsome, ht⟩ := (Option.any_eq_true _ _).1 ht
  have hx : s.t.removeProcess 1 2 2 = .ok x := by
    cases hrem : s.t.removeProcess 1 2 2 with
    | error r =>
      rw [hrem] at hsome
      cases hsome
    | ok y =>
      rw [hrem] at hsome
      rw [Option.some.inj hsome]
  simp only [Bool.and_eq_true, decide_eq_true_eq] at ht
  refine ⟨s, x, hs, hpc, hlist, hx, ht.1, ht.2, ?_⟩
  rintro ⟨d, -, y, hy, hagree⟩
  have hyx := hy.removed
  rw [hx] at hyx
  cases hyx
  have hzero := hagree 0
  rw [ht.2] at hzero
  have hempty := occupied_eq_zero (f := (x.container 0).process) (by exact_mod_cast hzero.symm) 0
  rw [ht.1] at hempty
  cases hempty

end Xv6Container.Containers
