import Xv6Container.Containers.Reserve

/-! Indices into the container table. The kernel checks none of them: ids come from user
arguments, `containerNum` only grows, and so does the counter `used` of each reserve. All
accesses stay inside the arrays as long as the arguments are in range, no more than
`NCONT` containers are made, and no reserve is asked for more than its `MCONT` pages. -/

namespace Xv6Container.Containers

open Lib

variable {s t : Sys} {a : Act}

/-! ### The invariant -/

/-- An id of the container table. -/
def IsId (c : ℤ) : Prop := 0 ≤ c ∧ c < NCONT

theorem isId_zero : IsId 0 := ⟨le_rfl, by decide⟩

/-- Arguments are ids, a container is made only while there is room for it, and a page is
taken from a reserve only while there is one left. -/
def InRange (s : Sys) : Act → Prop
  | .call _ (.join_container c) | .call _ (.containerProcessNum c) => IsId c
  | .call _ .create_container => s.t.containerNum < NCONT
  | .step p _ =>
    match s.pc p with
    | .kstack _ _ => s.t.allocFor ≠ 0 → ∀ c : Fin NCONT, s.t.allocFor = c.val →
      (s.t.container c).used < MCONT
    | _ => True
  | _ => True

/-- The argument of the `joinContainer` the process is in. -/
def Pc.containerArg : Pc → Option ℤ
  | .setAlloc c _ => some c
  | .alloc k | .kstack k _ | .resetAlloc k _ | .copy k _ | .list k _ | .fields k _
  | .publish k _ => k.reserve
  | _ => none

/-- The scheduler is past the test of the loop over the containers. -/
def Phase.inTurn : Phase → Prop
  | .scan _ | .check => True
  | .pick | .round => False

/-- Every number that is used as an index is in range. -/
structure Bounds (s : Sys) : Prop where
  containerNum : 1 ≤ s.t.containerNum ∧ s.t.containerNum ≤ NCONT
  allocFor : IsId s.t.allocFor
  used : ∀ c, 0 ≤ (s.t.container c).used
  containerID : ∀ p, IsId (s.t.proc p).containerID
  arg : ∀ p c, (s.pc p).containerArg = some c → IsId c
  cpu : ∀ n, (s.cpu n).phase.inTurn → ((s.cpu n).cntNum : ℤ) < s.t.containerNum

namespace Bounds

/-- The acting process moves on; its argument is the old one or an id. -/
theorem goto (h : Bounds s) {p : Slot} {pc : Pc} {x : Tables} (hk : Kept s.t x)
    (harg : ∀ c, pc.containerArg = some c → (s.pc p).containerArg = some c ∨ IsId c) :
    Bounds (s.goto p pc x) where
  containerNum := by
    change 1 ≤ x.containerNum ∧ x.containerNum ≤ NCONT
    rw [hk.containerNum]
    exact h.containerNum
  allocFor := by
    change IsId x.allocFor
    rw [hk.allocFor]
    exact h.allocFor
  used c := (h.used c).trans (hk.used c)
  containerID q := by
    change IsId (x.proc q).containerID
    rw [hk.containerID]
    exact h.containerID q
  arg q c hq := by
    simp only [Sys.goto, Function.update_apply] at hq
    split_ifs at hq with hqp
    · exact (harg c hq).elim (h.arg p c) id
    · exact h.arg q c hq
  cpu n hn := by
    change ((s.cpu n).cntNum : ℤ) < x.containerNum
    rw [hk.containerNum]
    exact h.cpu n hn

theorem back (h : Bounds s) {p : Slot} {r : ℤ} {x : Tables} (hk : Kept s.t x) :
    Bounds (s.back p r x) := by
  have : Bounds (s.goto p .user x) := h.goto hk fun c hc => by cases hc
  exact ⟨this.containerNum, this.allocFor, this.used, this.containerID, this.arg, this.cpu⟩

theorem offCpu (h : Bounds s) (p : Slot) : Bounds (s.offCpu p) where
  containerNum := h.containerNum
  allocFor := h.allocFor
  used := h.used
  containerID := h.containerID
  arg := h.arg
  cpu n hn := by
    simp only [Sys.offCpu] at hn ⊢
    split_ifs at hn ⊢ <;> exact h.cpu n hn

theorem tables (h : Bounds s) {x : Tables} (hk : Kept s.t x) : Bounds { s with t := x } := by
  have := h.back (p := 0) (r := 0) hk
  exact ⟨this.containerNum, this.allocFor, this.used, this.containerID, h.arg, this.cpu⟩

end Bounds

/-! ### Calls and sections -/

theorem Bounds.call (h : Bounds s) {p : Slot} {c : Call} (hg : InRange s (.call p c))
    (ht : callStep s p c = .ok t) : Bounds t := by
  cases c with
  | fork => cases ht; exact h.goto (.refl _) fun c hc => by cases hc
  | join_container c =>
    cases ht
    refine h.goto (.refl _) fun d hd => .inr ?_
    cases hd
    exact hg
  | leave_container =>
    cases ht
    refine h.goto (.refl _) fun d hd => .inr ?_
    cases hd
    exact isId_zero
  | create_container =>
    cases ht
    have hnum := h.containerNum
    have hroom : s.t.containerNum < NCONT := hg
    refine ⟨?_, h.allocFor, h.used, h.containerID, fun q d hd => ?_, fun n hn => ?_⟩
    · simp only [Sys.goto]
      omega
    · simp only [Sys.goto, Function.update_apply] at hd
      split_ifs at hd
      · cases hd
      · exact h.arg q d hd
    · have := h.cpu n hn
      simp only [Sys.goto]
      omega
  | containerProcessNum c =>
    simp only [callStep] at ht
    split at ht
    · cases ht
    · cases ht; exact h.back (.refl _)
  | exit =>
    simp only [callStep] at ht
    split_ifs at ht
    cases ht
    exact h.goto (.refl _) fun c hc => by cases hc
  | wait => cases ht; exact h.goto (.refl _) fun c hc => by cases hc
  | kill pid => cases ht; exact h.back (.of_calm (.kill _ _))
  | scheduler_log_on =>
    cases ht
    have := h.back (p := p) (r := 0) (.refl s.t)
    exact ⟨this.containerNum, this.allocFor, this.used, this.containerID, this.arg, this.cpu⟩

/-- A new value of `allocFor` is 0 or the argument of the call. -/
theorem Bounds.setAllocFor (h : Bounds s) {p : Slot} {pc : Pc} {c : ℤ} (hc : IsId c)
    (harg : ∀ c, pc.containerArg = some c → (s.pc p).containerArg = some c) :
    Bounds (s.goto p pc { s.t with allocFor := c }) := by
  have : Bounds (s.goto p pc s.t) := h.goto (.refl s.t) fun d hd => .inl (harg d hd)
  exact ⟨this.containerNum, hc, this.used, this.containerID, this.arg, this.cpu⟩

/-- The child gets the container of its creator or the argument of the call. -/
theorem Bounds.copyFields (h : Bounds s) {p np : Slot} {k : Creator} (hpc : s.pc p = .fields k np) :
    Bounds (s.goto p (.publish k np) (s.t.copyFields p np (k.target s.t p))) := by
  have htarget : IsId (k.target s.t p) := by
    cases k with
    | fork => exact h.containerID p
    | join c pp => exact h.arg p c (by rw [hpc]; rfl)
  have : Bounds (s.goto p (.publish k np) s.t) :=
    h.goto (.refl s.t) fun d hd => .inl (by rw [hpc]; exact hd)
  refine ⟨this.containerNum, this.allocFor, this.used, fun q => ?_, this.arg, this.cpu⟩
  simp only [Sys.goto, Tables.copyFields, Tables.setProc_proc]
  split_ifs
  · exact htarget
  · exact h.containerID q

theorem Bounds.section (h : Bounds s) {p : Slot} {e : Env} (ht : sectionStep s p e = .ok t) :
    Bounds t := by
  have hnone : ∀ {pc : Pc} {c : ℤ}, pc.containerArg = none → pc.containerArg = some c →
      (s.pc p).containerArg = some c ∨ IsId c := by
    intro pc c hn hs
    rw [hn] at hs
    cases hs
  unfold sectionStep at ht
  split at ht
  next => cases ht
  next c pp hpc =>
    cases ht
    exact h.setAllocFor (h.arg p c (by rw [hpc]; rfl)) fun d hd => by rw [hpc]; exact hd
  next k hpc =>
    split at ht
    next => cases ht
    next => cases ht; exact h.back (.refl _)
    next np x hx =>
      cases ht
      exact h.goto (.allocproc hx) fun d hd => .inl (by rw [hpc]; exact hd)
  next k np hpc =>
    split at ht
    next => cases ht
    next x hx => cases ht; exact h.back (.allocKstack hx)
    next x hx =>
      split at ht <;> cases ht <;>
        exact h.goto (.allocKstack hx) fun d hd => .inl (by rw [hpc]; exact hd)
  next k np hpc =>
    cases ht
    exact h.setAllocFor isId_zero fun d hd => by rw [hpc]; exact hd
  next k np hpc =>
    split_ifs at ht <;> cases ht
    · exact h.goto (.refl _) fun d hd => .inl (by rw [hpc]; exact hd)
    · exact h.back (.setProc _ _ _ rfl)
  next k np hpc =>
    split at ht
    next => cases ht
    next x hx => cases ht; exact h.back ((Kept.insert hx).trans (.setProc _ _ _ rfl))
    next x hx =>
      cases ht
      exact h.goto (.insert hx) fun d hd => .inl (by rw [hpc]; exact hd)
  next k np hpc => cases ht; exact h.copyFields hpc
  next k np hpc =>
    split at ht <;> cases ht
    · exact h.back (.setProc _ _ _ rfl)
    · exact h.goto (.setProc _ _ _ rfl) fun d hd => hnone rfl hd
  next pp hpc =>
    split at ht
    next => cases ht
    next x hx =>
      split_ifs at ht
      cases ht
      exact h.goto (.removeProcess hx) fun d hd => hnone rfl hd
  next b hpc => cases ht; exact (h.back (.exitLocked _ _)).offCpu p
  next hpc =>
    split at ht
    next => cases ht; exact h.back (.setProc _ _ _ rfl)
    next => cases ht; exact h.back (.refl _)
    next =>
      cases ht
      exact (h.goto (.setProc _ _ _ rfl) fun d hd => hnone rfl hd).offCpu p
  next hpc =>
    split at ht
    next => cases ht
    next x hx => cases ht; exact h.goto (.addContainer hx) fun d hd => hnone rfl hd
  next hpc => cases ht; exact h.back (.refl _)

/-! ### The scheduler -/

/-- A turn begins only below `containerNum`. -/
theorem schedStep_inTurn {x y : Tables} {u v : Cpu}
    (hu : u.phase.inTurn → (u.cntNum : ℤ) < x.containerNum) (h : schedStep x u = .ok (y, v))
    (hv : v.phase.inTurn) : (v.cntNum : ℤ) < x.containerNum := by
  unfold schedStep at h
  split_ifs at h
  cases hphase : u.phase with
  | pick =>
    rw [hphase] at h
    change pick x u = _ at h
    unfold pick at h
    split at h
    next hlt =>
      split at h
      · cases h
      · split at h <;> cases h <;> exact hlt
    next =>
      cases h
      exact absurd hv id
  | scan next =>
    rw [hphase] at h
    have hcnt : (scan x u next).2.cntNum = u.cntNum := by
      unfold scan
      split <;> rfl
    have heq : v = (scan x u next).2 := by rw [Except.ok.inj h]
    rw [heq, hcnt]
    exact hu (by rw [hphase]; trivial)
  | check =>
    rw [hphase] at h
    change check x u = _ at h
    unfold check at h
    dsimp only at h
    split at h
    · split at h
      · cases h
      · split at h <;> cases h <;> exact absurd hv id
    · cases h
      exact absurd hv id
  | round =>
    rw [hphase] at h
    change endRound x u = _ at h
    unfold endRound at h
    dsimp only at h
    split at h
    · split at h <;> cases h
      exact absurd hv id
    · cases h
      exact absurd hv id

theorem Bounds.step (h : Bounds s) (hg : InRange s a) (ht : Containers.step s a = .ok t) :
    Bounds t := by
  cases a with
  | call p c =>
    simp only [Containers.step] at ht
    split_ifs at ht
    exact h.call hg ht
  | step p e =>
    simp only [Containers.step] at ht
    split_ifs at ht
    exact h.section ht
  | yield p =>
    simp only [Containers.step] at ht
    split_ifs at ht
    cases ht
    exact (h.tables (.setProc _ _ _ rfl)).offCpu p
  | sleep p chan =>
    simp only [Containers.step] at ht
    split_ifs at ht
    cases ht
    exact (h.tables (.setProc _ _ _ rfl)).offCpu p
  | wakeup chan => cases ht; exact h.tables (.of_calm (.wakeup1 _ _))
  | sched n =>
    simp only [Containers.step] at ht
    split at ht
    next => cases ht
    next x u hsched =>
      cases ht
      have hk : Kept s.t x := .of_calm (.schedStep hsched)
      have hx := h.tables hk
      refine ⟨hx.containerNum, hx.allocFor, hx.used, hx.containerID, h.arg, fun m hm => ?_⟩
      simp only [Function.update_apply] at hm ⊢
      rw [hk.containerNum]
      split_ifs at hm ⊢ with hmn
      · exact schedStep_inTurn (h.cpu n) hsched hm
      · exact h.cpu m hm

/-! ### No access outside the table -/

section Faults
variable {x : Tables} {p np : Slot} {c : ℤ} {f : Stop}

theorem Tables.conalloc_inside (pid : ℤ) (hc : IsId c) (h0 : ∀ k, 0 ≤ (x.container k).used)
    (h1 : ∀ k : Fin NCONT, c = k.val → (x.container k).used < MCONT) :
    ∃ r, x.conalloc c pid = .ok r := by
  obtain ⟨k, hk, hindex⟩ := index_of_lt .container hc.1 hc.2
  obtain ⟨i, hi, hindex'⟩ := index_of_lt .startAddr (h0 k) (h1 k hk)
  unfold Tables.conalloc
  rw [hindex]
  dsimp only
  rw [hindex']
  exact ⟨_, rfl⟩

theorem Tables.allocKstack_inside (np : Slot) (hc : IsId x.allocFor) (h0 : ∀ k, 0 ≤ (x.container k).used)
    (h1 : x.allocFor ≠ 0 → ∀ k : Fin NCONT, x.allocFor = k.val → (x.container k).used < MCONT)
    (page : Option Page) : ∃ r, x.allocKstack np page = .ok r := by
  unfold Tables.allocKstack
  split_ifs with hz
  · exact ⟨_, rfl⟩
  · obtain ⟨⟨mem, y⟩, hr⟩ := Tables.conalloc_inside (x.proc np).pid hc h0 (h1 hz)
    rw [hr]
    exact ⟨_, rfl⟩

theorem Tables.insertProcess_inside (hc : IsId c) : ∃ r, x.insertProcess c np = .ok r := by
  obtain ⟨k, -, hindex⟩ := index_of_lt .container hc.1 hc.2
  unfold Tables.insertProcess
  rw [hindex]
  dsimp only
  split <;> exact ⟨_, rfl⟩

theorem Creator.insert_inside (np : Slot) {k : Creator} (hcur : IsId (x.proc p).containerID)
    (harg : ∀ c, k.reserve = some c → IsId c) : ∃ r, k.insert x p np = .ok r := by
  cases k with
  | fork =>
    simp only [Creator.insert, Tables.forkInsert]
    split_ifs
    · exact Tables.insertProcess_inside hcur
    · exact ⟨_, rfl⟩
  | join c pp => exact Tables.insertProcess_inside (harg c rfl)

theorem Tables.removeProcess_inside (pp n : ℤ) (hc : IsId (x.proc p).containerID) :
    ∃ y, x.removeProcess p pp n = .ok y := by
  obtain ⟨k, -, hindex⟩ := index_of_lt .container hc.1 hc.2
  unfold Tables.removeProcess
  rw [hindex]
  dsimp only
  split <;> exact ⟨_, rfl⟩

theorem Tables.addContainer_inside (h : 1 ≤ x.containerNum ∧ x.containerNum ≤ NCONT)
    (pages : Fin MCONT → Option Page) : ∃ y, x.addContainer pages = .ok y := by
  obtain ⟨k, -, hindex⟩ := index_of_lt (n := NCONT) .container (i := x.containerNum - 1)
    (by omega) (by omega)
  unfold Tables.addContainer
  rw [hindex]
  exact ⟨_, rfl⟩

theorem Tables.containerProcessNum_inside (hc : IsId c) : ∃ r, x.containerProcessNum c = .ok r := by
  obtain ⟨k, -, hindex⟩ := index_of_lt .container hc.1 hc.2
  unfold Tables.containerProcessNum
  rw [hindex]
  exact ⟨_, rfl⟩

theorem Tables.allocproc_stop (h : x.allocproc = .error f) : f = .overflow := by
  unfold Tables.allocproc at h
  split at h
  · cases h
  · split_ifs at h
    cases h
    rfl

theorem schedStep_stop {u : Cpu} (hnum : x.containerNum ≤ NCONT)
    (hu : u.phase.inTurn → (u.cntNum : ℤ) < x.containerNum) (h : schedStep x u = .error f) :
    f = .disabled := by
  unfold schedStep at h
  split_ifs at h
  · cases h; rfl
  cases hphase : u.phase with
  | pick =>
    rw [hphase] at h
    change pick x u = _ at h
    unfold pick at h
    split at h
    next hlt =>
      obtain ⟨k, -, hindex⟩ := index_of_lt (n := NCONT) .curLocation (i := u.cntNum)
        (by omega) (by omega)
      rw [hindex] at h
      dsimp only at h
      split at h <;> cases h
    next => cases h
  | scan next => rw [hphase] at h; cases h
  | check =>
    rw [hphase] at h
    change check x u = _ at h
    unfold check at h
    have hlt := hu (by rw [hphase]; trivial)
    obtain ⟨k, -, hindex⟩ := index_of_lt (n := NCONT) .container (i := u.cntNum)
      (by omega) (by omega)
    rw [hindex] at h
    dsimp only at h
    split at h
    · split at h <;> cases h
    · cases h
  | round =>
    rw [hphase] at h
    change endRound x u = _ at h
    unfold endRound at h
    dsimp only at h
    rw [if_pos hnum] at h
    split at h <;> cases h

end Faults

/-- The stops that are not an access outside the table. -/
def Stop.inside : Stop → Prop
  | .oob _ _ => False
  | _ => True

theorem call_stop {p : Slot} {c : Call} {f : Stop}
    (hg : InRange s (.call p c)) (ht : callStep s p c = .error f) : f.inside := by
  cases c with
  | containerProcessNum c =>
    obtain ⟨r, hr⟩ := Tables.containerProcessNum_inside (x := s.t) hg
    simp only [callStep, hr] at ht
    cases ht
  | exit =>
    simp only [callStep] at ht
    split_ifs at ht
    cases ht
    trivial
  | _ => cases ht

theorem Bounds.section_stop (h : Bounds s) {p : Slot} {e : Env} {f : Stop}
    (hg : InRange s (.step p e)) (ht : sectionStep s p e = .error f) : f.inside := by
  unfold sectionStep at ht
  split at ht
  next => cases ht; trivial
  next => cases ht
  next =>
    split at ht
    next hf => cases ht; rw [Tables.allocproc_stop hf]; trivial
    next => cases ht
    next => cases ht
  next k np hpc =>
    simp only [InRange, hpc] at hg
    obtain ⟨⟨b, x⟩, hr⟩ := Tables.allocKstack_inside np h.allocFor h.used hg e.page
    rw [hr] at ht
    cases b with
    | false => cases ht
    | true => cases k <;> cases ht
  next => cases ht
  next => split_ifs at ht
  next k np hpc =>
    obtain ⟨⟨b, x⟩, hr⟩ := Creator.insert_inside np (h.containerID p)
      fun c hc => h.arg p c (by rw [hpc]; exact hc)
    rw [hr] at ht
    cases b <;> cases ht
  next => cases ht
  next => split at ht <;> cases ht
  next pp hpc =>
    obtain ⟨x, hr⟩ := Tables.removeProcess_inside pp e.nullPid (h.containerID p)
    rw [hr] at ht
    dsimp only at ht
    split_ifs at ht
    cases ht
    trivial
  next => cases ht
  next => split at ht <;> cases ht
  next =>
    obtain ⟨x, hr⟩ := Tables.addContainer_inside h.containerNum e.pages
    rw [hr] at ht
    cases ht
  next => cases ht

theorem Bounds.step_stop (h : Bounds s) {f : Stop} (hg : InRange s a)
    (ht : Containers.step s a = .error f) : f.inside := by
  cases a with
  | call p c =>
    simp only [Containers.step] at ht
    split_ifs at ht
    · exact call_stop hg ht
    · cases ht; trivial
  | step p e =>
    simp only [Containers.step] at ht
    split_ifs at ht
    · exact h.section_stop hg ht
    · cases ht; trivial
  | yield p | sleep p chan =>
    simp only [Containers.step] at ht
    split_ifs at ht
    cases ht
    trivial
  | wakeup chan => cases ht
  | sched n =>
    simp only [Containers.step] at ht
    split at ht
    next f' hsched =>
      cases ht
      rw [schedStep_stop h.containerNum.2 (h.cpu n) hsched]
      trivial
    next => cases ht

/-! ### Runs -/

theorem Booted.bounds (h : Booted s) : Bounds s := by
  have hid := h.pid.2.2.2
  obtain ⟨page, t, ht, rfl⟩ := h
  obtain ⟨t', ht', -, -, hfor, hnum, -, hcon⟩ := Tables.userinit_ok page
  cases Except.ok.inj (ht.symm.trans ht')
  refine ⟨?_, ?_, fun c => ?_, fun p => ?_, fun p c hp => (nomatch hp), fun n hn => absurd hn id⟩
  · simp only [boot, hnum]
    decide
  · simp only [boot, hfor]
    exact isId_zero
  · simp only [boot, hcon, Function.update_apply]
    split_ifs <;> exact le_rfl
  · have hp : ((boot t).t.proc p).containerID = 0 := congrFun hid p
    rw [hp]
    exact isId_zero

/-- In every run whose arguments are ids, with at most `NCONT` containers and no reserve
asked for more than its pages, no step accesses the container table outside its bounds. -/
theorem no_oob_of_inRange (hs : Reach step InRange Booted s) (hg : InRange s a)
    (array : CArray) (i : ℤ) : step s a ≠ .error (.oob array i) := by
  have h : Bounds s := hs.invariant (fun _ => Booted.bounds) fun _ _ _ h hg ht => h.step hg ht
  intro hoob
  exact h.step_stop hg hoob

/-! ### An argument that is no id -/

instance (c : ℤ) : Decidable (IsId c) := inferInstanceAs (Decidable (0 ≤ c ∧ c < NCONT))

instance (s : Sys) (a : Act) : Decidable (InRange s a) :=
  match a with
  | .call _ (.join_container c) | .call _ (.containerProcessNum c) =>
    inferInstanceAs (Decidable (IsId c))
  | .call _ .create_container => inferInstanceAs (Decidable (s.t.containerNum < NCONT))
  | .step p _ =>
    match h : s.pc p with
    | .kstack _ _ => decidable_of_iff (s.t.allocFor ≠ 0 → ∀ c : Fin NCONT, s.t.allocFor = c.val →
        (s.t.container c).used < MCONT) (by simp only [InRange, h])
    | .user | .setAlloc _ _ | .alloc _ | .resetAlloc _ _ | .copy _ _ | .list _ _ | .fields _ _
    | .publish _ _ | .delist _ | .exiting _ | .waiting | .initContainer | .createReturn =>
      .isTrue (by simp only [InRange, h])
  | .call _ .fork | .call _ .leave_container | .call _ .exit | .call _ .wait | .call _ (.kill _)
  | .call _ .scheduler_log_on | .yield _ | .sleep _ _ | .wakeup _ | .sched _ => .isTrue trivial

/-- After the child has joined container 1, its number of processes can be asked for. -/
theorem no_oob_after_join : ∃ s, s.containerID 2 = 1 ∧ ∀ array i,
    step s (.call 2 (.containerProcessNum 1)) ≠ .error (.oob array i) := by
  have hboot : Reach step InRange Booted firstBoot := .start booted_firstBoot
  obtain ⟨s, hs, ht⟩ := hboot.of_endsIn (fun s => decide (s.containerID 2 = 1)) joinRun
    (by decide +kernel)
  have hg : InRange s (.call 2 (.containerProcessNum 1)) := ⟨by decide, by decide⟩
  exact ⟨s, by simpa using ht, fun array i => no_oob_of_inRange hs hg array i⟩

/-- The first process joins container 77, and `allocproc` asks the reserve of container 77
for a page. -/
theorem join_oob : ∃ s a, Reach step always Booted s ∧ step s a = .error (.oob .container 77) := by
  have hboot : Reach step always Booted firstBoot := .start booted_firstBoot
  obtain ⟨s, hs, ht⟩ := hboot.of_endsIn
    (fun s => match step s (.step 0 answers) with
      | .error f => decide (f = .oob .container 77)
      | .ok _ => false)
    (turns 2 ++ .call 0 (.join_container 77) :: sections 0 2) (by decide +kernel)
  refine ⟨s, .step 0 answers, hs, ?_⟩
  split at ht
  next f hf => rw [hf, of_decide_eq_true ht]
  next => cases ht

end Xv6Container.Containers
