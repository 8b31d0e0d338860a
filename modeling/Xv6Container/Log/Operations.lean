import Xv6Container.Log.Reservation

/-! Transactions as sets of operations. `Run` adds to the system of `Reservation` what it
does not keep: the blocks of the operations that have ended since the last commit, and
the header of every commit with the operations in it. -/

namespace Xv6Container.Log

open Lib

namespace Reservation

/-! ### Commit excludes operations -/

variable {s t : Sys} {p q : Slot} {b : BlockNo} {pc : OpPc} {a : Act}

/-- Operations are counted, and one process at most commits, while there are none. -/
structure Exclusive (s : Sys) : Prop where
  commits : ∀ p, (s.pc p).commits = true → s.committing = true
  alone : ∀ p q, (s.pc p).commits = true → (s.pc q).commits = true → p = q
  outstanding : s.outstanding = (s.active.card : ℤ)
  quiet : s.committing = true → s.active = ∅

namespace Exclusive

theorem boot : Exclusive boot := by
  have hact : Reservation.boot.active = ∅ := by
    simp [Sys.active, Reservation.boot, OpPc.active]
  refine ⟨by rintro _ ⟨⟩, by rintro _ _ ⟨⟩, ?_, fun _ => hact⟩
  rw [hact]
  rfl

theorem not_committing (h : Exclusive s) (hp : (s.pc p).active = true) : s.committing = false := by
  cases hc : s.committing
  · rfl
  · have := h.quiet hc ▸ Sys.mem_active.2 hp
    simp at this

theorem not_commits (h : Exclusive s) (hc : s.committing = false) (q : Slot) :
    (s.pc q).commits = false := by
  cases hq : (s.pc q).commits
  · rfl
  · exact absurd (hc.symm.trans (h.commits q hq)) (by decide)

/-- Steps that move no process into or out of an operation or `commit`. -/
theorem same (h : Exclusive s) (hact : ∀ q, (t.pc q).active = (s.pc q).active)
    (hcom : ∀ q, (t.pc q).commits = (s.pc q).commits) (ho : t.outstanding = s.outstanding)
    (hc : t.committing = s.committing) : Exclusive t := by
  have hset := Sys.active_congr hact
  constructor
  case commits =>
    intro p hp
    rw [hc]
    exact h.commits p ((hcom p).symm.trans hp)
  case alone =>
    intro p q hp hq
    exact h.alone p q ((hcom p).symm.trans hp) ((hcom q).symm.trans hq)
  case outstanding => rw [ho, hset]; exact h.outstanding
  case quiet => rw [hc, hset]; exact h.quiet

/-- One process moves, with the same part in operations and in `commit` as before. -/
theorem same_goto (h : Exclusive s) {u : Sys} (hu : u.pc = s.pc) (ho : u.outstanding = s.outstanding)
    (hc : u.committing = s.committing) (hact : pc.active = (s.pc p).active)
    (hcom : pc.commits = (s.pc p).commits) : Exclusive (u.goto p pc) := by
  refine h.same (fun q => ?_) (fun q => ?_) ho hc
  · simp only [Sys.goto, hu, Function.update_apply]
    split_ifs with hq
    · rw [hq, hact]
    · rfl
  · simp only [Sys.goto, hu, Function.update_apply]
    split_ifs with hq
    · rw [hq, hcom]
    · rfl

theorem wakeup (h : Exclusive s) : Exclusive s.wakeup := by
  refine h.same (fun q => ?_) (fun q => ?_) rfl rfl
  · simp only [Sys.wakeup]
    split_ifs with hq
    · rw [hq]
      rfl
    · rfl
  · simp only [Sys.wakeup]
    split_ifs with hq
    · rw [hq]
      rfl
    · rfl

theorem enter (h : Exclusive s) {u : Sys} (hu : u.pc = s.pc) (ho : u.outstanding = s.outstanding + 1)
    (hc : u.committing = false) (hsc : s.committing = false) (hp : (s.pc p).active = false) :
    Exclusive (u.goto p .running) := by
  have hact := Sys.active_goto u p .running
  rw [Sys.active_congr (t := u) (s := s) fun q => by rw [hu]] at hact
  change _ = insert p s.active at hact
  have hnot : p ∉ s.active := by simp [Sys.mem_active, hp]
  have hnone : ∀ q, ((u.goto p .running).pc q).commits = false := by
    refine forall_of_update p ?_ fun q hq => ?_
    · simp [Sys.goto, OpPc.commits]
    · simp only [Sys.goto, Function.update_of_ne hq, hu]
      exact h.not_commits hsc q
  constructor
  case commits => exact fun q hq => absurd ((hnone q).symm.trans hq) (by decide)
  case alone => exact fun q r hq => absurd ((hnone q).symm.trans hq) (by decide)
  case outstanding =>
    rw [hact, Finset.card_insert_of_notMem hnot]
    simp only [Sys.goto, ho, h.outstanding]
    omega
  case quiet => exact fun h' => absurd (hc.symm.trans h') (by decide)

/-- An operation ends; the last one goes on to `commit`. -/
theorem leave (h : Exclusive s) {u : Sys} (hu : u.pc = s.pc)
    (ho : u.outstanding = s.outstanding - 1) (hp : (s.pc p).active = true)
    (hpc : pc.active = false) (hcom : pc.commits = true → u.committing = true)
    (hc : u.committing = true → s.outstanding - 1 = 0) : Exclusive (u.goto p pc) := by
  have hmem := Sys.mem_active.2 hp
  have hact := Sys.active_goto u p pc
  rw [Sys.active_congr (t := u) (s := s) fun q => by rw [hu], hpc] at hact
  change _ = s.active.erase p at hact
  have hsc := h.not_committing hp
  have honly : ∀ q, ((u.goto p pc).pc q).commits = true → q = p := by
    intro q hq
    by_contra hqp
    simp only [Sys.goto, Function.update_of_ne hqp, hu, h.not_commits hsc q] at hq
    cases hq
  have hcard := Finset.card_erase_of_mem hmem
  have hpos := Finset.card_pos.2 ⟨p, hmem⟩
  have hout := h.outstanding
  constructor
  case commits =>
    intro q hq
    have hqp := honly q hq
    subst hqp
    simp only [Sys.goto, Function.update_self] at hq
    exact hcom hq
  case alone => exact fun q r hq hr => (honly q hq).trans (honly r hr).symm
  case outstanding =>
    rw [hact, hcard]
    simp only [Sys.goto, ho]
    omega
  case quiet =>
    intro hq
    have := hc hq
    rw [hact, ← Finset.card_eq_zero, hcard]
    omega

theorem finish (h : Exclusive s) (hp : (s.pc p).commits = true) :
    Exclusive ({ s with committing := false }.goto p .idle) := by
  have he := h.quiet (h.commits p hp)
  have hact := Sys.active_goto { s with committing := false } p .idle
  change _ = s.active.erase p at hact
  rw [he, Finset.erase_empty] at hact
  have hnone : ∀ q, (({ s with committing := false }.goto p .idle).pc q).commits = false := by
    refine forall_of_update p ?_ fun q hq => ?_
    · simp [Sys.goto, OpPc.commits]
    · simp only [Sys.goto, Function.update_of_ne hq]
      by_contra hcq
      exact hq (h.alone q p (Bool.eq_true_of_not_eq_false hcq) hp)
  constructor
  case commits => exact fun q hq => absurd ((hnone q).symm.trans hq) (by decide)
  case alone => exact fun q r hq => absurd ((hnone q).symm.trans hq) (by decide)
  case outstanding =>
    rw [hact]
    exact h.outstanding.trans (by rw [he])
  case quiet => exact fun _ => hact

theorem beginOp (h : Exclusive s) (hp : s.pc p = .beginning) : Exclusive (s.beginOp p) := by
  unfold Sys.beginOp
  split_ifs with hc hn
  · exact h.same_goto rfl rfl rfl (by rw [hp]; rfl) (by rw [hp]; rfl)
  · exact h.same_goto rfl rfl rfl (by rw [hp]; rfl) (by rw [hp]; rfl)
  · have hf := Bool.eq_false_of_not_eq_true hc
    exact h.enter (u := { s with
      outstanding := s.outstanding + 1
      wrote := Function.update s.wrote p ∅ }) rfl rfl hf hf (by rw [hp]; rfl)

theorem endOp (h : Exclusive s) (hp : s.pc p = .running) (ht : s.endOp p = .ok t) :
    Exclusive t := by
  have hpa : (s.pc p).active = true := by rw [hp]; rfl
  unfold Sys.endOp at ht
  split_ifs at ht with hc ho
  · cases ht
    exact h.leave (u := { s with outstanding := s.outstanding - 1, committing := true }) rfl rfl hpa
      rfl (fun _ => rfl) (fun _ => ho)
  · cases ht
    have hidle : Exclusive ({ s with outstanding := s.outstanding - 1 }.goto p .idle) :=
      h.leave (u := { s with outstanding := s.outstanding - 1 }) rfl rfl hpa rfl nofun
        fun h' => absurd h' hc
    exact hidle.wakeup

theorem step (h : Exclusive s) (ht : Reservation.step s a = .ok t) : Exclusive t := by
  cases a with
  | begin_op p =>
    simp only [Reservation.step] at ht
    split_ifs at ht with hp
    cases ht
    exact h.same_goto rfl rfl rfl (by rw [hp]; rfl) (by rw [hp]; rfl)
  | log_write p b =>
    simp only [Reservation.step] at ht
    split_ifs at ht with hp
    unfold Sys.logWrite at ht
    split at ht
    next => cases ht
    next =>
      cases ht
      exact h.same_goto (u := { s with
        wrote := Function.update s.wrote p (insert b (s.wrote p)) }) rfl rfl rfl (by rw [hp]; rfl)
        (by rw [hp]; rfl)
  | end_op p =>
    simp only [Reservation.step] at ht
    split_ifs at ht with hp
    exact h.endOp hp ht
  | step p =>
    simp only [Reservation.step, sectionStep] at ht
    split at ht
    next hp =>
      cases ht
      exact h.beginOp hp
    next b hp =>
      unfold Sys.logAdd at ht
      split at ht
      next => cases ht
      next lh _ =>
        cases ht
        exact h.same_goto (u := { s with lh := lh }) rfl rfl rfl (by rw [hp]; rfl) (by rw [hp]; rfl)
    next hp =>
      cases ht
      exact h.same_goto (u := { s with lh := [] }) rfl rfl rfl (by rw [hp]; rfl) (by rw [hp]; rfl)
    next hp =>
      cases ht
      exact (h.finish (by rw [hp]; rfl)).wakeup
    all_goals cases ht
  | kill p =>
    simp only [Reservation.step] at ht
    split_ifs at ht with hp
    cases ht
    exact h.same_goto rfl rfl rfl (by rw [hp]; rfl) (by rw [hp]; rfl)

end Exclusive

end Reservation

/-! ### Transactions -/

namespace Operations

open Reservation

/-- An operation that has ended: its process and the blocks it gave to `log_write`. -/
structure Op where
  proc : Slot
  blocks : Finset BlockNo

/-- What one `commit` writes, and the operations that have ended since the one before. -/
structure Txn where
  lh : List BlockNo
  ops : List Op

/-- `ended` and `txns` only record what happens. -/
structure Run where
  sys : Sys
  ended : List Op
  txns : List Txn

def step (r : Run) (a : Reservation.Act) : Except Stop Run :=
  match Reservation.step r.sys a with
  | .error e => .error e
  | .ok t =>
    match a with
    | .end_op p => .ok { r with sys := t, ended := r.ended ++ [⟨p, r.sys.wrote p⟩] }
    | .step p =>
      if r.sys.pc p = .committing then
        .ok ⟨t, [], r.txns ++ [⟨r.sys.lh, r.ended⟩]⟩
      else .ok { r with sys := t }
    | .begin_op _ | .log_write _ _ | .kill _ => .ok { r with sys := t }

def Booted (r : Run) : Prop := r = ⟨boot, [], []⟩

variable {r r' : Run} {a : Reservation.Act} {p : Slot} {b : BlockNo}

/-- The blocks of the header are those of the operations that have ended since the last
commit and of those under way; a block is missing only while its process adds it. -/
structure Content (r : Run) : Prop where
  excl : Exclusive r.sys
  nodup : r.sys.lh.Nodup
  from_ops : ∀ b ∈ r.sys.lh, (∃ o ∈ r.ended, b ∈ o.blocks) ∨ ∃ p ∈ r.sys.active, b ∈ r.sys.wrote p
  ended : ∀ o ∈ r.ended, ∀ b ∈ o.blocks, b ∈ r.sys.lh
  pending : ∀ p b, r.sys.pc p = .adding b → b ∈ r.sys.wrote p
  active : ∀ p ∈ r.sys.active, ∀ b ∈ r.sys.wrote p, b ∈ r.sys.lh ∨ r.sys.pc p = .adding b
  txns : ∀ x ∈ r.txns, ∀ b, b ∈ x.lh ↔ ∃ o ∈ x.ops, b ∈ o.blocks

namespace Content

variable {t : Sys}

/-- Steps that leave the header and the processes in operations as they are. -/
theorem move (h : Content r) (hex : Exclusive t) (hlh : t.lh = r.sys.lh)
    (hw : t.wrote = r.sys.wrote) (hact : ∀ p, (t.pc p).active = (r.sys.pc p).active)
    (hpc : ∀ p, (r.sys.pc p).active = true → t.pc p = r.sys.pc p) :
    Content { r with sys := t } := by
  have hset : t.active = r.sys.active := Sys.active_congr hact
  constructor
  case excl => exact hex
  case nodup => exact hlh ▸ h.nodup
  case from_ops =>
    simp only [hlh, hw, hset]
    exact h.from_ops
  case ended =>
    simp only [hlh]
    exact h.ended
  case pending =>
    intro p b hp
    have hp' : (t.pc p).active = true := by rw [show t.pc p = .adding b from hp]; rfl
    simp only [hw]
    exact h.pending p b ((hpc p ((hact p).symm.trans hp')).symm.trans hp)
  case active =>
    intro p hp b hb
    simp only [hset, hlh, hw] at hp hb ⊢
    rw [hpc p (Sys.mem_active.1 hp)]
    exact h.active p hp b hb
  case txns => exact h.txns

/-- A process outside of every operation moves to another such place. -/
theorem goto (h : Content r) {u : Sys} (hu : u.pc = r.sys.pc) (hlh : u.lh = r.sys.lh)
    (hw : u.wrote = r.sys.wrote) {pc : OpPc} (hpc : pc.active = false)
    (hp : (r.sys.pc p).active = false) (hex : Exclusive (u.goto p pc)) :
    Content { r with sys := u.goto p pc } := by
  refine h.move hex hlh hw (forall_of_update p ?_ fun q hq => ?_)
    (forall_of_update p ?_ fun q hq _ => ?_)
  · simp only [Sys.goto, Function.update_self, hpc, hp]
  · simp only [Sys.goto, Function.update_of_ne hq, hu]
  · exact fun h' => absurd (hp.symm.trans h') (by decide)
  · simp only [Sys.goto, Function.update_of_ne hq, hu]

theorem wakeup (h : Content r) : Content { r with sys := r.sys.wakeup } := by
  refine h.move h.excl.wakeup rfl rfl (fun q => ?_) fun q hq => ?_
  · simp only [Sys.wakeup]
    split_ifs with hp
    · rw [hp]
      rfl
    · rfl
  · simp only [Sys.wakeup]
    split_ifs with hp
    · rw [hp] at hq
      cases hq
    · rfl

/-- A new operation has written nothing. -/
theorem enter (h : Content r) {u : Sys} (hu : u.pc = r.sys.pc) (hlh : u.lh = r.sys.lh)
    (hw : u.wrote = Function.update r.sys.wrote p ∅) (hp : (r.sys.pc p).active = false)
    (hex : Exclusive (u.goto p .running)) : Content { r with sys := u.goto p .running } := by
  have hact := Sys.active_goto u p .running
  rw [Sys.active_congr (t := u) (s := r.sys) fun q => by rw [hu]] at hact
  change _ = insert p r.sys.active at hact
  have hne : ∀ q ∈ r.sys.active, q ≠ p := by
    rintro q hq rfl
    exact absurd (hp.symm.trans (Sys.mem_active.1 hq)) (by decide)
  constructor
  case excl => exact hex
  case nodup => exact hlh ▸ h.nodup
  case from_ops =>
    intro b hb
    simp only [Sys.goto, hlh] at hb
    refine (h.from_ops b hb).imp_right ?_
    rintro ⟨q, hq, hbq⟩
    refine ⟨q, ?_, ?_⟩
    · rw [hact]
      exact Finset.mem_insert_of_mem hq
    · simpa only [Sys.goto, hw, Function.update_of_ne (hne q hq)] using hbq
  case ended =>
    simp only [Sys.goto, hlh]
    exact h.ended
  case pending =>
    refine forall_of_update p (fun b hb => ?_) fun q hq b hb => ?_
    · simp [Sys.goto] at hb
    · simp only [Sys.goto, Function.update_of_ne hq, hu, hw] at hb ⊢
      exact h.pending q b hb
  case active =>
    intro q hq b hb
    rw [hact, Finset.mem_insert] at hq
    rcases hq with rfl | hq
    · simp [Sys.goto, hw] at hb
    · simp only [Sys.goto, hw, Function.update_of_ne (hne q hq), hu, hlh] at hb ⊢
      exact h.active q hq b hb
  case txns => exact h.txns

theorem beginOp (h : Content r) (hp : r.sys.pc p = .beginning) :
    Content { r with sys := r.sys.beginOp p } := by
  have hex := h.excl.beginOp hp
  have hpa : (r.sys.pc p).active = false := by rw [hp]; rfl
  unfold Sys.beginOp at hex ⊢
  split_ifs at hex ⊢ with hc hn
  · exact h.goto rfl rfl rfl rfl hpa hex
  · exact h.goto rfl rfl rfl rfl hpa hex
  · exact h.enter (u := { r.sys with
      outstanding := r.sys.outstanding + 1
      wrote := Function.update r.sys.wrote p ∅ }) rfl rfl rfl hpa hex

/-- The tests of `log_write` name a block that is still to be added. -/
theorem logWrite (h : Content r) (hp : r.sys.pc p = .running) (ht : r.sys.logWrite p b = .ok t)
    (hex : Exclusive t) : Content { r with sys := t } := by
  have hpa : (r.sys.pc p).active = true := by rw [hp]; rfl
  unfold Sys.logWrite at ht
  split at ht
  next => cases ht
  next =>
    cases ht
    have hact := Sys.active_goto { r.sys with
      wrote := Function.update r.sys.wrote p (insert b (r.sys.wrote p)) } p (.adding b)
    change _ = insert p r.sys.active at hact
    rw [Finset.insert_eq_of_mem (Sys.mem_active.2 hpa)] at hact
    have hsub : ∀ q, r.sys.wrote q ⊆ Function.update r.sys.wrote p (insert b (r.sys.wrote p)) q := by
      refine forall_of_update p ?_ fun q hq => ?_
      · rw [Function.update_self]
        exact Finset.subset_insert _ _
      · rw [Function.update_of_ne hq]
    constructor
    case excl => exact hex
    case nodup => exact h.nodup
    case from_ops =>
      intro b' hb'
      refine (h.from_ops b' hb').imp_right fun ⟨q, hq, hbq⟩ => ⟨q, hact ▸ hq, hsub q hbq⟩
    case ended => exact h.ended
    case pending =>
      refine forall_of_update p (fun b' hb' => ?_) fun q hq b' hb' => ?_
      · simp only [Sys.goto, Function.update_self, OpPc.adding.injEq] at hb' ⊢
        exact hb' ▸ Finset.mem_insert_self _ _
      · simp only [Sys.goto, Function.update_of_ne hq] at hb' ⊢
        exact h.pending q b' hb'
    case active =>
      refine forall_of_update p (fun _ b' hb' => ?_) fun q hq hqa b' hb' => ?_
      · simp only [Sys.goto, Function.update_self, Finset.mem_insert] at hb' ⊢
        rcases hb' with rfl | hb'
        · exact .inr rfl
        · refine (h.active p (Sys.mem_active.2 hpa) b' hb').imp_right fun h' => ?_
          rw [hp] at h'
          cases h'
      · simp only [Sys.goto, Function.update_of_ne hq] at hb' ⊢
        exact h.active q (hact ▸ hqa) b' hb'
    case txns => exact h.txns

theorem logAdd (h : Content r) (hp : r.sys.pc p = .adding b) (ht : r.sys.logAdd p b = .ok t)
    (hex : Exclusive t) : Content { r with sys := t } := by
  have hpa : (r.sys.pc p).active = true := by rw [hp]; rfl
  unfold Sys.logAdd at ht
  split at ht
  next => cases ht
  next lh hlh =>
    cases ht
    have hact := Sys.active_goto { r.sys with lh := lh } p .running
    change _ = insert p r.sys.active at hact
    rw [Finset.insert_eq_of_mem (Sys.mem_active.2 hpa)] at hact
    have hmem : ∀ b', b' ∈ lh ↔ b' = b ∨ b' ∈ r.sys.lh := by
      intro b'
      rcases logWriteAdd_ok hlh with ⟨hb, rfl⟩ | ⟨-, -, rfl⟩
      · exact ⟨.inr, fun h' => h'.elim (fun he => he ▸ hb) id⟩
      · rw [List.mem_append, List.mem_singleton, or_comm]
    constructor
    case excl => exact hex
    case nodup =>
      rcases logWriteAdd_ok hlh with ⟨-, rfl⟩ | ⟨hb, -, rfl⟩
      · exact h.nodup
      · exact List.nodup_append.2 ⟨h.nodup, List.nodup_singleton b, fun b₁ h₁ b₂ h₂ he =>
          hb (List.mem_singleton.1 h₂ ▸ he ▸ h₁)⟩
    case from_ops =>
      intro b' hb'
      rw [hact]
      rcases (hmem b').1 hb' with rfl | hb'
      · exact .inr ⟨p, Sys.mem_active.2 hpa, h.pending p b' hp⟩
      · exact h.from_ops b' hb'
    case ended => exact fun o ho b' hb' => (hmem b').2 (.inr (h.ended o ho b' hb'))
    case pending =>
      refine forall_of_update p (fun b' hb' => ?_) fun q hq b' hb' => ?_
      · simp [Sys.goto] at hb'
      · simp only [Sys.goto, Function.update_of_ne hq] at hb'
        exact h.pending q b' hb'
    case active =>
      refine forall_of_update p (fun _ b' hb' => .inl ((hmem b').2 ?_)) fun q hq hqa b' hb' => ?_
      · rcases h.active p (Sys.mem_active.2 hpa) b' hb' with h' | h'
        · exact .inr h'
        · rw [hp] at h'
          exact .inl (OpPc.adding.inj h').symm
      · simp only [Sys.goto, Function.update_of_ne hq]
        exact (h.active q (hact ▸ hqa) b' hb').imp_left fun h' => (hmem b').2 (.inr h')
    case txns => exact h.txns

/-- An operation that ends has added all its blocks. -/
theorem leave (h : Content r) {u : Sys} (hu : u.pc = r.sys.pc) (hlh : u.lh = r.sys.lh)
    (hw : u.wrote = r.sys.wrote) (hp : r.sys.pc p = .running) {pc : OpPc} (hpc : pc.active = false)
    (hex : Exclusive (u.goto p pc)) :
    Content { r with sys := u.goto p pc, ended := r.ended ++ [⟨p, r.sys.wrote p⟩] } := by
  have hpa : p ∈ r.sys.active := Sys.mem_active.2 (by rw [hp]; rfl)
  have hact := Sys.active_goto u p pc
  rw [Sys.active_congr (t := u) (s := r.sys) fun q => by rw [hu], hpc] at hact
  change _ = r.sys.active.erase p at hact
  constructor
  case excl => exact hex
  case nodup => exact hlh ▸ h.nodup
  case from_ops =>
    intro b hb
    simp only [Sys.goto, hlh] at hb
    rcases h.from_ops b hb with ⟨o, ho, hbo⟩ | ⟨q, hq, hbq⟩
    · exact .inl ⟨o, List.mem_append_left _ ho, hbo⟩
    · by_cases hqp : q = p
      · subst hqp
        exact .inl ⟨_, List.mem_append_right _ (List.mem_singleton.2 rfl), hbq⟩
      · refine .inr ⟨q, hact ▸ Finset.mem_erase.2 ⟨hqp, hq⟩, ?_⟩
        simpa only [Sys.goto, hw] using hbq
  case ended =>
    intro o ho b hb
    simp only [Sys.goto, hlh]
    rcases List.mem_append.1 ho with ho | ho
    · exact h.ended o ho b hb
    · rw [List.mem_singleton.1 ho] at hb
      refine (h.active p hpa b hb).resolve_right fun h' => ?_
      rw [hp] at h'
      cases h'
  case pending =>
    refine forall_of_update p (fun b hb => ?_) fun q hq b hb => ?_
    · simp only [Sys.goto, Function.update_self] at hb
      rw [hb] at hpc
      cases hpc
    · simp only [Sys.goto, Function.update_of_ne hq, hu, hw] at hb ⊢
      exact h.pending q b hb
  case active =>
    intro q hq b hb
    obtain ⟨hqp, hq⟩ := Finset.mem_erase.1 (hact ▸ hq)
    simp only [Sys.goto, Function.update_of_ne hqp, hu, hw, hlh] at hb ⊢
    exact h.active q hq b hb
  case txns => exact h.txns

theorem endOp (h : Content r) (hp : r.sys.pc p = .running) (ht : r.sys.endOp p = .ok t) :
    Content { r with sys := t, ended := r.ended ++ [⟨p, r.sys.wrote p⟩] } := by
  have hex := h.excl.endOp hp ht
  unfold Sys.endOp at ht
  split_ifs at ht with hc ho
  · cases ht
    exact h.leave (u := { r.sys with
      outstanding := r.sys.outstanding - 1, committing := true }) rfl rfl rfl hp rfl hex
  · cases ht
    have hpa : (r.sys.pc p).active = true := by rw [hp]; rfl
    have hidle : Exclusive ({ r.sys with outstanding := r.sys.outstanding - 1 }.goto p .idle) :=
      h.excl.leave (u := { r.sys with outstanding := r.sys.outstanding - 1 }) rfl rfl hpa rfl nofun
        fun h' => absurd h' hc
    exact (h.leave (u := { r.sys with outstanding := r.sys.outstanding - 1 }) rfl rfl rfl hp rfl
      hidle).wakeup

/-- `commit` takes what the ended operations have written, and nothing else. -/
theorem commit (h : Content r) (hp : r.sys.pc p = .committing)
    (hex : Exclusive (Sys.goto { r.sys with lh := [] } p .committed)) :
    Content ⟨Sys.goto { r.sys with lh := [] } p .committed, [], r.txns ++ [⟨r.sys.lh, r.ended⟩]⟩ := by
  have hpc : (r.sys.pc p).commits = true := by rw [hp]; rfl
  have he := h.excl.quiet (h.excl.commits p hpc)
  have hact := Sys.active_goto { r.sys with lh := [] } p .committed
  change _ = r.sys.active.erase p at hact
  rw [he, Finset.erase_empty] at hact
  constructor
  case excl => exact hex
  case nodup => exact List.nodup_nil
  case from_ops => exact fun b hb => absurd hb List.not_mem_nil
  case ended => exact fun o ho => absurd ho List.not_mem_nil
  case pending =>
    refine forall_of_update p (fun b hb => ?_) fun q hq b hb => ?_
    · simp [Sys.goto] at hb
    · simp only [Sys.goto, Function.update_of_ne hq] at hb
      exact h.pending q b hb
  case active => exact fun q hq => absurd (hact ▸ hq) (Finset.notMem_empty q)
  case txns =>
    intro x hx b
    rcases List.mem_append.1 hx with hx | hx
    · exact h.txns x hx b
    · rw [List.mem_singleton.1 hx]
      constructor
      · intro hb
        refine (h.from_ops b hb).resolve_right ?_
        rintro ⟨q, hq, -⟩
        exact absurd (he ▸ hq) (Finset.notMem_empty q)
      · rintro ⟨o, ho, hb⟩
        exact h.ended o ho b hb

theorem finish (h : Content r) (hp : r.sys.pc p = .committed) :
    Content { r with sys := (Sys.goto { r.sys with committing := false } p .idle).wakeup } := by
  have hpa : (r.sys.pc p).active = false := by rw [hp]; rfl
  have hidle : Content { r with sys := Sys.goto { r.sys with committing := false } p .idle } :=
    h.goto (u := { r.sys with committing := false }) rfl rfl rfl rfl hpa
      (h.excl.finish (by rw [hp]; rfl))
  exact hidle.wakeup

theorem boot : Content ⟨Reservation.boot, [], []⟩ := by
  constructor
  case excl => exact .boot
  case nodup => exact List.nodup_nil
  case from_ops => exact fun b hb => absurd hb List.not_mem_nil
  case ended => exact fun o ho => absurd ho List.not_mem_nil
  case pending => exact fun p b hp => nomatch hp
  case active => exact fun p hp => nomatch Sys.mem_active.1 hp
  case txns => exact fun x hx => absurd hx List.not_mem_nil

theorem section_step (h : Content r) (ht : sectionStep r.sys p = .ok t)
    (hp : r.sys.pc p ≠ .committing) : Content { r with sys := t } := by
  have hex := h.excl.step (a := .step p) ht
  unfold sectionStep at ht
  split at ht
  next hb =>
    cases ht
    exact h.beginOp hb
  next b hb => exact h.logAdd hb ht hex
  next hc => exact absurd hc hp
  next hc =>
    cases ht
    exact h.finish hc
  all_goals cases ht

theorem step (h : Content r) (ht : Operations.step r a = .ok r') : Content r' := by
  unfold Operations.step at ht
  split at ht
  next => cases ht
  next t hs =>
    have hex := h.excl.step hs
    cases a with
    | begin_op p =>
      cases ht
      simp only [Reservation.step] at hs
      split_ifs at hs with hp
      cases hs
      exact h.goto rfl rfl rfl rfl (by rw [hp]; rfl) hex
    | log_write p b =>
      cases ht
      simp only [Reservation.step] at hs
      split_ifs at hs with hp
      exact h.logWrite hp hs hex
    | end_op p =>
      cases ht
      simp only [Reservation.step] at hs
      split_ifs at hs with hp
      exact h.endOp hp hs
    | step p =>
      simp only at ht
      split_ifs at ht with hp
      · cases ht
        simp only [Reservation.step, sectionStep, hp] at hs
        cases hs
        exact h.commit hp hex
      · cases ht
        exact h.section_step hs hp
    | kill p =>
      cases ht
      simp only [Reservation.step] at hs
      split_ifs at hs with hp
      cases hs
      exact h.goto rfl rfl rfl rfl (by rw [hp]; rfl) hex

theorem of_reach (hr : Reach Operations.step always Booted r) : Content r :=
  hr.invariant (fun _ h => h ▸ .boot) fun _ _ _ h _ ht => h.step ht

end Content

/-- The sections that change the header: the locked part of `log_write`, and `commit`. -/
theorem step_lh (ht : step r a = .ok r') :
    r'.sys.lh = r.sys.lh ∨ ∃ p, a = .step p ∧ (r.sys.pc p = .committing ∨
      ∃ b, r.sys.pc p = .adding b) := by
  unfold step at ht
  split at ht
  next => cases ht
  next t hs =>
    cases a with
    | begin_op p =>
      cases ht
      simp only [Reservation.step] at hs
      split_ifs at hs with hp
      cases hs
      exact .inl rfl
    | log_write p b =>
      cases ht
      simp only [Reservation.step, Sys.logWrite] at hs
      split_ifs at hs with hp
      split at hs
      next => cases hs
      next =>
        cases hs
        exact .inl rfl
    | end_op p =>
      cases ht
      simp only [Reservation.step, Sys.endOp] at hs
      split_ifs at hs
      · cases hs
        exact .inl rfl
      · cases hs
        exact .inl rfl
    | step p =>
      simp only at ht
      split_ifs at ht with hp
      · exact .inr ⟨p, rfl, .inl hp⟩
      · cases ht
        simp only [Reservation.step, sectionStep] at hs
        split at hs
        next =>
          cases hs
          left
          change (r.sys.beginOp p).lh = r.sys.lh
          unfold Sys.beginOp
          split_ifs <;> rfl
        next b hb => exact .inr ⟨p, rfl, .inr ⟨b, hb⟩⟩
        next hc => exact absurd hc hp
        next =>
          cases hs
          exact .inl rfl
        all_goals cases hs
    | kill p =>
      cases ht
      simp only [Reservation.step] at hs
      split_ifs at hs with hp
      cases hs
      exact .inl rfl

namespace Content

/-- While a process commits, nobody is in an operation. -/
theorem not_active (h : Content r) (hp : (r.sys.pc p).commits = true) (q : Slot) :
    (r.sys.pc q).active = false := by
  by_contra hq
  have hq' := Sys.mem_active.2 (Bool.eq_true_of_not_eq_false hq)
  rw [h.excl.quiet (h.excl.commits p hp)] at hq'
  exact Finset.notMem_empty q hq'

/-- While a process commits, only its own steps change the header. -/
theorem lh_of_commits (h : Content r) (hp : (r.sys.pc p).commits = true)
    (ht : Operations.step r a = .ok r') (ha : a ≠ .step p) : r'.sys.lh = r.sys.lh := by
  refine (step_lh ht).resolve_right ?_
  rintro ⟨q, rfl, hq | ⟨b, hq⟩⟩
  · apply ha
    rw [h.excl.alone q p (by rw [hq]; rfl) hp]
  · have hact := h.not_active hp q
    rw [hq] at hact
    cases hact

end Content

/-- In every run, `commit` runs while no process is between `begin_op` and `end_op`; until
it is done no `log_write` starts and nobody else changes the header. The blocks of the
header are distinct, and each commit writes the blocks of the operations that have ended
since the commit before it and no other blocks. -/
theorem commits_whole_operations (hr : Reach step always Booted r) :
    (∀ p, (r.sys.pc p).commits = true →
      (∀ q, (r.sys.pc q).active = false) ∧
      (∀ q b, step r (.log_write q b) = .error .disabled) ∧
      ∀ a r', step r a = .ok r' → a ≠ .step p → r'.sys.lh = r.sys.lh) ∧
    r.sys.lh.Nodup ∧
    ∀ x ∈ r.txns, ∀ b, b ∈ x.lh ↔ ∃ o ∈ x.ops, b ∈ o.blocks := by
  have h := Content.of_reach hr
  refine ⟨fun p hp => ⟨h.not_active hp, fun q b => ?_, fun a r' ht ha => ?_⟩, h.nodup, h.txns⟩
  · have hrun : r.sys.pc q ≠ .running := by
      intro hq
      have hact := h.not_active hp q
      rw [hq] at hact
      cases hact
    simp [step, Reservation.step, hrun]
  · exact h.lh_of_commits hp ht ha

/-- Two operations overlap and write a block each, and one block both. -/
def overlappingRun : List Reservation.Act :=
  [.begin_op 0, .step 0, .begin_op 1, .log_write 0 5, .step 1, .log_write 1 5, .step 0, .step 1,
    .end_op 0, .log_write 1 7, .step 1, .end_op 1, .step 1]

theorem commits_whole_operations_overlapping : ∃ r : Run, Reach step always Booted r ∧
    (r.sys.pc 1).commits = true ∧ r.txns.map (fun x => (x.lh, x.ops.length)) = [([5, 7], 2)] ∧
    (∀ q, (r.sys.pc q).active = false) ∧
    ∀ x ∈ r.txns, ∀ b, b ∈ x.lh ↔ ∃ o ∈ x.ops, b ∈ o.blocks := by
  have hboot : Reach step always Booted ⟨boot, [], []⟩ := .start rfl
  obtain ⟨r, hr, ht⟩ := hboot.of_endsIn
    (fun r => (r.sys.pc 1).commits &&
      decide (r.txns.map (fun x => (x.lh, x.ops.length)) = [([5, 7], 2)]))
    overlappingRun (by decide +kernel)
  rw [Bool.and_eq_true, decide_eq_true_eq] at ht
  have h := commits_whole_operations hr
  exact ⟨r, hr, ht.1, ht.2, (h.1 1 ht.1).1, h.2.2⟩

end Operations

end Xv6Container.Log
