import Xv6Container.Plumbing.Wiring

/-! The invariant over `fork`, `wait` and `exit`. -/

namespace Xv6Container.Plumbing

open Function Names
open Files (Tabled Sided)

variable {X U : Type} {lines : List (List Char)} {m m' : Machine X} {p q : Slot} {x x' y : X}
  {σ σ' τ : Path} {st st' : Stage} {g g' : Wiring}

/-! ### Births -/

/-- A child has been made of a process. -/
structure Born (p q : Slot) (x : X) (m m' : Machine X) : Prop where
  files : Tabled q (m.files.table p) m.files m'.files
  sided : Sided m.files → Sided m'.files
  free : m.task q = none
  zombie_free : m.zombie q = false
  task : m'.task = update m.task q (some x)
  zombie : m'.zombie = m.zombie
  parent : m'.parent = update m.parent q (some p)
  pid : m'.pid = update m.pid q m.nextpid
  nextpid : m'.nextpid = m.nextpid + 1

theorem Wired.born (h : Wired g m) (hp : m.task p = some x) (hb : Born p q x' m m')
    (hwires : g'.wires = update g.wires q (g.wires p)) (hfile : g'.file = g.file)
    (hpage : g'.page = g.page) : Wired g' m' := by
  have hother : ∀ r, r ≠ q → m'.task r = m.task r := fun r hr => by
    rw [hb.task, update_of_ne hr]
  have htable : ∀ r y, m'.task r = some y → m'.files.table r =
      fun fd => (g'.wires r fd).map g'.file := by
    intro r y hy
    rw [hwires, hfile]
    by_cases hr : r = q
    · rw [hr, update_self, hb.files.table]
      exact h.table p x hp
    · rw [hother r hr] at hy
      rw [update_of_ne hr, hb.files.other_table hr]
      exact h.table r y hy
  have hheld : ∀ w, Holds g' m' w → Holds g m w ∧ ∃ r fd, m'.files.table r fd = some (g.file w) := by
    rintro w ⟨r, y, fd, hy, hfd⟩
    refine ⟨?_, r, fd, ?_⟩
    · rw [hwires] at hfd
      by_cases hr : r = q
      · rw [hr, update_self] at hfd
        exact ⟨p, x, fd, hp, hfd⟩
      · rw [hother r hr] at hy
        rw [update_of_ne hr] at hfd
        exact ⟨r, y, fd, hy, hfd⟩
    · rw [← hfile]
      exact (congrFun (htable r y hy) fd).trans (congrArg (Option.map g'.file) hfd)
  refine ⟨hb.files.between, hb.sided h.sided, fun r y hy => ?_, htable, fun w hw => ?_, ?_, ?_, ?_⟩
  · by_cases hr : r = q
    · rw [hr]
      exact hb.files.cwd
    · rw [hother r hr] at hy
      rw [hb.files.other r hr]
      exact h.cwd r y hy
  · obtain ⟨hold, r, fd, hr⟩ := hheld w hw
    obtain ⟨r', y, fd', -, hr'⟩ := h.held hold
    exact (h.denotes w hold).same (hb.files.held h.between hr' hr) (congrFun hfile w)
      fun _ _ _ => congrFun hpage _
  · intro τ τ' b c hτ hτ'
    rw [hpage]
    exact h.inj τ τ' b c (hheld _ hτ).1 (hheld _ hτ').1
  · intro r hr fd f hf
    have hne : r ≠ q := by
      rintro rfl
      rw [hb.task, update_self] at hr
      cases hr
    rw [hother r hne] at hr
    have hf' := hf
    rw [hb.files.other_table hne] at hf'
    rw [(hb.files.held h.between hf' hf).2.1]
    exact h.outside r hr fd f hf'
  · rw [hfile]
    exact h.own

theorem Family.born (h : Family g m) (hp : m.task p = some x) (hb : Born p q x' m m')
    (hplace : g'.place = update g.place q τ) (hstage : g'.stage = update g.stage q st)
    (hfew : (kids m p).card + 1 ≤ maxKids (g.stage p))
    (hkid : KidAt (g.place p) (g.stage p) τ st) : Family g' m' := by
  have hpq : p ≠ q := by
    rintro rfl
    cases hb.free.symm.trans hp
  have hnone : ∀ r, m.parent r ≠ some q := by
    intro r hr
    have := (h.alive q r hr).1
    rw [hb.free] at this
    cases this
  have hkids : ∀ r r', m'.parent r' = some r → r' = q ∧ r = p ∨ r' ≠ q ∧ r ≠ q ∧
      m.parent r' = some r := by
    intro r r' hr
    rw [hb.parent] at hr
    by_cases hrq : r' = q
    · rw [hrq, update_self] at hr
      exact .inl ⟨hrq, (Option.some.inj hr).symm⟩
    · rw [update_of_ne hrq] at hr
      refine .inr ⟨hrq, ?_, hr⟩
      rintro rfl
      exact hnone r' hr
  refine ⟨fun r r' hr => ?_, fun r z hz => ?_, fun r r' z z' hr hz hz' => ?_, fun r r' hr => ?_,
    fun r z hz => ?_, ?_⟩
  · rw [hb.task, hb.zombie]
    obtain ⟨rfl, rfl⟩ | ⟨hr'q, hrq, hr⟩ := hkids r r' hr
    · rw [update_of_ne hpq, update_self, hp]
      exact ⟨rfl, by rintro ⟨⟩⟩
    · rw [update_of_ne hrq, update_of_ne hr'q]
      exact h.alive r r' hr
  · rw [hstage]
    by_cases hrq : r = q
    · have hempty : kids m' r = ∅ := by
        refine Finset.eq_empty_of_forall_notMem fun r' hr' => ?_
        obtain ⟨-, hrp⟩ | ⟨-, hne, -⟩ := hkids r r' (Finset.mem_filter.1 hr').2
        · exact hpq (hrp.symm.trans hrq)
        · exact hne hrq
      rw [hempty]
      exact Nat.zero_le _
    · rw [update_of_ne hrq]
      by_cases hrp : r = p
      · subst hrp
        refine le_trans ?_ hfew
        refine le_trans (Finset.card_le_card (t := insert q (kids m r)) fun r' hr' => ?_)
          (Finset.card_insert_le q _)
        obtain ⟨rfl, -⟩ | ⟨-, -, hr⟩ := hkids r r' (Finset.mem_filter.1 hr').2
        · exact Finset.mem_insert_self ..
        · exact Finset.mem_insert_of_mem (Finset.mem_filter.2 ⟨Finset.mem_univ _, hr⟩)
      · have hz₀ : m.task r = some z := by
          rw [← hz, hb.task, update_of_ne hrq]
        refine le_trans (Finset.card_le_card fun r' hr' => ?_) (h.few r z hz₀)
        obtain ⟨-, hr⟩ | ⟨-, -, hr⟩ := hkids r r' (Finset.mem_filter.1 hr').2
        · exact absurd hr hrp
        · exact Finset.mem_filter.2 ⟨Finset.mem_univ _, hr⟩
  · rw [hplace, hstage]
    obtain ⟨rfl, rfl⟩ | ⟨hr'q, hrq, hr⟩ := hkids r r' hr
    · rw [update_of_ne hpq, update_of_ne hpq, update_self, update_self]
      exact hkid
    · rw [hb.task, update_of_ne hrq] at hz
      rw [hb.task, update_of_ne hr'q] at hz'
      rw [update_of_ne hrq, update_of_ne hrq, update_of_ne hr'q, update_of_ne hr'q]
      exact h.kidAt r r' z z' hr hz hz'
  · rw [hb.pid]
    obtain ⟨rfl, rfl⟩ | ⟨hr'q, hrq, hr⟩ := hkids r r' hr
    · rw [update_of_ne hpq, update_self]
      exact h.fresh r x hp
    · rw [update_of_ne hrq, update_of_ne hr'q]
      exact h.pid r r' hr
  · rw [hb.pid, hb.nextpid]
    by_cases hrq : r = q
    · rw [hrq, update_self]
      exact Nat.lt_succ_self _
    · rw [hb.task, update_of_ne hrq] at hz
      rw [update_of_ne hrq]
      exact (h.fresh r z hz).trans (Nat.lt_succ_self _)
  · rw [hb.nextpid]
    exact Nat.succ_pos _

section Shell

variable {n n' : Machine (Task U)} {z z' : Task U}

theorem Placed.born (h : Placed lines g n) (hp : n.task p = some z) (hb : Born p q z' n n')
    (hplace : g'.place = update g.place q τ) (hstage : g'.stage = update g.stage q st)
    (hwires : g'.wires = update g.wires q (g.wires p)) (hstands : Stands lines τ (g.wires p) st z')
    (hapart : ∀ r y, n.task r = some y → ∀ k ∈ todo τ st, k ∉ todo (g.place r) (g.stage r))
    (hmade : ∀ w k, Holds g n w → w.node = some k → k ∉ todo τ st) : Placed lines g' n' := by
  have hold : ∀ r y, r ≠ q → n'.task r = some y → n.task r = some y := by
    intro r y hr hy
    rwa [hb.task, update_of_ne hr] at hy
  refine ⟨fun r y hy => ?_, fun r r' y y' hy hy' hne k hk hk' => ?_, fun r y w k hy hw hk hin => ?_⟩
  · rw [hplace, hstage, hwires]
    by_cases hr : r = q
    · subst hr
      rw [hb.task, update_self] at hy
      rw [update_self, update_self, update_self, ← Option.some.inj hy]
      exact hstands
    · rw [update_of_ne hr, update_of_ne hr, update_of_ne hr]
      exact h.stands r y (hold r y hr hy)
  · rw [hplace, hstage] at hk hk'
    by_cases hr : r = q
    · rw [hr, update_self, update_self] at hk
      have hr' : r' ≠ q := fun heq => hne (hr.trans heq.symm)
      rw [update_of_ne hr', update_of_ne hr'] at hk'
      exact hapart r' y' (hold r' y' hr' hy') k hk hk'
    · rw [update_of_ne hr, update_of_ne hr] at hk
      have hy := hold r y hr hy
      by_cases hr' : r' = q
      · rw [hr', update_self, update_self] at hk'
        exact hapart r y hy k hk' hk
      · rw [update_of_ne hr', update_of_ne hr'] at hk'
        exact h.apart r r' y y' hy (hold r' y' hr' hy') hne k hk hk'
  · have hw : Holds g n w := by
      obtain ⟨r', y', fd, hy', hfd⟩ := hw
      rw [hwires] at hfd
      by_cases hr' : r' = q
      · rw [hr', update_self] at hfd
        exact ⟨p, z, fd, hp, hfd⟩
      · rw [update_of_ne hr'] at hfd
        exact ⟨r', y', fd, hold r' y' hr' hy', hfd⟩
    rw [hplace, hstage] at hin
    by_cases hr : r = q
    · rw [hr, update_self, update_self] at hin
      exact hmade w k hw hk hin
    · rw [update_of_ne hr, update_of_ne hr] at hin
      exact h.made r y w k (hold r y hr hy) hw hk hin

/-- How a process and its new child share what the process still comes to. -/
structure Splits (σ : Path) (st st' : Stage) (τ : Path) (stq : Stage) : Prop where
  user : st = .user → st' = .user
  parent : todo σ st' ⊆ todo σ st
  child : todo τ stq ⊆ todo σ st
  apart : ∀ k ∈ todo τ stq, k ∉ todo σ st'
  maxKids : maxKids st + 1 ≤ maxKids st' ∨ st' = .user ∨ st' = .leaving
  kidAt : ∀ τ' str, KidAt σ st τ' str → KidAt σ st' τ' str
  kid : KidAt σ st' τ stq

/-- There are no more children than slots, with one to spare for a process. -/
theorem Family.room (h : Family g m) (hq : m.task q = none)
    (hzombie : m.zombie q = false) : (kids m p).card + 1 ≤ NPROC := by
  have hq : q ∉ kids m p := by
    intro hmem
    have := (h.alive p q (Finset.mem_filter.1 hmem).2).2 hq
    rw [hzombie] at this
    cases this
  rw [← Finset.card_insert_of_notMem hq]
  exact (Finset.card_le_univ _).trans_eq (Fintype.card_fin NPROC)

theorem Inv.forks (h : Inv lines g n) (hp : n.task p = some z) {y y' : Task U}
    (hf : Forks p q y y' n n') (hsplit : Splits (g.place p) (g.stage p) st' τ st)
    (hstands : Stands lines (g.place p) (g.wires p) st' y)
    (hkid : Stands lines τ (g.wires p) st y') : ∃ g, Inv lines g n' := by
  obtain ⟨k, hk⟩ : ∃ k : Machine (Task U), k = { n with task := update n.task p (some y) } :=
    ⟨_, rfl⟩
  have hgo : Goes p (n.files.table p) y n k := by
    rw [hk]
    exact ⟨.of_proc h.wired.between (fun _ _ _ => ⟨rfl, rfl, rfl⟩) rfl (h.wired.cwd p z hp), id,
      rfl, rfl, rfl, rfl, rfl⟩
  have hpq : q ≠ p := by
    rintro rfl
    cases hf.free.symm.trans hp
  have hborn : Born p q y' k n' := by
    rw [hk]
    exact ⟨hf.files, hf.sided, (update_of_ne hpq ..).trans hf.free, hf.zombie_free, hf.task, hf.zombie,
      hf.parent, hf.pid, hf.nextpid⟩
  have hself : k.task p = some y := by
    rw [hk]
    exact update_self ..
  have hroom := h.family.room (p := p) hf.free hf.zombie_free
  have hcard : (kids n p).card + 1 ≤ maxKids st' := by
    obtain hmax | rfl | rfl := hsplit.maxKids
    · exact (Nat.succ_le_succ (h.family.few p z hp)).trans hmax
    · exact hroom
    · exact hroom
  -- the parent first, then the child
  have h₁ : Inv lines (g.move p (g.place p) st' (g.wires p)) k := by
    refine h.goes hp hgo ⟨List.suffix_refl _, fun huser => ⟨rfl, hsplit.user huser⟩, hsplit.parent,
      ?_, hsplit.kidAt⟩ (h.wired.table p z hp) (fun fd w hw => ⟨fd, hw⟩) hstands
    obtain hmax | rfl | rfl := hsplit.maxKids
    · exact Nat.le_of_succ_le hmax
    · exact maxKids_le _
    · exact maxKids_le _
  have hplace : (g.move p (g.place p) st' (g.wires p)).place p = g.place p := update_self ..
  have hstage : (g.move p (g.place p) st' (g.wires p)).stage p = st' := update_self ..
  have hwires : (g.move p (g.place p) st' (g.wires p)).wires p = g.wires p := update_self ..
  refine ⟨(g.move p (g.place p) st' (g.wires p)).move q τ st (g.wires p),
    h₁.wired.born hself hborn (by rw [hwires]; rfl) rfl rfl,
    h₁.placed.born hself hborn rfl rfl (by rw [hwires]; rfl) (by rw [hwires]; exact hkid) ?_ ?_,
    h₁.family.born hself hborn rfl rfl ?_ ?_⟩
  · intro r w hw j hj
    by_cases hr : r = p
    · rw [hr, hplace, hstage]
      exact hsplit.apart j hj
    · have hr' : n.task r = some w := by
        rw [← hw, hk]
        exact (update_of_ne hr ..).symm
      change j ∉ todo (update g.place p _ r) (update g.stage p _ r)
      rw [update_of_ne hr, update_of_ne hr]
      exact h.placed.apart p r z w hp hr' (Ne.symm hr) j (hsplit.child hj)
  · rintro w j ⟨r, z', fd, hr, hfd⟩ hj hin
    refine h.placed.made p z w j hp ?_ hj (hsplit.child hin)
    change update g.wires p (g.wires p) r fd = some w at hfd
    rw [update_eq_self] at hfd
    by_cases hrp : r = p
    · exact ⟨p, z, fd, hp, hrp ▸ hfd⟩
    · refine ⟨r, z', fd, ?_, hfd⟩
      rw [← hr, hk]
      exact (update_of_ne hrp ..).symm
  · rw [hstage, show kids k p = kids n p by rw [hk]; rfl]
    exact hcard
  · rw [hplace, hstage]
    exact hsplit.kid

/-! ### Deaths -/

/-- A zombie is taken off the tables. -/
theorem Inv.bury (h : Inv lines g n) : Inv lines g { n with
    zombie := update n.zombie q false
    parent := update n.parent q none } where
  wired := ⟨h.wired.between, h.wired.sided, h.wired.cwd, h.wired.table, h.wired.denotes, h.wired.inj,
    h.wired.outside, h.wired.own⟩
  placed := ⟨h.placed.stands, h.placed.apart, h.placed.made⟩
  family := by
    have hold : ∀ r r', update n.parent q none r' = some r → r' ≠ q ∧ n.parent r' = some r := by
      intro r r' hr
      by_cases hr' : r' = q
      · rw [hr', update_self] at hr
        cases hr
      · rw [update_of_ne hr'] at hr
        exact ⟨hr', hr⟩
    refine ⟨fun r r' hr => ?_, fun r w hw => ?_, fun r r' w w' hr => ?_, fun r r' hr => ?_,
      h.family.fresh, h.family.positive⟩
    · obtain ⟨hne, hr⟩ := hold r r' hr
      obtain ⟨hlive, hdead⟩ := h.family.alive r r' hr
      refine ⟨hlive, fun hnone => ?_⟩
      exact (update_of_ne hne ..).trans (hdead hnone)
    · refine le_trans (Finset.card_le_card fun r' hr' => ?_) (h.family.few r w hw)
      exact Finset.mem_filter.2 ⟨Finset.mem_univ _, (hold r r' (Finset.mem_filter.1 hr').2).2⟩
    · exact h.family.kidAt r r' w w' (hold r r' hr).2
    · exact h.family.pid r r' (hold r r' hr).2

/-- A process goes on after a call of `wait`. -/
theorem Inv.settles (h : Inv lines g n) (hp : n.task p = some z)
    (hgo : Goes p (n.files.table p) z' n n') (hdeeper : g.place p <:+ σ')
    (huser : g.stage p = .user → σ' = g.place p ∧ st' = .user)
    (htodo : todo σ' st' ⊆ todo (g.place p) (g.stage p)) (hcard : (kids n p).card ≤ maxKids st')
    (hkidAt : maxKids st' = 0 ∨ ∀ τ str, KidAt (g.place p) (g.stage p) τ str → KidAt σ' st' τ str)
    (hstands : Stands lines σ' (g.wires p) st' z') :
    Inv lines (g.move p σ' st' (g.wires p)) n' where
  wired := h.wired.goes σ' hp hgo (h.wired.table p z hp) rfl (fun _ _ => rfl)
    (fun _ _ _ => rfl) h.wired.own fun fd w hw => .inl ⟨p, z, fd, hp, hw⟩
  placed := h.placed.goes hp hgo.task rfl rfl rfl hstands htodo fun fd w τ hw _ =>
    .inl ⟨p, z, fd, hp, hw⟩
  family := by
    refine h.family.goes hp hgo.task hgo.zombie hgo.parent hgo.pid hgo.nextpid rfl rfl hdeeper
      huser hcard fun q w hq hw => ?_
    obtain hzero | hkidAt := hkidAt
    · rw [hzero, Nat.le_zero, Finset.card_eq_zero] at hcard
      have hmem : q ∈ kids n p := Finset.mem_filter.2 ⟨Finset.mem_univ _, hq⟩
      rw [hcard] at hmem
      exact absurd hmem (Finset.notMem_empty q)
    · exact hkidAt _ _ (h.family.kidAt p q z w hq hp hw)

/-- What `wait` is for: a child less, or there has been none. -/
structure Awaits (σ : Path) (st : Stage) (σ' : Path) (st' : Stage) : Prop where
  deeper : σ <:+ σ'
  user : st = .user → σ' = σ ∧ st' = .user
  todo : todo σ' st' ⊆ todo σ st
  few : maxKids st ≤ maxKids st' + 1
  kidAt : maxKids st' = 0 ∨ ∀ τ str, KidAt σ st τ str → KidAt σ' st' τ str

theorem Inv.reaps (h : Inv lines g n) (hp : n.task p = some z) (hr : Reaps p q z' n n')
    (hwait : Awaits (g.place p) (g.stage p) σ' st') (hstands : Stands lines σ' (g.wires p) st' z') :
    Inv lines (g.move p σ' st' (g.wires p)) n' := by
  obtain ⟨k, hk⟩ : ∃ k : Machine (Task U), k = { n with
    zombie := update n.zombie q false
    parent := update n.parent q none } := ⟨_, rfl⟩
  have hbury : Inv lines g k := hk ▸ h.bury
  have hpk : k.task p = some z := by
    rw [hk]
    exact hp
  have hgo : Goes p (k.files.table p) z' k n' := by
    rw [hk]
    exact ⟨.of_proc (hr.files ▸ h.wired.between) (hr.files ▸ fun _ _ _ => ⟨rfl, rfl, rfl⟩)
      (congrArg (fun s => s.fs.proc) hr.files) (h.wired.cwd p z hp), hr.files ▸ id, hr.task,
      hr.zombie, hr.parent, hr.pid, hr.nextpid⟩
  refine hbury.settles hpk hgo hwait.deeper hwait.user hwait.todo ?_ hwait.kidAt hstands
  have hmem : q ∈ kids n p := Finset.mem_filter.2 ⟨Finset.mem_univ _, hr.parent_eq⟩
  have hsub : kids k p ⊆ (kids n p).erase q := by
    intro r hr'
    have hr'' : k.parent r = some p := (Finset.mem_filter.1 hr').2
    rw [hk] at hr''
    change update n.parent q none r = some p at hr''
    by_cases hrq : r = q
    · rw [hrq, update_self] at hr''
      cases hr''
    · rw [update_of_ne hrq] at hr''
      exact Finset.mem_erase.2 ⟨hrq, Finset.mem_filter.2 ⟨Finset.mem_univ _, hr''⟩⟩
  have hcard := Finset.card_le_card hsub
  rw [Finset.card_erase_of_mem hmem] at hcard
  have hfew := h.family.few p z hp
  have hmax := hwait.few
  omega

theorem Inv.waits (h : Inv lines g n) (hp : n.task p = some z) {P : Programs (Task U)}
    (ht : n.wait P p z = .ok n') (hwait : Awaits (g.place p) (g.stage p) σ' st')
    (hstands : ∀ a, Stands lines σ' (g.wires p) st' (P.resume z a)) : ∃ g, Inv lines g n' := by
  obtain ⟨a, q, hreaps⟩ | ⟨hnone, a, hgo⟩ := wait_goes h.wired.between (h.wired.cwd p z hp) ht
  · exact ⟨_, h.reaps hp hreaps hwait (hstands a)⟩
  · have hempty : kids n p = ∅ := by
      refine Finset.eq_empty_of_forall_notMem fun q hq => ?_
      exact hnone q (Finset.mem_filter.1 hq).2
    refine ⟨_, h.settles hp hgo hwait.deeper hwait.user hwait.todo ?_ hwait.kidAt (hstands a)⟩
    rw [hempty]
    exact Nat.zero_le _

/-- A process exits. -/
theorem Inv.exits (h : Inv lines g n) (he : Exits p n n') : Inv lines g n' := by
  have hold : ∀ r y, n'.task r = some y → r ≠ p ∧ n.task r = some y := by
    intro r y hy
    rw [he.task] at hy
    by_cases hr : r = p
    · rw [hr, update_self] at hy
      cases hy
    · rw [update_of_ne hr] at hy
      exact ⟨hr, hy⟩
  have hholds : ∀ w, Holds g n' w → Holds g n w ∧ ∃ r fd, n'.files.table r fd = some (g.file w) := by
    rintro w ⟨r, y, fd, hy, hfd⟩
    obtain ⟨hr, hy⟩ := hold r y hy
    refine ⟨⟨r, y, fd, hy, hfd⟩, r, fd, ?_⟩
    rw [Files.State.table, he.files.other r hr]
    exact (congrFun (h.wired.table r y hy) fd).trans (congrArg (Option.map g.file) hfd)
  have hparent : ∀ r r', n'.parent r' = some r → r ≠ p ∧ n.parent r' = some r := by
    intro r r' hr
    rw [he.parent] at hr
    dsimp only at hr
    split_ifs at hr with hrp
    refine ⟨?_, hr⟩
    rintro rfl
    exact hrp hr
  refine ⟨⟨he.files.between, he.sided h.wired.sided, fun r y hy => ?_, fun r y hy => ?_,
    fun w hw => ?_, ?_, ?_, h.wired.own⟩, ⟨fun r y hy => h.placed.stands r y (hold r y hy).2, fun r r' y y' hy hy' =>
      h.placed.apart r r' y y' (hold r y hy).2 (hold r' y' hy').2, fun r y w k hy hw =>
      h.placed.made r y w k (hold r y hy).2 (hholds w hw).1⟩, ⟨fun r r' hr => ?_, fun r y hy => ?_,
      fun r r' y y' hr hy hy' => h.family.kidAt r r' y y' (hparent r r' hr).2 (hold r y hy).2
        (hold r' y' hy').2, ?_, ?_, ?_⟩⟩
  · obtain ⟨hr, hy⟩ := hold r y hy
    rw [he.files.other r hr]
    exact h.wired.cwd r y hy
  · obtain ⟨hr, hy⟩ := hold r y hy
    rw [Files.State.table, he.files.other r hr]
    exact h.wired.table r y hy
  · obtain ⟨hw, r, fd, hr⟩ := hholds w hw
    obtain ⟨r', y, fd', -, hr'⟩ := h.wired.held hw
    exact (h.wired.denotes w hw).same (he.files.persists _ (h.wired.between.used hr')
      (he.files.between.used hr)) rfl fun _ _ _ => rfl
  · exact fun τ τ' b c hτ hτ' => h.wired.inj τ τ' b c (hholds _ hτ).1 (hholds _ hτ').1
  · intro r hr fd f hf
    by_cases hrp : r = p
    · rw [hrp, he.files.table] at hf
      cases hf
    · rw [he.task, update_of_ne hrp] at hr
      have hf' := hf
      rw [Files.State.table, he.files.other r hrp] at hf'
      rw [(he.files.persists f (h.wired.between.used hf') (he.files.between.used hf)).2.1]
      exact h.wired.outside r hr fd f hf'
  · obtain ⟨hrp, hr⟩ := hparent r r' hr
    obtain ⟨hlive, hdead⟩ := h.family.alive r r' hr
    rw [he.task, he.zombie, update_of_ne hrp]
    refine ⟨hlive, fun hnone => ?_⟩
    by_cases hr'p : r' = p
    · rw [hr'p, update_self]
    · rw [update_of_ne hr'p] at hnone ⊢
      exact hdead hnone
  · refine le_trans (Finset.card_le_card fun r' hr' => ?_) (h.family.few r y (hold r y hy).2)
    exact Finset.mem_filter.2 ⟨Finset.mem_univ _, (hparent r r' (Finset.mem_filter.1 hr').2).2⟩
  · intro r r' hr
    rw [he.pid]
    exact h.family.pid r r' (hparent r r' hr).2
  · intro r y hy
    rw [he.pid, he.nextpid]
    exact h.family.fresh r y (hold r y hy).2
  · rw [he.nextpid]
    exact h.family.positive

end Shell

end Xv6Container.Plumbing
