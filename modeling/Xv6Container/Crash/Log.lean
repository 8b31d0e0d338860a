import Xv6Container.Crash.Writes
import Xv6Container.Log.Recovery

/-! The writes of a transaction in the log. The log takes them all when there is room for their blocks;
wherever the power fails, recovery leads to the disk before the transaction or to the one after it. -/

namespace Xv6Container.Crash

open Lib
open Log (BlockNo Kernel Home NBUF LOGSIZE MAXOPBLOCKS At Cache Ready Booted Stop Settled bread_spec
  setData_spec brelse_spec setLh_spec pin_spec hold_self logWriteAdd initlog restarts diskAfter crash)
open Ops (Superblock Disk)

/-! ### Power failures -/

/-- The actions of the log for some writes. -/
def updates (ws : List Write) : List Log.Act := ws.map fun w => .update w.1 w.2

def runs (k : Kernel) : List Log.Act → Except Stop Kernel
  | [] => .ok k
  | a :: as =>
    match Log.step k a with
    | .ok t => runs t as
    | .error e => .error e

/-- A disk that a power failure may leave behind during the actions `as`: before one of them, or in the
middle of a `commit`. -/
inductive Leaves : Kernel → List Log.Act → Log.Disk → Prop
  | now (k : Kernel) (as : List Log.Act) : Leaves k as k.disk
  | commit (k : Kernel) (as : List Log.Act) (n : ℕ) :
      Leaves k (.commit :: as) (diskAfter Log.commit { k with power := some n })
  | next {k t : Kernel} {a : Log.Act} {as : List Log.Act} {v : Log.Disk} (ht : Log.step k a = .ok t)
      (h : Leaves t as v) : Leaves k (a :: as) v

/-- However often the power fails again, recovery completes on `v`, with one of the disks `ds`. -/
def Restores (sb : Superblock) (base : Log.Disk) (ds : List Disk) (v : Log.Disk) : Prop :=
  ∀ ns, ∃ t, initlog (restarts v ns) = .ok t ∧ t.lh = [] ∧ ∃ d ∈ ds, Stored sb base t.disk d

variable {sb : Superblock} {base v : Log.Disk} {d d' : Disk} {ds ds' : List Disk} {ws : List Write}
  {as as' : List Log.Act} {k t : Kernel} {c : Cache} {b : BlockNo} {x : Log.Block} {l lh : List BlockNo}
  {q : Bool} {S : Finset BlockNo}

theorem runs_cons {a : Log.Act} (ht : Log.step k a = .ok t) (as : List Log.Act) :
    runs k (a :: as) = runs t as := by rw [runs, ht]

theorem runs_append (ht : runs k as = .ok t) (as' : List Log.Act) : runs k (as ++ as') = runs t as' := by
  induction as generalizing k with
  | nil =>
    cases ht
    rfl
  | cons a as ih =>
    rw [runs] at ht
    split at ht
    next u hu => exact (runs_cons hu _).trans (ih ht)
    next => cases ht

theorem reach_runs (hk : Reach Log.step always Booted k) (ht : runs k as = .ok t) :
    Reach Log.step always Booted t := by
  induction as generalizing k with
  | nil =>
    cases ht
    exact hk
  | cons a as ih =>
    rw [runs] at ht
    split at ht
    next u hu => exact ih (.next hk trivial hu) ht
    next => cases ht

theorem Restores.mono (h : Restores sb base ds v) (hds : ds ⊆ ds') : Restores sb base ds' v := by
  intro ns
  obtain ⟨t, ht, hlh, d, hd, hst⟩ := h ns
  exact ⟨t, ht, hlh, d, hds hd, hst⟩

/-! ### The log takes the writes -/

theorem logWrite_pins {i : Log.BufId} (hi : c.held b = some i) (hlh : logWriteAdd l b = .ok lh) :
    Triple (At c l q) (Log.logWrite b i) (fun _ => At (c.pin b) lh q) (fun _ => False) := by
  refine .get_bind fun k hk => ?_
  rw [hk.lh, hlh]
  exact .seq (setLh_spec lh) (fun _ => id) fun _ => pin_spec lh q hi

/-- With a buffer and a place in the header, a block of a transaction is changed. -/
theorem updateBlock_pins (h : c.Quiet) (hroom : c.Room b) (hlh : logWriteAdd l b = .ok lh) :
    Triple (At c l q) (Log.updateBlock b x) (fun _ => At ((c.setData b x).pin b) lh q)
      (fun _ => False) := by
  unfold Log.updateBlock
  refine .seq (bread_spec c l q b) (fun _ hk => hk.2 hroom) fun i => .assume fun _ => ?_
  have hi : (c.hold b i).held b = some i := hold_self
  refine .seq (setData_spec l q hi) (fun _ => id) fun _ => ?_
  refine .seq (logWrite_pins (b := b) hi hlh) (fun _ => id) fun _ => ?_
  refine .last (brelse_spec (b := b) lh q hi fun hd => ?_) (fun _ => id) fun _ k hk => ?_
  · exact absurd (Finset.mem_insert_self _ _) hd
  · rwa [h.pin_release] at hk

/-- The header holds blocks of `S` only, for which there are buffers and places. -/
theorem update_runs (h : Ready k c) (hl : k.lh.toFinset ⊆ S) (hS : S.card < NBUF) (hb : Home b)
    (hbS : b ∈ S) (x : Log.Block) :
    ∃ t, Log.step k (.update b x) = .ok t ∧ Ready t ((c.setData b x).pin b) ∧ t.lh.toFinset ⊆ S := by
  have hcard : k.lh.length < NBUF := by
    rw [← List.toFinset_card_of_nodup h.1.nodup]
    exact (Finset.card_le_card hl).trans_lt hS
  have hroom : c.Room b := by
    refine h.1.quiet.room hb.2 ?_
    rw [h.1.dirty, List.toFinset_card_of_nodup h.1.nodup]
    exact hcard
  obtain ⟨lh, hlh, hsub⟩ : ∃ lh, logWriteAdd k.lh b = .ok lh ∧ lh.toFinset ⊆ S := by
    unfold logWriteAdd
    split_ifs with hmem
    · exact ⟨_, rfl, hl⟩
    · refine ⟨_, rfl, fun y hy => ?_⟩
      rw [List.mem_toFinset, List.mem_append, List.mem_singleton, ← List.mem_toFinset] at hy
      rcases hy with hy | rfl
      · exact hl hy
      · exact hbS
  have hrun := updateBlock_pins (x := x) h.1.quiet hroom hlh k h.2
  cases hx : Log.updateBlock b x k with
  | error e t =>
    rw [hx] at hrun
    exact hrun.elim
  | ok _ t =>
    rw [hx] at hrun
    have hstep : Log.step k (.update b x) = .ok t := by
      rw [Log.step, if_pos hb, Log.exec, hx]
    have hready : Ready t ((c.setData b x).pin b) := by
      refine h.update hb ?_
      rw [Log.exec, hx]
    refine ⟨t, hstep, hready, ?_⟩
    rw [hrun.lh]
    exact hsub

theorem updates_run (h : Ready k c) (hl : k.lh.toFinset ⊆ S) (hS : S.card < NBUF)
    (hw : ∀ w ∈ ws, Home w.1 ∧ w.1 ∈ S) :
    ∃ t c', runs k (updates ws) = .ok t ∧ Ready t c' ∧ t.lh.toFinset ⊆ S ∧ c'.disk = c.disk ∧
      c'.data = replay c.data ws := by
  induction ws generalizing k c with
  | nil => exact ⟨k, c, rfl, h, hl, rfl, rfl⟩
  | cons w ws ih =>
    obtain ⟨hb, hbS⟩ := hw w List.mem_cons_self
    obtain ⟨u, hu, hready, hlu⟩ := update_runs h hl hS hb hbS w.2
    obtain ⟨t, c', ht, h', hlt, hdisk, hdata⟩ := ih hready hlu fun w' hw' =>
      hw w' (List.mem_cons_of_mem _ hw')
    exact ⟨t, c', (runs_cons hu _).trans ht, h', hlt, hdisk, hdata⟩

/-- Before the `commit` the disk stays as it is. -/
theorem leaves_updates (h : Ready k c) (hl : k.lh.toFinset ⊆ S) (hS : S.card < NBUF)
    (hw : ∀ w ∈ ws, Home w.1 ∧ w.1 ∈ S) (hv : Leaves k (updates ws ++ as) v) :
    v = k.disk ∨ ∃ t, runs k (updates ws) = .ok t ∧ Leaves t as v := by
  induction ws generalizing k c with
  | nil => exact .inr ⟨k, rfl, hv⟩
  | cons w ws ih =>
    obtain ⟨hb, hbS⟩ := hw w List.mem_cons_self
    obtain ⟨u, hu, hready, hlu⟩ := update_runs h hl hS hb hbS w.2
    have hdisk : u.disk = k.disk := hready.2.holds.disk.trans h.2.holds.disk.symm
    cases hv with
    | now => exact .inl rfl
    | next ht hv =>
      cases hu.symm.trans ht
      rcases ih hready hlu (fun w' hw' => hw w' (List.mem_cons_of_mem _ hw')) hv with hv | ⟨t, ht, hv⟩
      · exact .inl (hv.trans hdisk)
      · exact .inr ⟨t, (runs_cons hu _).trans ht, hv⟩

/-! ### A transaction -/

theorem commit_runs (h : Ready k c) (hl : k.lh.length < NBUF) :
    ∃ t c', Log.step k .commit = .ok t ∧ Settled c' c.data ∧ At c' [] false t := by
  have hrun := Log.commit_spec k ⟨c, h⟩
  cases hx : Log.commit k with
  | error e t =>
    rw [hx] at hrun
    rcases hrun.2 with hq | hl'
    · cases hq
    · exact absurd hl' hl.ne
  | ok _ t =>
    rw [hx] at hrun
    obtain ⟨c', hc', hat⟩ := hrun
    exact ⟨t, c', by rw [Log.step, Log.exec, hx], hc', hat⟩

/-- The disk that recovery settles on. -/
theorem restores_of_settled {c' : Cache} {w : Log.Disk} (hc : Settled c' w) (hat : At c' [] false t)
    (hw : ∀ b, Home b → w b = encode sb base d b) : t.lh = [] ∧ Stored sb base t.disk d := by
  refine ⟨hat.lh, fun b hb => ?_⟩
  rw [hat.holds.disk, hc.idle.home b hb, hw b hb]

/-- Without a `commit` recovery leads back to the disk before the transaction. -/
theorem restores_now (h : Ready k c) (hst : Stored sb base k.disk d) : Restores sb base [d] k.disk := by
  intro ns
  have hrec : Log.area.Recovers c.disk k.disk := by
    rw [h.2.holds.disk]
    exact Lib.LogArea.Idle.recovers ⟨h.1.idle.head, fun _ _ => rfl⟩
  obtain ⟨t, c', ht, hc', hat⟩ := Log.initlog_ok (Log.restarts_recovers ns _ hrec)
  obtain ⟨hlh, hstored⟩ := restores_of_settled hc' hat (h.2.holds.disk ▸ hst)
  exact ⟨t, ht, hlh, d, List.mem_singleton_self d, hstored⟩

/-- In the middle of `commit` it may also lead to the one after it. -/
theorem restores_commit (h : Ready k c) (hst : Stored sb base k.disk d)
    (hnew : ∀ b, Home b → c.data b = encode sb base d' b) (n : ℕ) :
    Restores sb base [d, d'] (diskAfter Log.commit { k with power := some n }) := by
  intro ns
  obtain ⟨t, c', ht, hc' | hc', hat⟩ := h.crash n ns
  · obtain ⟨hlh, hstored⟩ := restores_of_settled hc' hat (h.2.holds.disk ▸ hst)
    exact ⟨t, ht, hlh, d, List.mem_cons_self, hstored⟩
  · obtain ⟨hlh, hstored⟩ := restores_of_settled hc' hat hnew
    exact ⟨t, ht, hlh, d', List.mem_cons_of_mem _ List.mem_cons_self, hstored⟩

/-- A replay depends on the blocks outside the log only where it does not write them. -/
theorem replay_congr {v w : Log.Disk} (h : ∀ b, Home b → v b = w b) (ws : List Write) :
    ∀ b, Home b → replay v ws b = replay w ws b := by
  induction ws generalizing v w with
  | nil => exact h
  | cons y ws ih =>
    refine ih fun b hb => ?_
    show Function.update v y.1 y.2 b = Function.update w y.1 y.2 b
    rw [Function.update_apply, Function.update_apply, h b hb]

/-- The blocks of some writes, as the log counts them. -/
theorem card_toFinset (ws : List Write) : (ws.map Prod.fst).toFinset.card = (blocks ws).card := by
  have himage : blocks ws = (ws.map Prod.fst).toFinset.image UInt32.toNat := by
    ext x
    simp [blocks]
  rw [himage, Finset.card_image_of_injective _ fun x y => UInt32.toNat_inj.1]

variable (hk : Reach Log.step always Booted k) (hlh : k.lh = []) (hst : Stored sb base k.disk d)
  (hleads : Leads sb base d ws d') (hcard : (blocks ws).card ≤ MAXOPBLOCKS)
include hk hlh hst hleads hcard

theorem txn_runs : ∃ c u c', Ready k c ∧ runs k (updates ws) = .ok u ∧ Ready u c' ∧
    u.lh.length < NBUF ∧ u.disk = k.disk ∧ (∀ b, Home b → c'.data b = encode sb base d' b) ∧
    ∀ as v, Leaves k (updates ws ++ as) v → v = k.disk ∨ Leaves u as v := by
  obtain ⟨c, h⟩ := Ready.of_reach hk
  set S := (ws.map Prod.fst).toFinset with hS
  have hS' : S.card < NBUF := by
    rw [hS, card_toFinset]
    exact hcard.trans_lt (by decide)
  have hl : k.lh.toFinset ⊆ S := by
    rw [hlh]
    exact Finset.empty_subset S
  have hw : ∀ w ∈ ws, Home w.1 ∧ w.1 ∈ S := fun w hw =>
    ⟨hleads.home w hw, List.mem_toFinset.2 (List.mem_map_of_mem hw)⟩
  obtain ⟨u, c', hu, hready, hlu, hdisk, hdata⟩ := updates_run h hl hS' hw
  refine ⟨c, u, c', h, hu, hready, ?_, ?_, fun b hb => ?_, fun as v hv => ?_⟩
  · rw [← List.toFinset_card_of_nodup hready.1.nodup]
    exact (Finset.card_le_card hlu).trans_lt hS'
  · rw [hready.2.holds.disk, hdisk, h.2.holds.disk]
  · have hold : ∀ b, Home b → c.data b = encode sb base d b := by
      intro b hb
      rw [h.committed hb, Kernel.committed, hlh, if_neg List.not_mem_nil, hst b hb]
    rw [hdata, replay_congr hold ws b hb, hleads.replay]
  · refine (leaves_updates h hl hS' hw hv).imp_right ?_
    rintro ⟨t, ht, hv⟩
    cases hu.symm.trans ht
    exact hv

/-- A transaction that is committed is on the disk. -/
theorem txn_commits : ∃ t, runs k (updates ws ++ [.commit]) = .ok t ∧ t.lh = [] ∧
    Stored sb base t.disk d' := by
  obtain ⟨-, u, c, -, hu, hready, hl, -, hdata, -⟩ := txn_runs hk hlh hst hleads hcard
  obtain ⟨t, c', ht, hc', hat⟩ := commit_runs hready hl
  refine ⟨t, ?_, restores_of_settled hc' hat hdata⟩
  rw [runs_append hu, runs_cons ht]
  rfl

/-- Wherever the power fails in a transaction, recovery leads to the disk before it or after it. -/
theorem txn_leaves (hv : Leaves k (updates ws ++ .commit :: as) v) :
    Restores sb base [d, d'] v ∨
      ∃ t, runs k (updates ws ++ [.commit]) = .ok t ∧ Leaves t as v := by
  obtain ⟨c, u, c', h, hu, hready, hl, hdisk, hdata, hleaves⟩ := txn_runs hk hlh hst hleads hcard
  have hnow : Restores sb base [d, d'] k.disk :=
    (restores_now h hst).mono (List.cons_subset_cons d (List.nil_subset _))
  rcases hleaves _ v hv with rfl | hv
  · exact .inl hnow
  · cases hv with
    | now =>
      rw [hdisk]
      exact .inl hnow
    | commit _ _ n => exact .inl (restores_commit hready (hdisk ▸ hst) hdata n)
    | next ht hv =>
      refine .inr ⟨_, ?_, hv⟩
      rw [runs_append hu, runs_cons ht]
      rfl

/-- A transaction that does not come to its end. -/
theorem unfinished_leaves (hv : Leaves k (updates ws) v) :
    Restores sb base [d] v := by
  obtain ⟨c, u, c', h, hu, hready, hl, hdisk, hdata, hleaves⟩ := txn_runs hk hlh hst hleads hcard
  rw [← List.append_nil (updates ws)] at hv
  rcases hleaves _ v hv with rfl | hv
  · exact restores_now h hst
  · cases hv with
    | now =>
      rw [hdisk]
      exact restores_now h hst

end Xv6Container.Crash
