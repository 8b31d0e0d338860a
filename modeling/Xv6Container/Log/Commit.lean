import Xv6Container.Log.Cache
import Xv6Container.Log.Log

/-! Commit and recovery keep the disk recoverable at every block write. -/

namespace Xv6Container.Log

open Lib

variable {c : Cache} {l : List BlockNo} {q : Bool} {b b' : BlockNo} {i j : BufId} {x : Block}
  {old new : Disk} {k : Kernel}

/-- No buffer is held. -/
def Cache.Quiet (c : Cache) : Prop := ∀ b, c.held b = none

/-- Block `b` gets the contents `x` in the cache and on the disk. -/
def Cache.store (c : Cache) (b : BlockNo) (x : Block) : Cache :=
  { c with
    disk := Function.update c.disk b x
    data := Function.update c.data b x
    dirty := c.dirty.erase b }

/-! ### Block copies -/

theorem Cache.Quiet.update_held (h : c.Quiet) :
    Function.update (Function.update c.held b (some i)) b none = c.held := by
  rw [Function.update_idem, Function.update_eq_self_iff]
  exact (h b).symm

theorem Cache.Quiet.hold_release (h : c.Quiet) : (c.hold b i).release b = c := by
  simp only [Cache.hold, Cache.release, h.update_held]

theorem Cache.Quiet.write_release (h : c.Quiet) :
    (((c.hold b i).setData b x).write b).release b = c.store b x := by
  simp only [Cache.hold, Cache.setData, Cache.write, Cache.release, Cache.store, h.update_held,
    Function.update_self]

/-- The other block of a copy is only read. -/
theorem Cache.Quiet.copy_release (h : c.Quiet) (hne : b' ≠ b) :
    (((((c.hold b i).hold b' j).setData b x).write b).release b').release b = c.store b x ∧
    (((((c.hold b' j).hold b i).setData b x).write b).release b').release b = c.store b x := by
  have hh : Function.update (Function.update (Function.update (Function.update c.held b (some i))
      b' (some j)) b' none) b none = c.held := by
    funext a
    simp only [Function.update_apply]
    split_ifs with h1 h2
    · rw [h]
    · rw [h]
    · rfl
  constructor
  · simp only [Cache.hold, Cache.setData, Cache.write, Cache.release, Cache.store, hh,
      Function.update_self]
  · rw [Function.update_comm hne.symm] at hh
    simp only [Cache.hold, Cache.setData, Cache.write, Cache.release, Cache.store, hh,
      Function.update_self]

theorem At.data (h : At c l q k) (hb : c.held b = some i) : (k.buf i).data = c.data b := by
  obtain ⟨hf, hno, -, -⟩ := h.holds.of_held hb
  rw [hf.data, hno]

theorem hold_self : (c.hold b i).held b = some i := Function.update_self ..

theorem hold_of_ne (h : b' ≠ b) : (c.hold b i).held b' = c.held b' := Function.update_of_ne h ..

theorem setData_of_ne (h : b' ≠ b) : (c.setData b x).data b' = c.data b' :=
  Function.update_of_ne h ..

theorem write_self : (c.write b).disk b = (c.write b).data b := Function.update_self ..

theorem write_of_ne (h : b' ≠ b) : (c.write b).disk b' = c.disk b' := Function.update_of_ne h ..

theorem release_data : (c.release b).data = c.data := rfl

theorem release_disk : (c.release b).disk = c.disk := rfl

theorem release_of_ne (h : b' ≠ b) : (c.release b).held b' = c.held b' :=
  Function.update_of_ne h ..

/-- The disk is as before: the power has failed, or there was no buffer for a block. -/
def Cut (c : Cache) (q : Bool) (room : Prop) (k : Kernel) : Prop :=
  k.disk = c.disk ∧ (q = true ∨ ¬ room)

theorem writeHead_spec (hc : c.Quiet) :
    Triple (At c l q) writeHead
      (fun _ => At (c.store logstart (putHead (c.data logstart) l)) l q)
      (Cut c q (c.Room logstart)) := by
  unfold writeHead
  refine .seq (bread_spec c l q logstart) (fun k hk => ⟨hk.1, .inr hk.2⟩) fun i => ?_
  refine .assume fun _ => .get_bind fun k hk => .get_bind fun k' hk' => ?_
  have hi : (c.hold logstart i).held logstart = some i := hold_self
  rw [hk'.lh, hk.data hi]
  refine .seq (setData_spec l q hi) (fun _ => False.elim) fun _ => ?_
  refine .seq (bwrite_spec (b := logstart) l q hi) (fun k hk => ⟨hk.1, .inl hk.2⟩) fun _ => ?_
  refine .last (brelse_spec (b := logstart) l q hi fun _ => write_self.symm) (fun _ => False.elim)
    fun _ k hk => ?_
  rwa [hc.write_release] at hk

/-- There is a buffer for each of two blocks at the same time. -/
def Cache.Rooms (c : Cache) (b b' : BlockNo) : Prop :=
  c.Room b ∧ ∀ i, (c.hold b i).Room b'

theorem lhBlock_bind {f : BlockNo → Run Unit} {Q : Unit → Kernel → Prop} {E : Kernel → Prop}
    {tail : ℕ} (hb : l[tail]? = some b) (h : Triple (At c l q) (f b) Q E) :
    Triple (At c l q) (lhBlock tail >>= f) Q E := by
  intro k hk
  have hget : k.lh.getD tail 0 = b := by
    rw [hk.lh, List.getD_eq_getElem?_getD, hb, Option.getD_some]
  have : (lhBlock tail >>= f) k = f b k := by
    rw [← hget]
    rfl
  rw [this]
  exact h k hk

theorem installBlock_spec {tail : ℕ} (hc : c.Quiet) (hb : l[tail]? = some b)
    (hne : logBlock tail ≠ b) (hd : c.data (logBlock tail) = c.disk (logBlock tail)) :
    Triple (At c l q) (installBlock tail)
      (fun _ => At (c.store b (c.data (logBlock tail))) l q)
      (Cut c q (c.Rooms (logBlock tail) b)) := by
  unfold installBlock
  refine .seq (bread_spec c l q _) (fun k hk => ⟨hk.1, .inr fun h => hk.2 h.1⟩) fun i => ?_
  refine .assume fun _ => lhBlock_bind hb ?_
  refine .seq (bread_spec _ l q b) (fun k hk => ⟨hk.1, .inr fun h => hk.2 (h.2 i)⟩) fun j => ?_
  refine .assume fun _ => .get_bind fun k hk => ?_
  have hi : ((c.hold (logBlock tail) i).hold b j).held (logBlock tail) = some i :=
    (hold_of_ne hne).trans hold_self
  have hj : ((c.hold (logBlock tail) i).hold b j).held b = some j := hold_self
  rw [hk.data hi]
  refine .seq (setData_spec l q hj) (fun _ => False.elim) fun _ => ?_
  refine .seq (bwrite_spec (b := b) l q hj) (fun k hk => ⟨hk.1, .inl hk.2⟩) fun _ => ?_
  refine .seq (brelse_spec (b := logBlock tail) l q hi fun _ => ?_) (fun _ => False.elim)
    fun _ => ?_
  · rw [write_of_ne hne]
    exact (setData_of_ne hne).trans hd
  refine .last (brelse_spec (b := b) l q ((release_of_ne hne.symm).trans hj) fun _ => ?_)
    (fun _ => False.elim) fun _ k hk => ?_
  · rw [release_data, release_disk, write_self]
  · rwa [(hc.copy_release hne).2] at hk

theorem logOne_spec {tail : ℕ} (hc : c.Quiet) (hb : l[tail]? = some b) (hne : b ≠ logBlock tail)
    (hd : b ∈ c.dirty) :
    Triple (At c l q) (logOne tail)
      (fun _ => At (c.store (logBlock tail) (c.data b)) l q)
      (Cut c q (c.Rooms (logBlock tail) b)) := by
  unfold logOne
  refine .seq (bread_spec c l q _) (fun k hk => ⟨hk.1, .inr fun h => hk.2 h.1⟩) fun i => ?_
  refine .assume fun _ => lhBlock_bind hb ?_
  refine .seq (bread_spec _ l q b) (fun k hk => ⟨hk.1, .inr fun h => hk.2 (h.2 i)⟩) fun j => ?_
  refine .assume fun _ => .get_bind fun k hk => ?_
  have hi : ((c.hold (logBlock tail) i).hold b j).held (logBlock tail) = some i :=
    (hold_of_ne hne.symm).trans hold_self
  have hj : ((c.hold (logBlock tail) i).hold b j).held b = some j := hold_self
  rw [hk.data hj]
  refine .seq (setData_spec l q hi) (fun _ => False.elim) fun _ => ?_
  refine .seq (bwrite_spec (b := logBlock tail) l q hi) (fun k hk => ⟨hk.1, .inl hk.2⟩)
    fun _ => ?_
  refine .seq (brelse_spec (b := b) l q hj fun hn => ?_) (fun _ => False.elim) fun _ => ?_
  · exact absurd (Finset.mem_erase.2 ⟨hne, hd⟩) hn
  refine .last (brelse_spec (b := logBlock tail) l q ((release_of_ne hne.symm).trans hi) fun _ => ?_)
    (fun _ => False.elim) fun _ k hk => ?_
  · rw [release_data, release_disk, write_self]
  · rwa [(hc.copy_release hne).1] at hk

theorem Cache.Quiet.room (h : c.Quiet) (hb : b.toNat < FSSIZE) (hd : c.dirty.card < NBUF) :
    c.Room b :=
  ⟨hb, h b, .inr ⟨c.dirty, fun b' hb' => hb'.resolve_right fun hn => hn (h b'), hd⟩⟩

theorem Cache.Quiet.rooms (h : c.Quiet) (hb : b.toNat < FSSIZE) (hb' : b'.toNat < FSSIZE)
    (hne : b' ≠ b) (hd : c.dirty.card < NBUF) (hd' : b' ∈ c.dirty ∨ c.dirty.card + 1 < NBUF) :
    c.Rooms b b' := by
  refine ⟨h.room hb hd, fun i => ⟨hb', (hold_of_ne hne).trans (h b'), hd'.imp_right fun hlt => ?_⟩⟩
  refine ⟨insert b c.dirty, fun a ha => ?_, (Finset.card_insert_le _ _).trans_lt hlt⟩
  rcases ha with ha | ha
  · exact Finset.mem_insert_of_mem ha
  · by_cases hab : a = b
    · exact hab ▸ Finset.mem_insert_self _ _
    · exact absurd ((hold_of_ne hab).trans (h a)) ha

/-! ### The loops -/

/-- The blocks before `tail` are home; the others may still wait for their write. -/
structure Installing (c : Cache) (l : List BlockNo) (v : Disk) (tail : ℕ) : Prop where
  quiet : c.Quiet
  dirty : ∀ b ∈ c.dirty, b ∈ l.drop tail
  committed : area.Committed l v c.disk
  home : ∀ i, i < tail → ∀ b, l[i]? = some b → c.disk b = v b

theorem Installing.card {v : Disk} {tail : ℕ} (h : Installing c l v tail) :
    c.dirty.card ≤ l.length - tail := by
  have hsub : c.dirty ⊆ (l.drop tail).toFinset := fun b hb => List.mem_toFinset.2 (h.dirty b hb)
  calc c.dirty.card ≤ (l.drop tail).toFinset.card := Finset.card_le_card hsub
    _ ≤ (l.drop tail).length := List.toFinset_card_le _
    _ = l.length - tail := List.length_drop

theorem mem_drop_succ {tail : ℕ} (hb : l[tail]? = some b) (h : b' ∈ l.drop tail) (hne : b' ≠ b) :
    b' ∈ l.drop (tail + 1) := by
  obtain ⟨htail, rfl⟩ := List.getElem?_eq_some_iff.1 hb
  rw [List.drop_eq_getElem_cons htail] at h
  exact (List.mem_cons.1 h).resolve_left hne

theorem Installing.store {v : Disk} {tail : ℕ} (h : Installing c l v tail)
    (hb : l[tail]? = some b) : Installing (c.store b (v b)) l v (tail + 1) where
  quiet := h.quiet
  dirty b' hb' := by
    obtain ⟨hne, hd⟩ := Finset.mem_erase.1 hb'
    exact mem_drop_succ hb (h.dirty b' hd) hne
  committed := h.committed.write_home (List.mem_of_getElem? hb)
  home i hi b' hb' := by
    change Function.update c.disk b (v b) b' = v b'
    by_cases hbb : b' = b
    · rw [hbb, Function.update_self]
    · rw [Function.update_of_ne hbb]
      refine h.home i ?_ b' hb'
      rcases Nat.lt_succ_iff_lt_or_eq.1 hi with hlt | rfl
      · exact hlt
      · exact absurd (Option.some.inj (hb'.symm.trans hb)) hbb

theorem installBlock_step {v : Disk} {tail : ℕ} (htail : tail < l.length) :
    Triple (fun k => ∃ c, Installing c l v tail ∧ At c l q k) (installBlock tail)
      (fun _ k => ∃ c, Installing c l v (tail + 1) ∧ At c l q k)
      (fun k => area.Recovers v k.disk ∧ q = true) := by
  refine .exists_pre fun c => .assume fun h => .use fun k hk => ?_
  have hb : l[tail]? = some l[tail] := List.getElem?_eq_getElem htail
  have hcap : tail < area.cap := htail.trans_le h.committed.fits
  have hhome : Home l[tail] := h.committed.mem_home _ (List.getElem_mem htail)
  have hslot : ¬ Home (logBlock tail) := area.slot_not_home tail hcap
  have hne : logBlock tail ≠ l[tail] := fun he => hslot (he ▸ hhome)
  have hclean : logBlock tail ∉ c.dirty := fun hd =>
    hslot (h.committed.mem_home _ (List.mem_of_mem_drop (h.dirty _ hd)))
  have hdata := hk.holds.clean _ hclean (h.quiet _)
  have hv : c.data (logBlock tail) = v l[tail] := hdata.trans (h.committed.logged tail htail _ hb)
  have hrooms : c.Rooms (logBlock tail) l[tail] := by
    have hcard := h.card
    have hfits := h.committed.fits
    change l.length ≤ 29 at hfits
    refine h.quiet.rooms ?_ hhome.2 hne.symm ?_ ?_
    · rw [logBlock_toNat hcap]
      change tail + 3 < 1000
      omega
    · change _ < 30
      omega
    · change _ ∨ _ < 30
      by_cases hd : l[tail] ∈ c.dirty
      · exact .inl hd
      · have : c.dirty.card ≤ l.length - (tail + 1) := by
          have hsub : c.dirty ⊆ (l.drop (tail + 1)).toFinset := fun b hb' =>
            List.mem_toFinset.2 (mem_drop_succ hb (h.dirty b hb') fun he => hd (he ▸ hb'))
          refine (Finset.card_le_card hsub).trans ((List.toFinset_card_le _).trans ?_)
          rw [List.length_drop]
        exact .inr (by omega)
  refine .last (installBlock_spec h.quiet hb hne hdata) (fun k hk => ?_) fun _ k hk => ?_
  · rw [hk.1]
    exact ⟨⟨l, h.committed⟩, hk.2.resolve_right fun hn => hn hrooms⟩
  · rw [hv] at hk
    exact ⟨_, h.store hb, hk⟩

/-- `install_trans` writes every block of the header home. -/
theorem installTrans_spec {v : Disk} :
    Triple (fun k => ∃ c, Installing c l v 0 ∧ At c l q k) installTrans
      (fun _ k => ∃ c, Installing c l v l.length ∧ At c l q k)
      (fun k => area.Recovers v k.disk ∧ q = true) := by
  refine .get_bind fun k hk => ?_
  obtain ⟨c, -, hk⟩ := hk
  rw [hk.lh]
  exact .range (I := fun n k => ∃ c, Installing c l v n ∧ At c l q k) l.length
    fun i hi => installBlock_step hi

theorem setLh_spec (l' : List BlockNo) :
    Triple (At c l q) (setLh l') (fun _ => At c l' q) (fun _ => False) := by
  intro k hk
  refine ⟨⟨hk.holds.disk, hk.holds.order, hk.holds.each, hk.holds.uniq, hk.holds.pinned,
    hk.holds.caught, hk.holds.clean⟩, rfl, hk.power⟩

/-- The cache and the disk between two transactions, with the blocks of `v`. -/
structure Settled (c : Cache) (v : Disk) : Prop where
  quiet : c.Quiet
  dirty : c.dirty = ∅
  idle : area.Idle v c.disk

theorem logstart_small : logstart.toNat < FSSIZE := by decide

theorem entries_putHead (x : Block) {lh : List BlockNo} (h : lh.length ≤ LOGSIZE) :
    area.entries (putHead x lh) = some lh := getHead_putHead x h

/-- The end of `commit` and of `recover_from_log`. -/
theorem clear_spec {v : Disk} :
    Triple (fun k => ∃ c, Installing c l v l.length ∧ At c l q k)
      (do setLh []; writeHead)
      (fun _ k => ∃ c, Settled c v ∧ At c [] q k)
      (fun k => area.Recovers v k.disk ∧ q = true) := by
  refine .exists_pre fun c => .assume fun h => ?_
  refine .seq (setLh_spec []) (fun _ => False.elim) fun _ => ?_
  have hdirty : c.dirty = ∅ := by
    apply Finset.eq_empty_of_forall_notMem
    intro b hb
    have := h.dirty b hb
    simp at this
  have hroom : c.Room logstart := h.quiet.room logstart_small (by rw [hdirty]; decide)
  refine .last (writeHead_spec h.quiet) (fun k hk => ?_) fun _ k hk => ⟨_, ⟨?_, ?_, ?_⟩, hk⟩
  · rw [hk.1]
    exact ⟨⟨l, h.committed⟩, hk.2.resolve_right fun hn => hn hroom⟩
  · exact h.quiet
  · exact Finset.subset_empty.1 (hdirty ▸ Finset.erase_subset _ _)
  · refine h.committed.clear (fun b hb => ?_) (entries_putHead _ (Nat.zero_le _))
    obtain ⟨i, hi, rfl⟩ := List.mem_iff_getElem.1 hb
    exact h.home i hi _ (List.getElem?_eq_getElem hi)

/-! ### Commit -/

/-- A transaction under way: the blocks of `l` wait in the cache with the contents of
`new`, and the disk has those of `old` and an empty log. -/
structure Open (c : Cache) (l : List BlockNo) (old new : Disk) : Prop where
  quiet : c.Quiet
  dirty : c.dirty = l.toFinset
  nodup : l.Nodup
  mem_home : ∀ b ∈ l, Home b
  idle : area.Idle old c.disk
  data : ∀ b ∈ l, c.data b = new b
  rest : ∀ b, Home b → b ∉ l → old b = new b

theorem Open.store (h : Open c l old new) {n : ℕ} (hn : n < area.cap) :
    Open (c.store (logBlock n) x) l old new where
  quiet := h.quiet
  dirty := by
    change c.dirty.erase (logBlock n) = l.toFinset
    rw [h.dirty, Finset.erase_eq_of_notMem]
    intro hb
    exact area.slot_not_home n hn (h.mem_home _ (List.mem_toFinset.1 hb))
  nodup := h.nodup
  mem_home := h.mem_home
  idle := h.idle.write_slot hn
  data b hb := by
    refine (Function.update_of_ne ?_ _ _).trans (h.data b hb)
    rintro rfl
    exact area.slot_not_home n hn (h.mem_home _ hb)
  rest := h.rest

/-- With as many blocks in the header as there are buffers, `write_log` gets no buffer for
the first block of the log. -/
theorem logOne_full (h : Open c l old new) (hl : l.length = NBUF) :
    Triple (At c l q) (logOne 0) (fun _ _ => False) (fun k => k.disk = c.disk) := by
  unfold logOne
  refine .seq (bread_spec c l q _) (fun k hk => hk.1) fun i => ?_
  refine .of_false fun k hk => ?_
  have hslot : logBlock 0 ∉ l.toFinset := fun hb =>
    area.slot_not_home 0 (by decide) (h.mem_home _ (List.mem_toFinset.1 hb))
  have hle : (insert (logBlock 0) l.toFinset).card ≤ NBUF := by
    refine hk.2.holds.card_le fun b hb => ?_
    rcases Finset.mem_insert.1 hb with rfl | hb
    · exact .inr (by rw [hold_self]; exact Option.some_ne_none i)
    · exact .inl (h.dirty ▸ hb)
  rw [Finset.card_insert_of_notMem hslot, List.toFinset_card_of_nodup h.nodup, hl] at hle
  omega

theorem logOne_step {tail : ℕ} (htail : tail < l.length) :
    Triple (fun k => ∃ c, (Open c l old new ∧ area.Logged l new tail c.disk ∧
        (0 < tail → l.length < NBUF)) ∧ At c l q k) (logOne tail)
      (fun _ k => ∃ c, (Open c l old new ∧ area.Logged l new (tail + 1) c.disk ∧
        (0 < tail + 1 → l.length < NBUF)) ∧ At c l q k)
      (fun k => area.Idle old k.disk ∧ (q = true ∨ l.length = NBUF)) := by
  refine .exists_pre fun c => .assume fun ⟨h, hlog, hlt⟩ => .use fun k hk => ?_
  have hcard : l.length ≤ NBUF := by
    rw [← List.toFinset_card_of_nodup h.nodup, ← h.dirty]
    exact hk.holds.card_le fun b hb => .inl hb
  by_cases hfull : l.length = NBUF
  · have h0 : tail = 0 := by
      by_contra h0
      exact absurd (hlt (Nat.pos_of_ne_zero h0)) (by omega)
    subst h0
    refine .last (logOne_full h hfull) (fun k hk => ?_) fun _ _ => False.elim
    rw [hk]
    exact ⟨h.idle, .inr hfull⟩
  · have hlen : l.length < 30 := lt_of_le_of_ne hcard hfull
    have hcap : tail < area.cap := by
      change tail < 29
      omega
    have hb : l[tail]? = some l[tail] := List.getElem?_eq_getElem htail
    have hhome : Home l[tail] := h.mem_home _ (List.getElem_mem htail)
    have hslot : ¬ Home (logBlock tail) := area.slot_not_home tail hcap
    have hne : l[tail] ≠ logBlock tail := fun he => hslot (he ▸ hhome)
    have hd : l[tail] ∈ c.dirty := by
      rw [h.dirty]
      exact List.mem_toFinset.2 (List.getElem_mem htail)
    have hrooms : c.Rooms (logBlock tail) l[tail] := by
      refine h.quiet.rooms ?_ hhome.2 hne ?_ (.inl hd)
      · rw [logBlock_toNat hcap]
        change tail + 3 < 1000
        omega
      · rw [h.dirty, List.toFinset_card_of_nodup h.nodup]
        exact hlen
    refine .last (logOne_spec h.quiet hb hne hd) (fun k hk => ?_) fun _ k hk => ?_
    · rw [hk.1]
      exact ⟨h.idle, .inl (hk.2.resolve_right fun hn => hn hrooms)⟩
    · rw [h.data _ (List.getElem_mem htail)] at hk
      exact ⟨_, ⟨h.store hcap, hlog.write_slot hcap hb, fun _ => hlen⟩, hk⟩

/-- `write_log` copies the transaction to the log, or stops with the disk as before. -/
theorem writeLog_spec (hl : 0 < l.length) :
    Triple (fun k => ∃ c, Open c l old new ∧ At c l q k) writeLog
      (fun _ k => ∃ c, (Open c l old new ∧ area.Logged l new l.length c.disk ∧
        l.length < NBUF) ∧ At c l q k)
      (fun k => area.Idle old k.disk ∧ (q = true ∨ l.length = NBUF)) := by
  refine .get_bind fun k hk => ?_
  obtain ⟨c, -, hk⟩ := hk
  rw [hk.lh]
  refine (Triple.range (I := fun n k => ∃ c, (Open c l old new ∧ area.Logged l new n c.disk ∧
    (0 < n → l.length < NBUF)) ∧ At c l q k) l.length fun i hi => logOne_step hi).weaken ?_ ?_ ?_
  · rintro k ⟨c, h, hk⟩
    exact ⟨c, ⟨h, fun i hi => absurd hi (Nat.not_lt_zero i), fun h0 => absurd h0 (lt_irrefl 0)⟩, hk⟩
  · rintro - k ⟨c, ⟨h, hlog, hlt⟩, hk⟩
    exact ⟨c, ⟨h, hlog, hlt hl⟩, hk⟩
  · exact fun k hk => hk

/-- The write of the header commits the transaction. -/
theorem writeHead_commits :
    Triple (fun k => ∃ c, (Open c l old new ∧ area.Logged l new l.length c.disk ∧
        l.length < NBUF) ∧ At c l q k) writeHead
      (fun _ k => ∃ c, Installing c l new 0 ∧ At c l q k)
      (fun k => area.Idle old k.disk ∧ q = true) := by
  refine .exists_pre fun c => .assume fun ⟨h, hlog, hlt⟩ => ?_
  have hhead : logstart ∉ c.dirty := by
    rw [h.dirty, List.mem_toFinset]
    exact fun hb => area.head_not_home (h.mem_home _ hb)
  have hroom : c.Room logstart := by
    refine h.quiet.room logstart_small ?_
    rw [h.dirty, List.toFinset_card_of_nodup h.nodup]
    exact hlt
  refine .last (writeHead_spec h.quiet) (fun k hk => ?_) fun _ k hk => ⟨_, ⟨?_, ?_, ?_, ?_⟩, hk⟩
  · rw [hk.1]
    exact ⟨h.idle, hk.2.resolve_right fun hn => hn hroom⟩
  · exact h.quiet
  · intro b hb
    have := h.dirty ▸ Finset.mem_of_mem_erase hb
    rwa [List.drop_zero, ← List.mem_toFinset]
  · exact h.idle.write_head (Nat.le_pred_of_lt hlt) hlog h.mem_home h.rest
      (entries_putHead _ hlt.le)
  · exact fun i hi => absurd hi (Nat.not_lt_zero i)

/-- Wherever `commit` stops, recovery leads to the contents before the transaction or
after it; when it returns, the transaction is on the disk. -/
theorem commit_spec :
    Triple (fun k => ∃ c, Open c l old new ∧ At c l q k) commit
      (fun _ k => ∃ c, Settled c new ∧ At c [] q k)
      (fun k => (area.Recovers old k.disk ∨ area.Recovers new k.disk) ∧
        (q = true ∨ l.length = NBUF)) := by
  refine .get_bind fun k hk => ?_
  obtain ⟨c, -, hk⟩ := hk
  rw [hk.lh]
  by_cases hl : 0 < l.length
  · rw [if_pos hl]
    refine .seq (writeLog_spec hl) (fun k hk => ⟨.inl hk.1.recovers, hk.2⟩) fun _ => ?_
    refine .seq writeHead_commits (fun k hk => ⟨.inl hk.1.recovers, .inl hk.2⟩) fun _ => ?_
    refine .seq installTrans_spec (fun k hk => ⟨.inr hk.1, .inl hk.2⟩) fun _ => ?_
    exact .last clear_spec (fun k hk => ⟨.inr hk.1, .inl hk.2⟩) fun _ k hk => hk
  · rw [if_neg hl]
    have hnil : l = [] := List.length_eq_zero_iff.1 (Nat.eq_zero_of_not_pos hl)
    subst hnil
    refine .ret fun k ⟨c, h, hk⟩ => ⟨c, ⟨h.quiet, h.dirty, h.idle.head, fun b hb => ?_⟩, hk⟩
    exact (h.idle.home b hb).trans (h.rest b hb List.not_mem_nil)

/-! ### Recovery -/

/-- The header on the disk is the header in memory. -/
theorem readHead_spec {v : Disk} (hc : c.Quiet) (hd : c.dirty = ∅)
    (h : area.Committed l v c.disk) :
    Triple (At c [] q) readHead (fun _ k => ∃ c, Installing c l v 0 ∧ At c l q k)
      (fun _ => False) := by
  unfold readHead
  refine .use fun k₀ hk₀ => ?_
  have hdata : c.data logstart = c.disk logstart :=
    hk₀.holds.clean _ (by simp [hd]) (hc logstart)
  have hroom : c.Room logstart := hc.room logstart_small (by rw [hd]; decide)
  refine .seq (bread_spec c [] q logstart) (fun k hk => hk.2 hroom) fun i => ?_
  have hi : (c.hold logstart i).held logstart = some i := hold_self
  refine .assume fun _ => .get_bind fun k hk => ?_
  have hget : getHead (k.buf i).data = some l := by
    rw [hk.data hi]
    change getHead (c.data logstart) = some l
    rw [hdata]
    exact h.head
  rw [hget]
  refine .seq (setLh_spec l) (fun _ => id) fun _ => ?_
  refine .last (brelse_spec (b := logstart) l q hi fun _ => hdata) (fun _ => id)
    fun _ k hk => ⟨c, ⟨hc, ?_, h, ?_⟩, ?_⟩
  · intro b hb
    simp [hd] at hb
  · exact fun i hi => absurd hi (Nat.not_lt_zero i)
  · rwa [hc.hold_release] at hk

/-- Recovery only stops when the power fails, and then can be started again; when it
returns, it has led to the same contents. -/
theorem recoverFromLog_spec {v : Disk} (hc : c.Quiet) (hd : c.dirty = ∅)
    (h : area.Recovers v c.disk) :
    Triple (At c [] q) recoverFromLog (fun _ k => ∃ c, Settled c v ∧ At c [] q k)
      (fun k => area.Recovers v k.disk ∧ q = true) := by
  obtain ⟨l, hl⟩ := h
  unfold recoverFromLog
  refine .seq (readHead_spec hc hd hl) (fun _ => False.elim) fun _ => ?_
  refine .seq installTrans_spec (fun k hk => hk) fun _ => ?_
  exact clear_spec

end Xv6Container.Log
