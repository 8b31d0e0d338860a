import Xv6Container.Ops.Costs
import Xv6Container.Ops.Lookup
import Xv6Container.Ops.Others

/-! The budget of a transaction. However large a directory or a file is and wherever a write begins,
the transactions of the calls log `MAXOPBLOCKS` blocks at most. -/

namespace Xv6Container.Ops

open Lib
open Fs (BSIZE FileType Dinode Entry Stop CString indirect openPath)
open Names (NOFILE NFILE SHRT_MAX one one_self add_one_pos add_one_nonneg lt_add_one gain ptr Slot
  FileId Fd Name O_WRONLY O_RDWR O_CREATE)
open Log (MAXOPBLOCKS)

variable {sb : Superblock} {K : Finset ℕ} {n m b off : ℕ} {R : Entry → ℤ} {e dp ip : Entry}
  {s t u : State} {f : FileId} {p : Slot}

namespace Budget

/-- `begin_op` -/
theorem begin (h : Budget s) (K : Finset ℕ) : Spent K 0 { s with logged := ∅ } :=
  ⟨.empty K, h.ended⟩

/-- `end_op` -/
theorem finish (h : Budget s) : Budget { s with ended := s.logged :: s.ended } := by
  refine ⟨h.logged, ?_⟩
  intro l hl
  rcases List.mem_cons.1 hl with rfl | hl
  · exact h.logged
  · exact h.ended l hl

theorem congr (h : Budget s) (hlogged : t.logged = s.logged) (hended : t.ended = s.ended) :
    Budget t :=
  ⟨hlogged ▸ h.logged, hended ▸ h.ended⟩

theorem mute (h : Budget s) : Mute Budget s := fun _ => h.congr

end Budget

/-! ### `filewrite` -/

/-- A chunk is in four blocks at most, wherever it begins. -/
theorem blocksOf_le (off : ℕ) (hm : m ≤ chunkMax) : blocksOf off m ≤ 4 := by
  have hmax : m ≤ 1536 := hm
  have hmod : off % BSIZE < BSIZE := Nat.mod_lt _ (by decide)
  rw [blocksOf]
  simp only [BSIZE] at hmod ⊢
  split_ifs <;> omega

/-- The bitmap and the block of an inode. -/
def named₁ (sb : Superblock) (i : ℕ) : Finset ℕ := {sb.bmapstart, sb.iblock i}

theorem bmap_mem (sb : Superblock) (i : ℕ) : sb.bmapstart ∈ named₁ sb i := Finset.mem_insert_self _ _

theorem iblock_mem (sb : Superblock) (i : ℕ) : sb.iblock i ∈ named₁ sb i :=
  Finset.mem_insert_of_mem (Finset.mem_singleton_self _)

theorem card_named₁ (sb : Superblock) (i : ℕ) : (named₁ sb i).card ≤ 2 := Finset.card_le_two

theorem maxopblocks_eq : MAXOPBLOCKS = 10 := rfl

theorem named₁_budget (sb : Superblock) (i : ℕ) : (named₁ sb i).card + 0 ≤ MAXOPBLOCKS :=
  (card_named₁ sb i).trans (by decide)

theorem writeChunk_budget (h : Budget s) (ip : Entry) (src : ℕ → UInt8) {n1 : ℕ}
    (hn : n1 ≤ chunkMax) :
    Halts (fun _ => Budget) Budget (writeChunk sb f ip src n1 s) := by
  have hmax := maxopblocks_eq
  have hbm := bmap_mem sb (s.cache ip).inum
  have hib := iblock_mem sb (s.cache ip).inum
  have hcard := card_named₁ sb (s.cache ip).inum
  set K := named₁ sb (s.cache ip).inum
  rw [writeChunk, beginOp, run_modify_bind]
  refine (ilock_costs (by omega) (h.begin K)).bind ?_
  rintro _ t ⟨ht, hkeep⟩
  rw [run_get_bind]
  have hlen : (UInt32.ofNat n1).toNat ≤ chunkMax := by
    rw [UInt32.toNat_ofNat']
    exact (Nat.mod_le _ _).trans hn
  have hblocks := blocksOf_le (t.file f).off.toNat hlen
  refine (writei_costs ht hbm (by rwa [hkeep.inum]) (by omega)).bind ?_
  rintro r u ⟨hu, hkeep'⟩
  have hend : ∀ v, Spent K 5 v → Halts (fun _ => Budget) Budget
      ((iunlock ip >>= fun _ => endOp >>= fun _ => pure r) v) := by
    intro v hv
    refine (iunlock_costs (by omega) hv).bind ?_
    rintro _ w ⟨hw, -⟩
    exact (hw.budget (by omega)).finish
  have hu' : Spent K 5 u := hu.mono (by omega)
  split_ifs
  · rw [run_modify_bind]
    exact hend _ (hu'.congr rfl rfl)
  · exact hend u hu'

theorem writeChunks_budget {addr : ℕ → UInt8} {len fuel i : ℕ} (h : Budget s) :
    Halts (fun _ => Budget) Budget (writeChunks sb f ip addr len fuel i s) := by
  induction fuel generalizing i s with
  | zero => exact h
  | succ fuel ih =>
    rw [writeChunks]
    split_ifs
    · refine (writeChunk_budget h ip _ (Nat.min_le_right _ _)).bind ?_
      intro r t ht
      split_ifs
      · exact ht
      · exact ht
      · exact ih ht
    · exact h

theorem filewrite_budget (h : Budget s) (f : FileId) (addr : ℕ → UInt8) (len : ℤ) :
    Halts (fun _ => Budget) Budget (filewrite sb f addr len s) := by
  rw [filewrite, run_get_bind]
  split_ifs
  · exact h
  · cases (s.file f).kind with
    | none => exact h
    | pipe => exact h
    | inode ip =>
      refine (writeChunks_budget h).bind ?_
      intro i t ht
      exact ht

/-! ### `fileclose` and `exit` -/

theorem fileclose_budget (h : Budget s) (f : FileId) :
    Halts (fun _ => Budget) Budget (fileclose sb f s) := by
  rw [fileclose, run_get_bind]
  split_ifs
  · exact h
  · exact h.congr rfl rfl
  · rw [run_modify_bind]
    cases (s.file f).kind with
    | none => exact h.congr rfl rfl
    | pipe => exact h.congr rfl rfl
    | inode ip =>
      have h' : Budget (s.setFile f { s.file f with ref := 0, kind := .none }) := h.congr rfl rfl
      dsimp only
      rw [beginOp, run_modify_bind]
      refine (iput_costs (bmap_mem sb _) (named₁_budget sb _) (h'.begin _) (iblock_mem sb _)).bind ?_
      rintro _ t ⟨ht, -⟩
      exact (ht.budget (named₁_budget sb _)).finish

theorem closeFd_budget (h : Budget s) (fd : Fd) :
    Halts (fun _ => Budget) Budget (closeFd sb p fd s) := by
  rw [closeFd, run_get_bind]
  cases (s.proc p).ofile fd with
  | none => exact h
  | some f => exact (fileclose_budget h f).bind fun _ t ht => ht.congr rfl rfl

theorem putCwd_costs (h : Spent K n s) (hbm : sb.bmapstart ∈ K) (hK : K.card + n ≤ MAXOPBLOCKS)
    (hib : ∀ cwd, (s.proc p).cwd = some cwd → sb.iblock (s.cache cwd).inum ∈ K) :
    Halts (fun _ t => Spent K n t) Budget (putCwd sb p s) := by
  rw [putCwd, run_get_bind]
  cases hc : (s.proc p).cwd with
  | none => exact h.budget hK
  | some cwd => exact (iput_costs hbm hK h (hib cwd hc)).post fun _ t ht => ht.1

theorem exit_budget (h : Budget s) (p : Slot) : Halts (fun _ => Budget) Budget (exit sb p s) := by
  rw [exit]
  refine (Halts.forM _ h fun fd t ht => closeFd_budget ht fd).bind ?_
  intro _ t ht
  set i := ((t.proc p).cwd.map fun e => (t.cache e).inum).getD 0 with hi
  rw [beginOp, run_modify_bind]
  refine (putCwd_costs (ht.begin _) (bmap_mem sb i) (named₁_budget sb i) ?_).bind ?_
  · intro cwd hc
    have heq : i = (t.cache cwd).inum := by
      have hc' : (t.proc p).cwd = some cwd := hc
      rw [hi, hc']
      rfl
    show sb.iblock (t.cache cwd).inum ∈ _
    rw [← heq]
    exact iblock_mem sb i
  · intro _ u hu
    exact (hu.budget (named₁_budget sb i)).finish.congr rfl rfl

end Xv6Container.Ops
