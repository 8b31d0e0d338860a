import Xv6Container.Crash.Calls
import Xv6Container.Crash.Log

/-! The calls and the log together. A call that returns is on the disk; wherever the power fails during a
call, the file system that recovery finds is the one that a transaction of the call has left, or the one
from before the call. -/

namespace Xv6Container.Crash

open Lib
open Fs (CString Entry FileType)
open Log (Kernel Home Booted MAXOPBLOCKS initlog)
open Names (NOFILE Slot FileId Fd)
open Ops

/-- The calls that change the disk, with `filewrite` on an inode. -/
inductive Call where
  | write (f : FileId) (addr : ℕ → UInt8) (n : ℤ)
  | close (f : FileId)
  | exit (p : Slot)
  | link (p : Slot) (old new : Option CString)
  | unlink (p : Slot) (path : Option CString)
  | open_ (p : Slot) (path : Option CString) (omode : UInt32)
  | mkdir (p : Slot) (path : Option CString)
  | mknod (p : Slot) (path : Option CString) (major minor : ℤ)
  | chdir (p : Slot) (path : Option CString)

namespace Call

def run (sb : Superblock) : Call → Run Unit
  | write f addr n => do let _ ← filewrite sb f addr n
  | close f => fileclose sb f
  | exit p => Ops.exit sb p
  | link p old new => do let _ ← sysLink sb p old new
  | unlink p path => do let _ ← sysUnlink sb p path
  | open_ p path omode => do let _ ← sysOpen sb p path omode
  | mkdir p path => do let _ ← sysMkdir sb p path
  | mknod p path major minor => do let _ ← sysMknod sb p path major minor
  | chdir p path => do let _ ← sysChdir sb p path

/-- The call looks up a path. -/
def looksUp : Call → Bool
  | write .. | close _ | exit _ => false
  | _ => true

/-- The number of transactions at most. -/
def most : Call → ℕ
  | write _ _ n => chunks n.toNat
  | exit _ => NOFILE + 1
  | _ => 1

end Call

/-- The actions of the log for some transactions. -/
def actions (txns : List (List Write × Disk)) : List Log.Act :=
  txns.flatMap fun x => updates x.1 ++ [.commit]

variable {sb : Superblock} {base v : Log.Disk} {d d' : Disk} {l l' : List (Finset ℕ)} {ws : List Write}
  {txns : List (List Write × Disk)} {s t : State} {k u : Kernel} {c : Call} {as : List Log.Act}

theorem call_after (L : Layout sb) (h : Inside sb s) (hb : Budget s)
    (hs : c.looksUp = true → WellFormed sb s) :
    Halts (fun _ t => After sb base c.most s t) (Stops sb base s) (c.run sb s) := by
  cases c with
  | write f addr n => exact (filewrite_after L h f addr n).void
  | close f => exact fileclose_after L h f
  | exit p => exact exit_after L h p
  | link p old new => exact (sysLink_after L h p old new).void
  | unlink p path => exact (sysUnlink_after L h p path).void
  | open_ p path omode => exact (sysOpen_after L h (hs rfl) hb p path omode).void
  | mkdir p path => exact (sysMake_after L h p path .dir 0 0).void
  | mknod p path major minor => exact (sysMake_after L h p path .dev major minor).void
  | chdir p path => exact (sysChdir_after L h p path).void

theorem call_budget (hb : Budget s) (hs : c.looksUp = true → WellFormed sb s) :
    Halts (fun _ => Budget) Budget (c.run sb s) := by
  cases c with
  | write f addr n => exact (filewrite_budget hb f addr n).void
  | close f => exact fileclose_budget hb f
  | exit p => exact exit_budget hb p
  | link p old new => exact (sysLink_budget (hs rfl) hb p old new).void
  | unlink p path => exact (sysUnlink_budget (hs rfl) hb p path).void
  | open_ p path omode => exact (sysOpen_budget (hs rfl) hb p path omode).void
  | mkdir p path => exact (sysMake_budget (hs rfl) hb p path .dir 0 0).void
  | mknod p path major minor => exact (sysMake_budget (hs rfl) hb p path .dev major minor).void
  | chdir p path => exact (sysChdir_budget (hs rfl) hb p path).void

/-! ### Transactions in the log -/

theorem Commits.ended (h : Commits sb base d l txns d' l') :
    (∀ x ∈ txns, blocks x.1 ∈ l') ∧ l ⊆ l' := by
  induction h with
  | nil => exact ⟨fun _ hx => absurd hx List.not_mem_nil, List.Subset.refl _⟩
  | cons hw _ ih =>
    obtain ⟨hmem, hsub⟩ := ih
    refine ⟨fun x hx => ?_, fun y hy => hsub (List.mem_cons_of_mem _ hy)⟩
    rcases List.mem_cons.1 hx with rfl | hx
    · exact hsub List.mem_cons_self
    · exact hmem x hx

/-- The transactions of a call are committed one after the other, and a crash during one of them leads to
a disk between two of them. -/
theorem Commits.safe (h : Commits sb base d l txns d' l')
    (hcard : ∀ x ∈ txns, (blocks x.1).card ≤ MAXOPBLOCKS)
    (hk : Reach Log.step always Booted k) (hlh : k.lh = []) (hst : Stored sb base k.disk d) :
    ∃ u, runs k (actions txns) = .ok u ∧ Reach Log.step always Booted u ∧ u.lh = [] ∧
      Stored sb base u.disk d' ∧ d' ∈ d :: txns.map Prod.snd ∧
      ∀ as v, Leaves k (actions txns ++ as) v →
        Restores sb base (d :: txns.map Prod.snd) v ∨ Leaves u as v := by
  induction h generalizing k with
  | nil d l => exact ⟨k, rfl, hk, hlh, hst, List.mem_cons_self, fun as v hv => .inr hv⟩
  | @cons d d₁ d₂ l l' ws txns hleads _ ih =>
    have hws := hcard _ List.mem_cons_self
    obtain ⟨t, ht, hlh', hst'⟩ := txn_commits hk hlh hst hleads hws
    obtain ⟨u, hu, hreach, hlhu, hstu, hmem, hleaves⟩ := ih
      (fun x hx => hcard x (List.mem_cons_of_mem _ hx)) (reach_runs hk ht) hlh' hst'
    have hrun : runs k (actions ((ws, d₁) :: txns)) = .ok u := (runs_append ht _).trans hu
    refine ⟨u, hrun, hreach, hlhu, hstu, List.mem_cons_of_mem _ hmem, fun as v hv => ?_⟩
    have hv' : Leaves k (updates ws ++ .commit :: (actions txns ++ as)) v := by
      have happ : actions ((ws, d₁) :: txns) ++ as =
          updates ws ++ .commit :: (actions txns ++ as) := by
        simp [actions]
      rwa [happ] at hv
    rcases txn_leaves hk hlh hst hleads hws hv' with hr | ⟨t', ht', hv⟩
    · refine .inl (hr.mono ?_)
      exact List.cons_subset_cons _ (List.cons_subset_cons _ (List.nil_subset _))
    · cases ht.symm.trans ht'
      exact (hleaves as v hv).imp_left fun hr => hr.mono (List.subset_cons_self _ _)

/-- The kernel starts on a disk with an empty log. -/
theorem exists_booted (L : Layout sb) (base : Log.Disk)
    (hbase : Log.getHead (base Log.logstart) = some []) (d : Disk) :
    ∃ k, Reach Log.step always Booted k ∧ k.lh = [] ∧ Stored sb base k.disk d := by
  have hlow : Log.logstart.toNat < sb.inodestart := by
    have := L.log
    show 2 < sb.inodestart
    simp only [Log.nlog, Log.LOGSIZE, MAXOPBLOCKS] at this
    omega
  have hhead : Log.getHead (encode sb base d Log.logstart) = some [] := by
    have hbm := L.order
    have hdata := L.bitmap
    rw [encode, if_neg fun h => absurd h.1 (by omega), if_neg (by omega), if_neg (by omega)]
    exact hbase
  have hidle : Log.area.Idle (encode sb base d) (encode sb base d) := ⟨hhead, fun _ _ => rfl⟩
  obtain ⟨k, c, hk, hc, hat⟩ := Log.initlog_ok hidle.recovers
  obtain ⟨hlh, hst⟩ : k.lh = [] ∧ Stored sb base k.disk d :=
    restores_of_settled hc hat fun _ _ => rfl
  exact ⟨k, .start ⟨_, hhead, hk⟩, hlh, hst⟩

/-- An empty file that is open, on the disk of `mkfs`. -/
def openedFile : State :=
  { oneFile .file with
    disk := { (oneFile .file).disk with used := fun b => b < 59 }
    file := fun _ => ⟨1, .inode 0, 0, true, true⟩ }

theorem openedFile_inside : Inside xv6Sb openedFile := by
  refine ⟨fun e he => ?_, fun i hi => ?_⟩
  · simp only [openedFile, oneFile] at he ⊢
    split_ifs
    · decide
    · decide
  · have hi : i ≠ 1 := by
      rintro rfl
      exact absurd hi (by decide)
    simp only [openedFile, oneFile, if_neg hi]
    rfl

end Xv6Container.Crash
