import Xv6Container.Crash.Inodes
import Xv6Container.Ops.Transactions

/-! The calls as transactions. A call that looks up a path is one transaction at most; `filewrite` is one
for each of its chunks and `exit` one for each file that it closes last, and one for the current
directory. -/

namespace Xv6Container.Crash

open Lib
open Fs (FileType Entry CString openPath)
open Names (Name NOFILE SHRT_MAX Slot FileId Fd O_WRONLY O_RDWR O_CREATE)
open Ops

/-- Transactions one after the other, each with the disk that it leaves; `l` are the blocks of those that
have ended before. -/
inductive Commits (sb : Superblock) (base : Log.Disk) :
    Disk → List (Finset ℕ) → List (List Write × Disk) → Disk → List (Finset ℕ) → Prop
  | nil (d : Disk) (l : List (Finset ℕ)) : Commits sb base d l [] d l
  | cons {d d' d'' : Disk} {l l' : List (Finset ℕ)} {ws : List Write} {txns : List (List Write × Disk)}
      (h : Leads sb base d ws d') (ht : Commits sb base d' (blocks ws :: l) txns d'' l') :
      Commits sb base d l ((ws, d') :: txns) d'' l'

variable {sb : Superblock} {base : Log.Disk} {d d' d'' : Disk} {l l' l'' : List (Finset ℕ)}
  {txns txns' : List (List Write × Disk)} {P : Finset Entry} {s t u : State} {e dp ip : Entry}
  {f : FileId} {p : Slot} {n m : ℕ} {α : Type}

theorem Commits.trans (h : Commits sb base d l txns d' l') (h' : Commits sb base d' l' txns' d'' l'') :
    Commits sb base d l (txns ++ txns') d'' l'' := by
  induction h with
  | nil => exact h'
  | cons hw _ ih => exact .cons hw (ih h')

/-- The call that began in `s` has returned after `n` transactions at most. -/
structure After (sb : Superblock) (base : Log.Disk) (n : ℕ) (s t : State) : Prop where
  commits : ∃ txns, txns.length ≤ n ∧ Commits sb base s.disk s.ended txns t.disk t.ended
  inside : Inside sb t

/-- The call that began in `s` has stopped, after some transactions and in the middle of one. -/
def Stops (sb : Superblock) (base : Log.Disk) (s t : State) : Prop :=
  ∃ txns d ws, Commits sb base s.disk s.ended txns d t.ended ∧ Leads sb base d ws t.disk ∧
    blocks ws ⊆ t.logged

theorem Leads.nil (sb : Superblock) (base : Log.Disk) (d : Disk) : Leads sb base d [] d :=
  ⟨fun _ hw => absurd hw List.not_mem_nil, rfl⟩

namespace After

theorem refl (h : Inside sb s) : After sb base n s s := ⟨⟨[], Nat.zero_le n, .nil _ _⟩, h⟩

theorem trans (h : After sb base n s t) (h' : After sb base m t u) : After sb base (n + m) s u := by
  obtain ⟨⟨txns, hlen, hcommits⟩, -⟩ := h
  obtain ⟨⟨txns', hlen', hcommits'⟩, hinside⟩ := h'
  refine ⟨⟨txns ++ txns', ?_, hcommits.trans hcommits'⟩, hinside⟩
  rw [List.length_append]
  exact Nat.add_le_add hlen hlen'

theorem mono (h : After sb base n s t) (hnm : n ≤ m) : After sb base m s t := by
  obtain ⟨⟨txns, hlen, hcommits⟩, hinside⟩ := h
  exact ⟨⟨txns, hlen.trans hnm, hcommits⟩, hinside⟩

theorem stops (h : After sb base n s t) (h' : Stops sb base t u) : Stops sb base s u := by
  obtain ⟨⟨txns, -, hcommits⟩, -⟩ := h
  obtain ⟨txns', d, ws, hcommits', hleads⟩ := h'
  exact ⟨txns ++ txns', d, ws, hcommits.trans hcommits', hleads⟩

end After

theorem Stops.refl (sb : Superblock) (base : Log.Disk) (s : State) : Stops sb base s s :=
  ⟨[], s.disk, [], .nil _ _, .nil sb base _, Finset.empty_subset _⟩

/-- Nothing that counts after a crash changes. -/
theorem After.same (h : Inside sb s) (hdisk : t.disk = s.disk) (hcache : t.cache = s.cache)
    (hended : t.ended = s.ended) : After sb base n s t := by
  refine ⟨⟨[], Nat.zero_le n, ?_⟩, h.congr hdisk hcache⟩
  rw [hdisk, hended]
  exact .nil _ _

/-- One part of a call after another. -/
theorem After.bind {β : Type} {x : Run α} {y : α → Run β}
    (h : Halts (fun _ t => After sb base n s t) (Stops sb base s) (x s))
    (hy : ∀ a t, Inside sb t → Halts (fun _ u => After sb base m t u) (Stops sb base t) (y a t)) :
    Halts (fun _ u => After sb base (n + m) s u) (Stops sb base s) ((x >>= y) s) :=
  h.bind fun a t ht => (hy a t ht.inside).mono (fun _ _ => ht.trans) fun _ => ht.stops

theorem After.forM {x : α → Run PUnit} (as : List α) (h : Inside sb s)
    (hx : ∀ a t, Inside sb t → Halts (fun _ u => After sb base 1 t u) (Stops sb base t) (x a t)) :
    Halts (fun _ t => After sb base as.length s t) (Stops sb base s) (as.forM x s) := by
  induction as generalizing s with
  | nil => exact .refl h
  | cons a as ih =>
    rw [List.length_cons, Nat.add_comm]
    exact After.bind (hx a s h) fun _ t ht => ih ht

/-! ### One transaction -/

/-- The transaction that began on the disk `d` has ended. -/
structure Ended (sb : Superblock) (base : Log.Disk) (d : Disk) (l : List (Finset ℕ)) (s : State) : Prop
    extends Inside sb s where
  writes : ∃ ws, Leads sb base d ws s.disk ∧ s.ended = blocks ws :: l

theorem Ended.congr (h : Ended sb base d l s) (hdisk : t.disk = s.disk) (hcache : t.cache = s.cache)
    (hended : t.ended = s.ended) : Ended sb base d l t := by
  refine ⟨h.toInside.congr hdisk hcache, ?_⟩
  rw [hdisk, hended]
  exact h.writes

/-- `begin_op` -/
theorem During.begin (h : Inside sb s) :
    During sb base s.disk s.ended ∅ { s with logged := ∅ } where
  writes := ⟨[], .nil sb base _, rfl⟩
  ended := rfl
  cached := h.cached
  beyond := h.beyond
  pinned _ he := absurd he (Finset.notMem_empty _)

theorem endOp_ends (h : During sb base d l P s) :
    Halts (fun _ => Ended sb base d l) (Underway sb base d l) (endOp s) := by
  obtain ⟨ws, hleads, hlogged⟩ := h.writes
  refine ⟨h.toInside.congr rfl rfl, ws, hleads, ?_⟩
  show s.logged :: s.ended = _
  rw [hlogged, h.ended]

/-- `end_op` and a return. -/
theorem endOp_return (h : During sb base d l P s) (a : α) :
    Halts (fun _ => Ended sb base d l) (Underway sb base d l) ((do endOp; return a : Run α) s) :=
  (endOp_ends h).bind fun _ _ ht => ht

/-- A call that is one transaction. -/
theorem After.of_ended {x : Run α}
    (h : Halts (fun _ => Ended sb base s.disk s.ended) (Underway sb base s.disk s.ended)
      (x { s with logged := ∅ })) :
    Halts (fun _ t => After sb base 1 s t) (Stops sb base s) ((do beginOp; x) s) := by
  rw [beginOp, run_modify_bind]
  refine h.mono (fun _ t ht => ?_) fun t ht => ?_
  · obtain ⟨ws, hleads, hended⟩ := ht.writes
    refine ⟨⟨[(ws, t.disk)], le_rfl, .cons hleads ?_⟩, ht.toInside⟩
    rw [← hended]
    exact .nil _ _
  · obtain ⟨ws, hleads, hlogged⟩ := ht.writes
    refine ⟨[], s.disk, ws, ?_, hleads, hlogged ▸ subset_rfl⟩
    rw [ht.ended]
    exact .nil _ _

section Calls

variable (L : Layout sb)
include L

theorem unlockput_return (h : During sb base d l P s) (e : Entry) (a : α) :
    Halts (fun _ => Ended sb base d l) (Underway sb base d l)
      ((do iunlockput sb e; endOp; return a : Run α) s) :=
  (iunlockput_during L h e).bind fun _ _ ht => endOp_return ht a

/-! ### Links -/

omit L in
theorem incLink_during (h : During sb base d l P s) (e : Entry) :
    Halts (fun _ => During sb base d l P) (Underway sb base d l) (incLink e s) := by
  rw [incLink, run_get_bind]
  split_ifs
  · exact h.toUnderway
  · exact setCopy_during h e _

theorem linkBad_ends (h : During sb base d l ∅ s) (ip : Entry) :
    Halts (fun _ => Ended sb base d l) (Underway sb base d l) (linkBad sb ip s) := by
  rw [linkBad]
  refine (ilock_during h ip).bind ?_
  rintro _ t ⟨-, ht⟩
  refine (setCopy_during ht ip _).bind fun _ u hu => ?_
  refine (iupdate_during L hu (Finset.mem_insert_self ip ∅)).bind fun _ v hv => ?_
  exact unlockput_return L hv ip false

theorem sysLink_after (h : Inside sb s) (p : Slot) (old new : Option CString) :
    Halts (fun _ t => After sb base 1 s t) (Stops sb base s) (sysLink sb p old new s) := by
  cases old with
  | none => exact .refl h
  | some old =>
  cases new with
  | none => exact .refl h
  | some new =>
  rw [sysLink]
  refine After.of_ended ((namei_during L (.begin h) p old).bind ?_)
  rintro (_ | ip) t ht
  · exact endOp_return ht false
  · refine (ilock_during ht ip).bind ?_
    rintro _ u ⟨-, hu⟩
    rw [run_get_bind]
    split_ifs
    · exact unlockput_return L hu ip false
    · refine (incLink_during hu ip).bind fun _ v hv => ?_
      refine (iupdate_during L hv (Finset.mem_insert_self ip ∅)).bind fun _ w hw => ?_
      refine (iunlock_during hw ip).bind fun _ x hx => ?_
      have hx := hx.mono (Finset.empty_subset _)
      refine (nameiparent_during L hx p new).bind ?_
      rintro (_ | ⟨dp, name⟩) y hy
      · exact linkBad_ends L hy ip
      · refine (ilock_during hy dp).bind ?_
        rintro _ z ⟨-, hz⟩
        rw [run_get_bind]
        refine (dirlink_during L hz (Finset.mem_insert_self dp ∅) name _).bind fun linked a ha => ?_
        split_ifs
        · refine (iunlockput_during L ha dp).bind fun _ b hb => ?_
          exact (iput_during L hb ip).bind fun _ c hc => endOp_return hc true
        · refine (iunlockput_during L ha dp).bind fun _ b hb => ?_
          exact linkBad_ends L (hb.mono (Finset.empty_subset _)) ip

theorem isdirempty_during (h : During sb base d l P s) (dp : Entry) :
    Halts (fun _ => During sb base d l P) (Underway sb base d l) (isdirempty sb dp s) := by
  rw [isdirempty, run_get_bind]
  exact (direntLoop_during L h).bind fun _ _ ht => ht

theorem unlinkEntry_ends {off : ℕ} (h : During sb base d l {dp} s) :
    Halts (fun _ => Ended sb base d l) (Underway sb base d l) (unlinkEntry sb dp ip off s) := by
  rw [unlinkEntry]
  refine (ilock_during h ip).bind ?_
  rintro _ t ⟨hne, ht⟩
  have hdp : dp ∈ insert ip {dp} := Finset.mem_insert_of_mem (Finset.mem_singleton_self dp)
  have hip : ip ∈ (insert ip {dp} : Finset Entry).erase dp :=
    Finset.mem_erase.2 ⟨fun heq => hne (Finset.mem_singleton.2 heq), Finset.mem_insert_self _ _⟩
  have hfull : Halts (fun _ => During sb base d l (insert ip {dp})) (Underway sb base d l) ((do
      if (t.cache ip).copy.type = .dir then return !(← isdirempty sb ip) else return false
      : Run Bool) t) := by
    split_ifs
    · exact (isdirempty_during L ht ip).bind fun _ _ hu => hu
    · exact ht
  rw [run_get_bind]
  dsimp only
  by_cases hlink : (t.cache ip).copy.nlink < 1
  · rw [if_pos hlink]
    exact ht.toUnderway
  rw [if_neg hlink]
  refine hfull.bind fun full u hu => ?_
  cases full with
  | true =>
    exact (iunlockput_during L hu ip).bind fun _ v hv => unlockput_return L hv dp false
  | false =>
    have hlast : ∀ v, During sb base d l (insert ip {dp}) v →
        Halts (fun _ => Ended sb base d l) (Underway sb base d l) ((do
          iunlockput sb dp
          decLink ip
          iupdate sb ip
          iunlockput sb ip
          endOp
          return true : Run Bool) v) := by
      intro v hv
      refine (iunlockput_during L hv dp).bind fun _ w hw => ?_
      refine (setCopy_during hw ip _).bind fun _ x hx => ?_
      exact (iupdate_during L hx hip).bind fun _ y hy => unlockput_return L hy ip true
    refine (writei_during L hu hdp _ _ _).bind fun r v hv => ?_
    split_ifs
    · exact hv.toUnderway
    · refine (setCopy_during hv dp _).bind fun _ w hw => ?_
      exact (iupdate_during L hw hdp).bind fun _ x hx => hlast x hx
    · exact hlast v hv

theorem sysUnlink_after (h : Inside sb s) (p : Slot) (path : Option CString) :
    Halts (fun _ t => After sb base 1 s t) (Stops sb base s) (sysUnlink sb p path s) := by
  cases path with
  | none => exact .refl h
  | some path =>
  rw [sysUnlink]
  refine After.of_ended ((nameiparent_during L (.begin h) p path).bind ?_)
  rintro (_ | ⟨dp, name⟩) t ht
  · exact endOp_return ht false
  · refine (ilock_during ht dp).bind ?_
    rintro _ u ⟨-, hu⟩
    split_ifs
    · exact unlockput_return L hu dp false
    · refine (dirlookup_during L hu dp name).bind ?_
      rintro (_ | ⟨ip, off⟩) v hv
      · exact unlockput_return L hv dp false
      · exact unlinkEntry_ends L hv

/-! ### `create` -/

theorem newInode_during (h : During sb base d l P s) (type : FileType) (major minor : ℤ) :
    Halts (fun ip t => ip ∉ P ∧ During sb base d l (insert ip P) t) (Underway sb base d l)
      (newInode sb type major minor s) := by
  rw [newInode]
  refine (ialloc_during L h type).bind fun ip t ht => ?_
  refine (ilock_during ht ip).bind ?_
  rintro _ u ⟨hip, hu⟩
  refine (setCopy_during hu ip _).bind fun _ v hv => ?_
  exact (iupdate_during L hv (Finset.mem_insert_self ip P)).bind fun _ w hw => ⟨hip, hw⟩

theorem createDots_during (h : During sb base d l P s) (hdp : dp ∈ P) (hip : ip ∈ P) :
    Halts (fun _ => During sb base d l P) (Underway sb base d l) (createDots sb dp ip s) := by
  rw [createDots]
  refine (incLink_during h dp).bind fun _ t ht => ?_
  refine (iupdate_during L ht hdp).bind fun _ u hu => ?_
  rw [run_get_bind]
  refine (dirlink_during L hu hip .dot _).bind fun dot v hv => ?_
  split_ifs
  · refine (dirlink_during L hv hip .dotdot _).bind fun dotdot w hw => ?_
    split_ifs
    · exact hw
    · exact hw.toUnderway
  · exact hv.toUnderway

/-- The inode that `create` returns is locked, and it is the only one. -/
theorem create_during (h : During sb base d l ∅ s) (p : Slot) (path : CString) (type : FileType)
    (major minor : ℤ) :
    Halts (fun o t => During sb base d l o.toFinset t) (Underway sb base d l)
      (create sb p path type major minor s) := by
  rw [create]
  refine (nameiparent_during L h p path).bind ?_
  rintro (_ | ⟨dp, name⟩) t ht
  · exact ht
  · dsimp only
    refine (ilock_during ht dp).bind ?_
    rintro _ u ⟨-, hu⟩
    have hdp := Finset.mem_insert_self dp ∅
    refine (dirlookup_during L hu dp name).bind ?_
    rintro (_ | ⟨ip, off⟩) v hv
    · dsimp only
      refine (newInode_during L hv type major minor).bind ?_
      rintro ip w ⟨hip, hw⟩
      have hdp' := Finset.mem_insert_of_mem (b := ip) hdp
      have hlast : ∀ x, During sb base d l (insert ip (insert dp ∅)) x →
          Halts (fun o t => During sb base d l o.toFinset t) (Underway sb base d l) ((do
            if ← dirlink sb dp name ((← get).cache ip).inum then
              iunlockput sb dp
              return some ip
            else throw (.panic "create: dirlink") : Run (Option Entry)) x) := by
        intro x hx
        rw [run_get_bind]
        refine (dirlink_during L hx hdp' name _).bind fun linked y hy => ?_
        split_ifs
        · refine (iunlockput_during L hy dp).bind fun _ z hz => hz.mono ?_
          rintro e he
          have heq : e = ip := by simpa using he
          rw [heq]
          refine Finset.mem_erase.2 ⟨fun hne => hip (hne ▸ hdp), Finset.mem_insert_self _ _⟩
        · exact hy.toUnderway
      split_ifs
      · refine (createDots_during L hw hdp' (Finset.mem_insert_self _ _)).bind fun _ x hx => ?_
        exact hlast x hx
      · exact hlast w hw
    · dsimp only
      refine (iunlockput_during L hv dp).bind fun _ w hw => ?_
      refine (ilock_during (hw.mono (Finset.empty_subset _)) ip).bind ?_
      rintro _ x ⟨-, hx⟩
      rw [run_get_bind]
      split_ifs
      · exact hx
      · exact (iunlockput_during L hx ip).bind fun _ y hy => hy.mono (Finset.empty_subset _)

theorem sysMake_after (h : Inside sb s) (p : Slot) (path : Option CString) (type : FileType)
    (major minor : ℤ) :
    Halts (fun _ t => After sb base 1 s t) (Stops sb base s) (sysMake sb p path type major minor s) := by
  cases path with
  | none => exact After.of_ended (endOp_return (.begin h) false)
  | some path =>
    rw [sysMake]
    refine After.of_ended ?_
    refine (create_during L (.begin h) p path type major minor).bind ?_
    rintro (_ | ip) t ht
    · exact endOp_return ht false
    · exact unlockput_return L ht ip true

/-! ### `sys_chdir` -/

theorem putCwd_during (h : During sb base d l P s) (p : Slot) :
    Halts (fun _ => During sb base d l P) (Underway sb base d l) (putCwd sb p s) := by
  rw [putCwd, run_get_bind]
  cases (s.proc p).cwd with
  | none => exact h.toUnderway
  | some cwd => exact iput_during L h cwd

theorem sysChdir_after (h : Inside sb s) (p : Slot) (path : Option CString) :
    Halts (fun _ t => After sb base 1 s t) (Stops sb base s) (sysChdir sb p path s) := by
  cases path with
  | none => exact After.of_ended (endOp_return (.begin h) false)
  | some path =>
    rw [sysChdir]
    refine After.of_ended ((namei_during L (.begin h) p path).bind ?_)
    rintro (_ | ip) t ht
    · exact endOp_return ht false
    · refine (ilock_during ht ip).bind ?_
      rintro _ u ⟨-, hu⟩
      rw [run_get_bind]
      split_ifs
      · exact unlockput_return L hu ip false
      · refine (iunlock_during hu ip).bind fun _ v hv => ?_
        refine (putCwd_during L hv p).bind fun _ w hw => ?_
        exact (endOp_ends hw).bind fun _ x hx => hx.congr rfl rfl rfl

/-! ### `sys_open` -/

theorem openInode_during (h : During sb base d l ∅ s) (p : Slot) (path : CString) (omode : UInt32) :
    Halts (fun o t => During sb base d l o.toFinset t) (Underway sb base d l)
      (openInode sb p path omode s) := by
  rw [openInode, run_get_bind]
  cases openPath (s.proc p).containerID path (omode &&& O_CREATE != 0) with
  | error r => exact h.toUnderway
  | ok path' =>
    dsimp only
    split_ifs
    · exact create_during L h p path' .file 0 0
    · refine (namei_during L h p path').bind ?_
      rintro (_ | ip) t ht
      · exact ht
      · dsimp only
        refine (ilock_during ht ip).bind ?_
        rintro _ u ⟨-, hu⟩
        rw [run_get_bind]
        split_ifs
        · exact (iunlockput_during L hu ip).bind fun _ v hv => hv.mono (Finset.empty_subset _)
        · exact hu

omit L in
/-- A file without a descriptor is given back, and its entry stands for nothing. -/
theorem openFile_during (h : During sb base d l P s)
    (hclosed : ∀ f, (s.file f).ref = 0 → (s.file f).kind = .none) :
    Halts (fun _ => During sb base d l P) (Underway sb base d l) (openFile sb p s) := by
  rw [openFile]
  refine filealloc_halts.bind ?_
  rintro (_ | f) t ⟨hnone, hsome⟩
  · rw [hnone rfl]
    exact h
  · obtain ⟨hzero, rfl⟩ := hsome f rfl
    dsimp only
    refine fdalloc_halts.bind ?_
    rintro (_ | fd) u ⟨hnone', hsome'⟩
    · rw [hnone' rfl]
      dsimp only
      rw [run_bind_ok (fileclose_run ?_ ?_)]
      · exact h.congr rfl rfl rfl rfl
      · rw [State.setFile_self]
      · rw [State.setFile_self]
        exact hclosed f hzero
    · rw [hsome' fd rfl]
      exact h.congr rfl rfl rfl rfl

theorem sysOpen_after (h : Inside sb s) (hs : WellFormed sb s) (hb : Budget s) (p : Slot)
    (path : Option CString) (omode : UInt32) :
    Halts (fun _ t => After sb base 1 s t) (Stops sb base s) (sysOpen sb p path omode s) := by
  cases path with
  | none => exact .refl h
  | some path =>
    rw [sysOpen]
    refine After.of_ended (Halts.bind_with (openInode_costs hs hb p path omode)
      (openInode_during L (.begin h) p path omode) ?_)
    rintro (_ | ip) t ⟨hfile, -⟩ ht
    · exact endOp_return ht none
    · have hclosed : ∀ f, (t.file f).ref = 0 → (t.file f).kind = .none := by
        have hsame : t.file = s.file := hfile
        rw [hsame]
        exact hs.closed
      refine (openFile_during ht hclosed).bind ?_
      rintro (_ | ⟨f, fd⟩) u hu
      · exact unlockput_return L hu ip none
      · refine (iunlock_during hu ip).bind fun _ v hv => ?_
        exact (endOp_ends hv).bind fun _ w hw => hw.congr rfl rfl rfl

/-! ### `filewrite` -/

theorem writeChunk_after (h : Inside sb s) (ip : Entry) (src : ℕ → UInt8) (n1 : ℕ) :
    Halts (fun _ t => After sb base 1 s t) (Stops sb base s) (writeChunk sb f ip src n1 s) := by
  rw [writeChunk]
  refine After.of_ended ((ilock_during (.begin h) ip).bind ?_)
  rintro _ t ⟨-, ht⟩
  rw [run_get_bind]
  refine (writei_during L ht (Finset.mem_insert_self ip ∅) src _ _).bind fun r u hu => ?_
  have hend : ∀ v, During sb base s.disk s.ended (insert ip ∅) v →
      Halts (fun _ => Ended sb base s.disk s.ended) (Underway sb base s.disk s.ended)
        ((iunlock ip >>= fun _ => endOp >>= fun _ => pure r) v) := by
    intro v hv
    exact (iunlock_during hv ip).bind fun _ w hw => endOp_return hw r
  split_ifs
  · rw [run_modify_bind]
    exact hend _ (hu.congr rfl rfl rfl rfl)
  · exact hend u hu

/-- The number of chunks in which `filewrite` writes `n` bytes. -/
def chunks (n : ℕ) : ℕ := (n + (chunkMax - 1)) / chunkMax

theorem writeChunks_after {addr : ℕ → UInt8} {len fuel i : ℕ} (h : Inside sb s) :
    Halts (fun _ t => After sb base (chunks (len - i)) s t) (Stops sb base s)
      (writeChunks sb f ip addr len fuel i s) := by
  induction fuel generalizing i s with
  | zero => exact .refl h
  | succ fuel ih =>
    rw [writeChunks]
    split_ifs with hi
    · have hmax : chunkMax = 1536 := rfl
      have hcount : chunks (len - i) = 1 + chunks (len - (i + min (len - i) chunkMax)) := by
        simp only [chunks, hmax]
        omega
      rw [hcount]
      refine After.bind (writeChunk_after L h ip _ _) fun r t ht => ?_
      split_ifs
      · exact .refl ht
      · exact .refl sb base t
      · exact ih ht
    · exact .refl h

theorem filewrite_after (h : Inside sb s) (f : FileId) (addr : ℕ → UInt8) (len : ℤ) :
    Halts (fun _ t => After sb base (chunks len.toNat) s t) (Stops sb base s)
      (filewrite sb f addr len s) := by
  rw [filewrite, run_get_bind]
  split_ifs
  · exact .refl h
  · cases (s.file f).kind with
    | none => exact .refl sb base s
    | pipe => exact .refl sb base s
    | inode ip =>
      exact After.bind (m := 0) (writeChunks_after L h) fun i t ht => .refl ht

/-! ### `fileclose` and `exit` -/

theorem fileclose_after (h : Inside sb s) (f : FileId) :
    Halts (fun _ t => After sb base 1 s t) (Stops sb base s) (fileclose sb f s) := by
  rw [fileclose, run_get_bind]
  split_ifs
  · exact .refl sb base s
  · exact .same h rfl rfl rfl
  · rw [run_modify_bind]
    set u := s.setFile f { s.file f with ref := 0, kind := .none }
    have hsame : After sb base 0 s u := .same h rfl rfl rfl
    have hu := hsame.inside
    refine Halts.mono (Q := fun _ t => After sb base 1 u t) (E := Stops sb base u) ?_
      (fun _ t ht => hsame.trans ht) fun t ht => hsame.stops ht
    cases (s.file f).kind with
    | none => exact .refl hu
    | pipe => exact .refl hu
    | inode ip =>
      exact After.of_ended ((iput_during L (.begin hu) ip).bind fun _ v hv => endOp_ends hv)

theorem closeFd_after (h : Inside sb s) (fd : Fd) :
    Halts (fun _ t => After sb base 1 s t) (Stops sb base s) (closeFd sb p fd s) := by
  rw [closeFd, run_get_bind]
  cases (s.proc p).ofile fd with
  | none => exact .refl h
  | some f => exact After.bind (m := 0) (fileclose_after L h f) fun _ t ht => .same ht rfl rfl rfl

theorem exit_after (h : Inside sb s) (p : Slot) :
    Halts (fun _ t => After sb base (NOFILE + 1) s t) (Stops sb base s) (exit sb p s) := by
  rw [exit]
  have hfiles : Halts (fun _ t => After sb base _ s t) (Stops sb base s)
      ((List.finRange NOFILE).forM (closeFd sb p) s) :=
    After.forM _ h fun fd t ht => closeFd_after L ht fd
  rw [List.length_finRange] at hfiles
  refine After.bind hfiles fun _ t ht => ?_
  refine After.of_ended ((putCwd_during L (.begin ht) p).bind fun _ u hu => ?_)
  exact (endOp_ends hu).bind fun _ v hv => hv.congr rfl rfl rfl

end Calls

end Xv6Container.Crash
