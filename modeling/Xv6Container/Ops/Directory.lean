import Xv6Container.Lib.Trace
import Xv6Container.Ops.Cache
import Xv6Container.Ops.Direntry
import Xv6Container.Ops.ReadWrite

/-! A directory as a finite map. `dirlookup` and `dirlink` take a C string; calls on one directory,
with the write of a zero entry that `sys_unlink` makes, behave as lookups, insertions and removals of a
map from names to places and inode numbers. Between the calls anything may happen that leaves the
directory alone. -/

namespace Xv6Container.Ops.Directory

open Lib
open Fs (BSIZE MAXFILE NINODE FileType Dinode Entry Stop)
open Names (DIRSIZ Name)

section Model

variable (sb : Superblock) (dp : Entry)

def dirlookup (name : ℕ → UInt8) : Run (Option (Entry × ℕ)) := do
  let dir := ((← get).cache dp).copy
  if dir.type ≠ .dir then throw (.panic "dirlookup not DIR")
  else
    match ← direntLoop sb dp (matchesName name) "dirlookup read" dir.size 0 with
    | none => return none
    | some (off, inum) =>
      let ip ← iget inum
      return some (ip, off)

/-- `dirlink`; `de` is what the variable holds before. -/
def dirlink (de name : ℕ → UInt8) (inum : UInt32) : Run Bool := do
  match ← dirlookup sb dp name with
  | some (ip, _) =>
    iput sb ip
    return false
  | none =>
    let size := ((← get).cache dp).copy.size
    let free ← direntLoop sb dp (fun de => deInum de = 0) "dirlink read" size 0
    -- Without a free entry the loop ends at the first multiple of `DIRENT` from `size` on.
    let off := (free.map Prod.fst).getD ((size + DIRENT - 1) / DIRENT * DIRENT)
    let r ← writei sb dp (setEntry de name inum.toNat) (.ofNat off) (.ofNat DIRENT)
    if r ≠ DIRENT then throw (.panic "dirlink") else return true

/-- The part of `sys_unlink` that removes the entry. -/
def unlink (name : ℕ → UInt8) : Run Bool := do
  match ← dirlookup sb dp name with
  | none => return false
  | some (_, off) =>
    let r ← writei sb dp (fun _ => 0) (.ofNat off) (.ofNat DIRENT)
    if r ≠ DIRENT then throw (.panic "unlink: writei") else return true

inductive Act where
  | link (de name : ℕ → UInt8) (inum : UInt32)
  | lookup (name : ℕ → UInt8)
  | unlink (name : ℕ → UInt8)
  | other (t : State)

/-- What a call has done or found. -/
inductive Event where
  | linked (name : Name) (inum : ℕ)
  | refused (name : Name)
  | found (name : Name) (off inum : ℕ)
  | missing (name : Name)
  | removed (name : Name)
  deriving DecidableEq

def Event.name : Event → Name
  | .linked name _ | .refused name | .found name _ _ | .missing name | .removed name => name

def perform : Act → Run (Option Event)
  | .link de name inum => do
    let ok ← dirlink sb dp de name inum
    return some (if ok then .linked (nameOf name) inum.toNat else .refused (nameOf name))
  | .lookup name => do
    match ← dirlookup sb dp name with
    | none => return some (.missing (nameOf name))
    | some (ip, off) => return some (.found (nameOf name) off ((← get).cache ip).inum)
  | .unlink name => do
    let ok ← unlink sb dp name
    return some (if ok then .removed (nameOf name) else .missing (nameOf name))
  | .other t => do
    set t
    return none

def step (s : State) (a : Act) : Except Stop State :=
  match perform sb dp a s with
  | .ok _ t => .ok t
  | .error r _ => .error r

def observe (s : State) (a : Act) : Option Event :=
  match perform sb dp a s with
  | .ok ev _ => ev
  | .error _ _ => none

/-- The directory is loaded, without holes. -/
structure Ready (s : State) : Prop where
  held : Held sb dp s
  solid : s.disk.Solid (s.cache dp).copy
  dir : (s.cache dp).copy.type = .dir
  ref : 1 ≤ (s.cache dp).ref

def bytes (s : State) : List UInt8 := s.disk.content (s.cache dp).copy

/-- Inode numbers are not 0 and fit into a `ushort`; the others leave the directory alone. -/
def Allowed (s : State) : Act → Prop
  | .link _ _ inum => 0 < inum.toNat ∧ inum.toNat < 2 ^ 16
  | .lookup _ | .unlink _ => True
  | .other t => Ready sb dp t ∧ bytes dp t = bytes dp s

end Model

/-! ### Finite maps -/

/-- What the names stand for: the place of the entry and the inode number. -/
abbrev Map := Name → Option (ℕ × ℕ)

/-- An operation of the map. -/
inductive Map.Step (m : Map) : Event → Map → Prop
  | linked {name : Name} {off inum : ℕ} (habsent : m name = none)
      (hplace : ∀ name', (m name').map Prod.fst ≠ some off) :
      Map.Step m (.linked name inum) (Function.update m name (some (off, inum)))
  | refused {name : Name} (hpresent : m name ≠ none) : Map.Step m (.refused name) m
  | found {name : Name} {off inum : ℕ} (h : m name = some (off, inum)) :
      Map.Step m (.found name off inum) m
  | missing {name : Name} (habsent : m name = none) : Map.Step m (.missing name) m
  | removed {name : Name} (hpresent : m name ≠ none) :
      Map.Step m (.removed name) (Function.update m name none)

/-- The operations of a map one after the other. -/
inductive Map.Follows (m : Map) : List Event → Map → Prop
  | nil : Map.Follows m [] m
  | next {log : List Event} {m' m'' : Map} {ev : Event} (h : Map.Follows m log m')
      (hev : Map.Step m' ev m'') : Map.Follows m (log ++ [ev]) m''

/-- The entry at an offset. -/
def entryAt (l : List UInt8) (off : ℕ) : List UInt8 := (l.drop off).take DIRENT

/-- The entry at `off` is in use, with this name and inode number. -/
structure Uses (l : List UInt8) (off : ℕ) (name : Name) (inum : ℕ) : Prop where
  dvd : DIRENT ∣ off
  lt : off < l.length
  inum_eq : deInum (entryAt l off) = inum
  used : inum ≠ 0
  name_eq : deName (entryAt l off) = name.bytes

/-- The entries in use are those of the map. -/
structure Reflects (l : List UInt8) (m : Map) : Prop where
  dvd : DIRENT ∣ l.length
  entries : ∀ name off inum, m name = some (off, inum) ↔ Uses l off name inum

/-! ### Entries in the flat file -/

variable {l p : List UInt8} {m : Map} {name name' : Name} {off off' inum inum' : ℕ}

theorem entryAt_splice_self (hp : p.length = DIRENT) (hoff : off ≤ l.length) :
    entryAt (splice l off p) off = p := by
  rw [entryAt, ← hp, take_drop_splice hoff]

theorem entryAt_splice_of_ne (hp : p.length = DIRENT) (hoff : off ≤ l.length) (hdvd : DIRENT ∣ off)
    (hdvd' : DIRENT ∣ off') (hne : off' ≠ off) : entryAt (splice l off p) off' = entryAt l off' := by
  rw [entryAt, entryAt]
  dsimp only [DIRENT] at *
  by_cases hlt : off' < off
  · exact take_drop_splice_of_le hoff (by omega)
  · rw [drop_splice_of_le hoff (by omega)]

/-- A new entry does not matter for those at other places. -/
theorem uses_splice_of_ne (hp : p.length = DIRENT) (hl : DIRENT ∣ l.length) (hoff : off ≤ l.length)
    (hdvd : DIRENT ∣ off) (hne : off' ≠ off) :
    Uses (splice l off p) off' name inum ↔ Uses l off' name inum := by
  have hlt : DIRENT ∣ off' → (off' < (splice l off p).length ↔ off' < l.length) := by
    intro hdvd'
    rw [length_splice hoff, hp]
    dsimp only [DIRENT] at *
    omega
  constructor
  · intro h
    have heq := entryAt_splice_of_ne (l := l) hp hoff hdvd h.dvd hne
    exact ⟨h.dvd, (hlt h.dvd).1 h.lt, heq ▸ h.inum_eq, h.used, heq ▸ h.name_eq⟩
  · intro h
    have heq := entryAt_splice_of_ne (l := l) hp hoff hdvd h.dvd hne
    exact ⟨h.dvd, (hlt h.dvd).2 h.lt, heq ▸ h.inum_eq, h.used, heq ▸ h.name_eq⟩

theorem length_entryBytes (name : Name) (inum : ℕ) : (entryBytes name inum).length = DIRENT := by
  rw [entryBytes, List.length_map, List.length_range]

namespace Reflects

/-- A place where no entry is in use. -/
theorem unused (h : Reflects l m)
    (hfree : off = l.length ∨ off < l.length ∧ deInum (entryAt l off) = 0) :
    m name ≠ some (off, inum) := by
  intro hm
  have huses := (h.entries name off inum).1 hm
  rcases hfree with rfl | ⟨-, hzero⟩
  · exact Nat.lt_irrefl _ huses.lt
  · exact huses.used (huses.inum_eq.symm.trans hzero)

/-- An entry for a new name at a free place. -/
theorem link (h : Reflects l m) (habsent : m name = none) (hname : 0 ∉ name.bytes)
    (hpos : inum ≠ 0) (hlt : inum < 2 ^ 16) (hdvd : DIRENT ∣ off)
    (hfree : off = l.length ∨ off < l.length ∧ deInum (entryAt l off) = 0) :
    Reflects (splice l off (entryBytes name inum)) (Function.update m name (some (off, inum))) := by
  have hp := length_entryBytes name inum
  have hoff : off ≤ l.length := by omega
  have hl := h.dvd
  have hlen := length_splice (p := entryBytes name inum) hoff
  constructor
  · rw [hlen, hp]
    dsimp only [DIRENT] at *
    omega
  · intro name' off' inum'
    by_cases hplace : off' = off
    · subst hplace
      constructor
      · intro hm
        by_cases hn : name' = name
        · subst hn
          rw [Function.update_self, Option.some.injEq, Prod.mk.injEq] at hm
          obtain ⟨-, rfl⟩ := hm
          refine ⟨hdvd, ?_, ?_, hpos, ?_⟩
          · rw [hlen, hp]
            dsimp only [DIRENT]
            omega
          · rw [entryAt_splice_self hp hoff, deInum_entryBytes hlt]
          · rw [entryAt_splice_self hp hoff, deName_entryBytes hname]
        · rw [Function.update_of_ne hn] at hm
          exact absurd hm (h.unused hfree)
      · intro hu
        have hinum := hu.inum_eq
        have hbytes := hu.name_eq
        rw [entryAt_splice_self hp hoff, deInum_entryBytes hlt] at hinum
        rw [entryAt_splice_self hp hoff, deName_entryBytes hname] at hbytes
        have hn : name' = name := by
          cases name'
          cases name
          rw [Name.mk.injEq]
          exact hbytes.symm
        rw [hn, Function.update_self, hinum]
    · rw [uses_splice_of_ne hp hl hoff hdvd hplace, ← h.entries]
      by_cases hn : name' = name
      · subst hn
        rw [Function.update_self, habsent]
        simp only [Option.some.injEq, Prod.mk.injEq, reduceCtorEq, iff_false]
        exact fun heq => hplace heq.1.symm
      · rw [Function.update_of_ne hn]

/-- The entry of a name is zeroed. -/
theorem remove (h : Reflects l m) (hm : m name = some (off, inum)) (hp : p.length = DIRENT)
    (hzero : deInum p = 0) : Reflects (splice l off p) (Function.update m name none) := by
  have huses := (h.entries name off inum).1 hm
  have hoff := huses.lt.le
  have hl := h.dvd
  have hdvd := huses.dvd
  constructor
  · rw [length_splice hoff, hp]
    dsimp only [DIRENT] at *
    omega
  · intro name' off' inum'
    by_cases hplace : off' = off
    · subst hplace
      constructor
      · intro hm'
        by_cases hn : name' = name
        · rw [hn, Function.update_self] at hm'
          cases hm'
        · -- the place has one name only
          rw [Function.update_of_ne hn] at hm'
          have huses' := (h.entries name' off' inum').1 hm'
          refine absurd ?_ hn
          cases name'
          cases name
          rw [Name.mk.injEq]
          exact huses'.name_eq.symm.trans huses.name_eq
      · intro hu
        have hinum := hu.inum_eq
        rw [entryAt_splice_self hp hoff, hzero] at hinum
        exact absurd hinum.symm hu.used
    · rw [uses_splice_of_ne hp hl hoff hdvd hplace, ← h.entries]
      by_cases hn : name' = name
      · subst hn
        rw [Function.update_self, hm]
        simp only [Option.some.injEq, Prod.mk.injEq, reduceCtorEq, false_iff]
        exact fun heq => hplace heq.1.symm
      · rw [Function.update_of_ne hn]

end Reflects

/-! ### The loops over the entries -/

variable {sb : Superblock} {dp ip : Entry} {s t u : State}

theorem length_bytes (dp : Entry) (s : State) : (bytes dp s).length = (s.cache dp).copy.size :=
  length_content ..

theorem Ready.dev (h : Ready sb dp s) : (s.cache dp).copy.type ≠ .dev := by
  rw [h.dir]
  nofun

/-- Offsets in a directory fit into an `uint`. -/
theorem Ready.toNat_ofNat (h : Ready sb dp s) (hoff : off < (bytes dp s).length) :
    (UInt32.ofNat off).toNat = off := by
  have := h.solid.off_lt (length_bytes dp s ▸ hoff)
  rw [UInt32.toNat_ofNat', Nat.mod_eq_of_lt (by omega)]

theorem Ready.readi (h : Ready sb dp s) (hl : DIRENT ∣ (bytes dp s).length) (hdvd : DIRENT ∣ off)
    (hoff : off < (bytes dp s).length) :
    readi sb dp (.ofNat off) (.ofNat DIRENT) s = .ok (some (entryAt (bytes dp s) off)) s ∧
      (entryAt (bytes dp s) off).length = DIRENT := by
  have hbound := h.solid.off_lt (length_bytes dp s ▸ hoff)
  have hsize : (UInt32.ofNat DIRENT).toNat = DIRENT := rfl
  rw [length_bytes] at hoff
  constructor
  · rw [readi_run h.held h.dev h.solid, h.toNat_ofNat (by rwa [length_bytes]), hsize,
      if_neg (by dsimp only [DIRENT]; omega)]
    rfl
  · rw [entryAt, List.length_take, List.length_drop]
    rw [length_bytes] at hl ⊢
    dsimp only [DIRENT] at *
    omega

/-- The loop finds an entry that passes the test, or there is none. -/
theorem Ready.direntLoop (h : Ready sb dp s) (hl : DIRENT ∣ (bytes dp s).length)
    {test : List UInt8 → Bool} {msg : String} {fuel : ℕ} (hdvd : DIRENT ∣ off) :
    ∃ r, direntLoop sb dp test msg fuel off s = .ok r s ∧
      (∀ o i, r = some (o, i) → DIRENT ∣ o ∧ o < (bytes dp s).length ∧
        test (entryAt (bytes dp s) o) = true ∧ i = deInum (entryAt (bytes dp s) o)) ∧
      (r = none → ∀ o, off ≤ o → o < off + DIRENT * fuel → DIRENT ∣ o → o < (bytes dp s).length →
        test (entryAt (bytes dp s) o) = false) := by
  induction fuel generalizing off with
  | zero =>
    refine ⟨none, rfl, by rintro _ _ ⟨⟩, fun _ o h1 h2 => ?_⟩
    omega
  | succ fuel ih =>
    rw [Ops.direntLoop, run_get_bind]
    by_cases hoff : off < (bytes dp s).length
    · obtain ⟨hread, hlen⟩ := h.readi hl hdvd hoff
      rw [if_pos (length_bytes dp s ▸ hoff), run_bind_ok hread]
      dsimp only
      rw [if_neg (not_not.2 hlen)]
      cases htest : test (entryAt (bytes dp s) off) with
      | true =>
        refine ⟨_, rfl, ?_, by rintro ⟨⟩⟩
        intro o i hoi
        cases hoi
        exact ⟨hdvd, hoff, htest, rfl⟩
      | false =>
        obtain ⟨r, hr, hsome, hnone⟩ := ih (Nat.dvd_add hdvd (Nat.dvd_refl DIRENT))
        refine ⟨r, hr, hsome, fun hrn o h1 h2 hd ho => ?_⟩
        by_cases heq : o = off
        · rwa [heq]
        · have h16 : off + DIRENT ≤ o := by
            dsimp only [DIRENT] at *
            omega
          exact hnone hrn o h16 (by rw [Nat.mul_succ] at h2; omega) hd ho
    · rw [if_neg (length_bytes dp s ▸ hoff)]
      exact ⟨none, rfl, by rintro _ _ ⟨⟩, fun _ o h1 _ _ ho => absurd ho (by omega)⟩

/-- The whole loop. -/
theorem Ready.search (h : Ready sb dp s) (hl : DIRENT ∣ (bytes dp s).length)
    (test : List UInt8 → Bool) (msg : String) :
    ∃ r, Ops.direntLoop sb dp test msg (s.cache dp).copy.size 0 s = .ok r s ∧
      (∀ o i, r = some (o, i) → DIRENT ∣ o ∧ o < (bytes dp s).length ∧
        test (entryAt (bytes dp s) o) = true ∧ i = deInum (entryAt (bytes dp s) o)) ∧
      (r = none → ∀ o, DIRENT ∣ o → o < (bytes dp s).length →
        test (entryAt (bytes dp s) o) = false) := by
  obtain ⟨r, hr, hsome, hnone⟩ := h.direntLoop hl (Nat.dvd_zero DIRENT)
  refine ⟨r, hr, hsome, fun hrn o hd ho => hnone hrn o (Nat.zero_le o) ?_ hd ho⟩
  rw [length_bytes] at ho
  dsimp only [DIRENT]
  omega

/-! ### References -/

/-- The disk and the inode of `dp` are as they were. -/
structure Frame (dp : Entry) (s t : State) : Prop where
  disk : t.disk = s.disk
  inum : (t.cache dp).inum = (s.cache dp).inum
  copy : (t.cache dp).copy = (s.cache dp).copy
  ref : 1 ≤ (t.cache dp).ref

theorem Frame.trans (h : Frame dp s t) (h' : Frame dp t u) : Frame dp s u :=
  ⟨h'.disk.trans h.disk, h'.inum.trans h.inum, h'.copy.trans h.copy, h'.ref⟩

theorem Frame.bytes (h : Frame dp s t) : bytes dp t = bytes dp s := by
  rw [Directory.bytes, Directory.bytes, h.disk, h.copy]

theorem Ready.frame (h : Ready sb dp s) (ht : Frame dp s t) : Ready sb dp t := by
  refine ⟨⟨ht.disk ▸ h.held.owned, ?_, ht.copy ▸ h.held.alloc⟩, ?_, ?_, ht.ref⟩
  · rw [ht.disk, ht.inum, ht.copy]
    exact h.held.synced
  · rw [ht.disk, ht.copy]
    exact h.solid
  · rw [ht.copy]
    exact h.dir

/-- A reference that is given back frees nothing. -/
structure Puttable (dp ip : Entry) (s : State) : Prop where
  keeps : (s.cache ip).valid = true → (s.cache ip).ref ≠ 1
  self : ip = dp → 2 ≤ (s.cache ip).ref

/-- One entry changes, and not what counts of `dp`. -/
theorem frame_setInode {x : Inode} (href : 1 ≤ (s.cache dp).ref)
    (hx : ip = dp → x.inum = (s.cache dp).inum ∧ x.copy = (s.cache dp).copy ∧ 1 ≤ x.ref) :
    Frame dp s (s.setInode ip x) := by
  by_cases h : dp = ip
  · subst h
    obtain ⟨h1, h2, h3⟩ := hx rfl
    refine ⟨rfl, ?_, ?_, ?_⟩
    · rwa [State.setInode_self]
    · rwa [State.setInode_self]
    · rwa [State.setInode_self]
  · refine ⟨rfl, ?_, ?_, ?_⟩
    · rw [State.setInode_of_ne _ h]
    · rw [State.setInode_of_ne _ h]
    · rwa [State.setInode_of_ne _ h]

theorem iget_frame (href : 1 ≤ (s.cache dp).ref) (i : ℕ) :
    Halts (fun ip t => (t.cache ip).inum = i ∧ Frame dp s t ∧ Puttable dp ip t) (fun _ => True)
      (iget i s) := by
  simp only [iget, run_get_bind]
  cases hf : (List.finRange NINODE).find? fun e => (s.cache e).ref > 0 ∧ (s.cache e).inum = i with
  | some ip =>
    have hfound := List.find?_some hf
    simp only [gt_iff_lt, decide_eq_true_eq] at hfound
    refine ⟨?_, frame_setInode href ?_, ?_, ?_⟩
    · rw [State.setInode_self]
      exact hfound.2
    · rintro rfl
      exact ⟨rfl, rfl, by dsimp only; omega⟩
    · rw [State.setInode_self]
      intro _
      dsimp only
      omega
    · rw [State.setInode_self]
      intro _
      dsimp only
      omega
  | none =>
    dsimp only
    cases hg : (List.finRange NINODE).find? fun e => (s.cache e).ref = 0 with
    | none => exact trivial
    | some ip =>
      have hzero := List.find?_some hg
      simp only [decide_eq_true_eq] at hzero
      have hne : ip ≠ dp := by
        rintro rfl
        omega
      refine ⟨?_, frame_setInode href fun h => absurd h hne, ?_, fun h => absurd h hne⟩
      · rw [State.setInode_self]
      · rw [State.setInode_self]
        rintro ⟨⟩

theorem iput_frame (href : 1 ≤ (s.cache dp).ref) (hput : Puttable dp ip s) :
    Halts (fun _ t => Frame dp s t) (fun _ => True) (iput sb ip s) := by
  rw [iput]
  refine (acquiresleep_halts (E := fun _ => True) trivial).bind ?_
  rintro _ t rfl
  have hlock : Frame dp s (s.setInode ip { s.cache ip with locked := true }) := by
    apply frame_setInode href
    rintro rfl
    exact ⟨rfl, rfl, href⟩
  rw [run_get_bind]
  simp only [State.setInode_self]
  rw [if_neg fun h => hput.keeps h.1 h.2.2]
  simp only [releasesleep, setInode, run_modify_bind, run_modify, State.setInode_self, halts_ok]
  refine (hlock.trans (frame_setInode hlock.ref ?_)).trans (frame_setInode ?_ ?_)
  · rintro rfl
    rw [State.setInode_self]
    exact ⟨rfl, rfl, href⟩
  · by_cases h : dp = ip
    · subst h
      rwa [State.setInode_self]
    · rwa [State.setInode_of_ne _ h, State.setInode_of_ne _ h]
  · rintro rfl
    have := hput.self rfl
    simp only [State.setInode_self]
    exact ⟨trivial, trivial, by omega⟩

/-! ### The calls -/

theorem dirlookup_halts (h : Ready sb dp s) (hm : Reflects (bytes dp s) m) (p : ℕ → UInt8) :
    Halts (fun r t => Frame dp s t ∧
        match r with
        | none => m (nameOf p) = none
        | some (ip, off) => m (nameOf p) = some (off, (t.cache ip).inum) ∧ Puttable dp ip t)
      (fun _ => True) (dirlookup sb dp p s) := by
  obtain ⟨r, hr, hsome, hnone⟩ := h.search hm.dvd (matchesName p) "dirlookup read"
  have hlen : ∀ o, DIRENT ∣ o → o < (bytes dp s).length →
      (entryAt (bytes dp s) o).length = DIRENT := fun o hd ho => (h.readi hm.dvd hd ho).2
  rw [dirlookup, run_get_bind, if_neg (not_not.2 h.dir), run_bind_ok hr]
  cases r with
  | none =>
    refine ⟨⟨rfl, rfl, rfl, h.ref⟩, ?_⟩
    by_contra hne
    obtain ⟨⟨off, inum⟩, hx⟩ := Option.ne_none_iff_exists'.1 hne
    have hu := (hm.entries _ off inum).1 hx
    have hno := hnone rfl off hu.dvd hu.lt
    rw [matchesName_eq p (hlen off hu.dvd hu.lt), named, decide_eq_false_iff_not] at hno
    exact hno ⟨hu.inum_eq.symm ▸ hu.used, hu.name_eq⟩
  | some x =>
    obtain ⟨off, inum⟩ := x
    obtain ⟨hd, ho, htest, rfl⟩ := hsome off inum rfl
    rw [matchesName_eq p (hlen off hd ho), named, decide_eq_true_eq] at htest
    refine (iget_frame h.ref _).bind ?_
    rintro ip t ⟨hinum, ht, hput⟩
    refine ⟨ht, ?_, hput⟩
    rw [hm.entries, hinum]
    exact ⟨hd, ho, rfl, htest.1, htest.2⟩

/-- 16 bytes go to a place of the directory, and the rest of it is as it was. -/
theorem putEntry_halts (h : Ready sb dp s)
    (hoff : off ≤ (bytes dp s).length) (src : ℕ → UInt8) :
    Halts (fun r t => r = (DIRENT : ℤ) → Ready sb dp t ∧
        bytes dp t = splice (bytes dp s) off ((List.range DIRENT).map src)) (fun _ => True)
      (writei sb dp src (.ofNat off) (.ofNat DIRENT) s) := by
  have hsize : (UInt32.ofNat DIRENT).toNat = DIRENT := rfl
  have htoNat : (UInt32.ofNat off).toNat = off := by
    have hle : (s.cache dp).copy.size ≤ 2 ^ 17 := by
      by_contra hlong
      exact Nat.lt_irrefl _ (h.solid.off_lt (Nat.not_le.1 hlong))
    rw [length_bytes] at hoff
    rw [UInt32.toNat_ofNat', Nat.mod_eq_of_lt (by omega)]
  by_cases hbad : Refused (s.cache dp).copy.size (.ofNat off) (.ofNat DIRENT)
  · rw [writei_refused h.dev hbad]
    exact fun heq => absurd heq (by decide)
  · refine (writei_halts h.held h.dev h.solid hbad src).mono ?_ fun _ _ => trivial
    rintro r t ⟨-, ht⟩ -
    rw [hsize, htoNat] at ht
    obtain ⟨d, hcache, htype, -⟩ := ht.entry
    have hentry : t.cache dp = { s.cache dp with copy := d } := by rw [hcache, Function.update_self]
    refine ⟨⟨ht.held, ht.solid, ?_, ?_⟩, ht.content⟩
    · rw [hentry]
      exact htype.trans h.dir
    · rw [hentry]
      exact h.ref

/-- A call was an operation of the map, and the entries of other names are as they were. -/
structure Outcome (sb : Superblock) (dp : Entry) (m : Map) (ev : Event) (s t : State) (m' : Map) :
    Prop where
  ready : Ready sb dp t
  reflects : Reflects (bytes dp t) m'
  step : Map.Step m ev m'
  kept : ∀ name off inum, m name = some (off, inum) → name ≠ ev.name →
    entryAt (bytes dp t) off = entryAt (bytes dp s) off

theorem Outcome.of_frame (h : Ready sb dp s) (hm : Reflects (bytes dp s) m) (ht : Frame dp s t)
    {ev : Event} (hev : Map.Step m ev m) : Outcome sb dp m ev s t m :=
  ⟨h.frame ht, ht.bytes.symm ▸ hm, hev, fun _ _ _ _ _ => by rw [ht.bytes]⟩

theorem dirlink_halts (h : Ready sb dp s) (hm : Reflects (bytes dp s) m) (de p : ℕ → UInt8)
    {inum : UInt32} (hpos : 0 < inum.toNat) (hlt : inum.toNat < 2 ^ 16) :
    Halts (fun r t => ∃ m', Outcome sb dp m
        (if r then .linked (nameOf p) inum.toNat else .refused (nameOf p)) s t m')
      (fun _ => True) (dirlink sb dp de p inum s) := by
  rw [dirlink]
  refine (dirlookup_halts h hm p).bind ?_
  rintro (_ | ⟨ip, off⟩) t ⟨ht, hr⟩
  · -- the name is new
    dsimp only at hr ⊢
    have hready := h.frame ht
    have hmt : Reflects (bytes dp t) m := ht.bytes.symm ▸ hm
    have hl := hmt.dvd
    obtain ⟨r, hrun, hsome, hnone⟩ := hready.search hl (fun de => deInum de = 0) "dirlink read"
    rw [run_get_bind, run_bind_ok hrun]
    set off := (r.map Prod.fst).getD (((t.cache dp).copy.size + DIRENT - 1) / DIRENT * DIRENT)
      with hoff
    have hplace : DIRENT ∣ off ∧ (off = (bytes dp t).length ∨
        off < (bytes dp t).length ∧ deInum (entryAt (bytes dp t) off) = 0) := by
      cases r with
      | none =>
        have hend : off = (bytes dp t).length := by
          rw [length_bytes] at hl ⊢
          rw [hoff, Option.map_none, Option.getD_none]
          dsimp only [DIRENT] at hl ⊢
          omega
        exact ⟨hend ▸ hl, .inl hend⟩
      | some x =>
        obtain ⟨o, i⟩ := x
        obtain ⟨hd, ho, htest, -⟩ := hsome o i rfl
        have heq : off = o := hoff
        rw [heq]
        exact ⟨hd, .inr ⟨ho, of_decide_eq_true htest⟩⟩
    obtain ⟨hdvd, hfree⟩ := hplace
    have hsrc : ∀ k < (UInt32.ofNat DIRENT).toNat,
        setEntry de p inum.toNat k = Ops.dirent (nameOf p) inum.toNat k :=
      fun k hk => setEntry_eq de p _ hk
    rw [writei_congr hsrc]
    refine (putEntry_halts hready (by omega) _).bind ?_
    rintro r' u hu
    by_cases hok : r' = (DIRENT : ℤ)
    · rw [if_neg (not_not.2 hok)]
      obtain ⟨hready', hbytes⟩ := hu hok
      have hrefl := hmt.link hr (zero_not_mem_nameOf p) (by omega) hlt hdvd hfree
      refine ⟨_, hready', hbytes ▸ hrefl, .linked hr ?_, ?_⟩
      · intro name' hn
        obtain ⟨⟨o, i⟩, hx, rfl⟩ := Option.map_eq_some_iff.1 hn
        exact hmt.unused hfree hx
      · intro name' o i hx _
        have hne : o ≠ off := by
          rintro rfl
          exact hmt.unused hfree hx
        rw [hbytes, ← ht.bytes]
        exact entryAt_splice_of_ne (length_entryBytes _ _) (by omega) hdvd
          ((hmt.entries _ _ _).1 hx).dvd hne
    · rw [if_pos hok]
      exact trivial
  · dsimp only at hr ⊢
    refine (iput_frame ht.ref hr.2).bind ?_
    intro _ u hu
    refine ⟨m, .of_frame h hm (ht.trans hu) (.refused ?_)⟩
    rw [hr.1]
    nofun

theorem unlink_halts (h : Ready sb dp s) (hm : Reflects (bytes dp s) m) (p : ℕ → UInt8) :
    Halts (fun r t => ∃ m', Outcome sb dp m
        (if r then .removed (nameOf p) else .missing (nameOf p)) s t m')
      (fun _ => True) (unlink sb dp p s) := by
  rw [unlink]
  refine (dirlookup_halts h hm p).bind ?_
  rintro (_ | ⟨ip, off⟩) t ⟨ht, hr⟩
  · exact ⟨m, .of_frame h hm ht (.missing hr)⟩
  · dsimp only at hr ⊢
    have hready := h.frame ht
    have hmt : Reflects (bytes dp t) m := ht.bytes.symm ▸ hm
    have huses := (hmt.entries _ _ _).1 hr.1
    refine (putEntry_halts hready huses.lt.le _).bind ?_
    rintro r u hu
    by_cases hok : r = (DIRENT : ℤ)
    · rw [if_neg (not_not.2 hok)]
      obtain ⟨hready', hbytes⟩ := hu hok
      have hlen : ((List.range DIRENT).map fun _ => (0 : UInt8)).length = DIRENT := rfl
      have hrefl := hmt.remove hr.1 hlen rfl
      refine ⟨_, hready', hbytes ▸ hrefl, .removed (by rw [hr.1]; nofun), ?_⟩
      intro name' o i hx hne
      have huses' := (hmt.entries _ _ _).1 hx
      have hplace : o ≠ off := by
        rintro rfl
        apply hne
        show name' = nameOf p
        rw [eq_comm, nameOf_eq_iff]
        exact huses.name_eq.symm.trans huses'.name_eq
      rw [hbytes, ← ht.bytes]
      exact entryAt_splice_of_ne hlen huses.lt.le huses.dvd huses'.dvd hplace
    · rw [if_pos hok]
      exact trivial

theorem perform_halts (h : Ready sb dp s) (hm : Reflects (bytes dp s) m) {a : Act}
    (ha : Allowed sb dp s a) :
    Halts (fun ev t => match ev with
        | some ev => ∃ m', Outcome sb dp m ev s t m'
        | none => Ready sb dp t ∧ bytes dp t = bytes dp s)
      (fun _ => True) (perform sb dp a s) := by
  cases a with
  | link de p inum => exact (dirlink_halts h hm de p ha.1 ha.2).bind fun _ _ hr => hr
  | lookup p =>
    refine (dirlookup_halts h hm p).bind ?_
    rintro (_ | ⟨ip, off⟩) t ⟨ht, hr⟩
    · exact ⟨m, .of_frame h hm ht (.missing hr)⟩
    · exact ⟨m, .of_frame h hm ht (.found hr.1)⟩
  | unlink p => exact (unlink_halts h hm p).bind fun _ _ hr => hr
  | other t => exact ha

/-! ### Runs -/

variable {log : List Event} {m₀ : Map} {s₀ : State}

/-- The directory is what the operations so far have made of the first map. -/
structure Refines (sb : Superblock) (dp : Entry) (m₀ : Map) (log : List Event) (s : State) (m : Map) :
    Prop where
  ready : Ready sb dp s
  reflects : Reflects (bytes dp s) m
  follows : Map.Follows m₀ log m

theorem Refines.step (h : Refines sb dp m₀ log s m) {a : Act} (ha : Allowed sb dp s a)
    (ht : step sb dp s a = .ok t) :
    ∃ m', Refines sb dp m₀ (log ++ (observe sb dp s a).toList) t m' := by
  rw [Directory.step] at ht
  rw [observe]
  cases hp : perform sb dp a s with
  | error r u =>
    rw [hp] at ht
    cases ht
  | ok ev u =>
    rw [hp] at ht
    cases ht
    have hends := (perform_halts h.ready h.reflects ha).of_ok hp
    cases ev with
    | none =>
      refine ⟨m, hends.1, hends.2 ▸ h.reflects, ?_⟩
      rw [Option.toList_none, List.append_nil]
      exact h.follows
    | some ev =>
      obtain ⟨m', hout⟩ := hends
      exact ⟨m', hout.ready, hout.reflects, h.follows.next hout.step⟩

/-- Two entries in use with equal names are one entry. -/
theorem Reflects.unique (h : Reflects l m) (hoff : DIRENT ∣ off) (hoff' : DIRENT ∣ off')
    (hlt : off < l.length) (hlt' : off' < l.length) (hused : deInum (entryAt l off) ≠ 0)
    (hused' : deInum (entryAt l off') ≠ 0)
    (heq : namecmp (dePtr (entryAt l off)) (dePtr (entryAt l off')) = 0) : off = off' := by
  have hlen : ∀ o, DIRENT ∣ o → o < l.length → (entryAt l o).length = DIRENT := by
    intro o hd ho
    have hl := h.dvd
    rw [entryAt, List.length_take, List.length_drop]
    dsimp only [DIRENT] at *
    omega
  have hm : ∀ o, DIRENT ∣ o → o < l.length → deInum (entryAt l o) ≠ 0 →
      m (nameOf (dePtr (entryAt l o))) = some (o, deInum (entryAt l o)) := fun o hd ho hu =>
    (h.entries _ _ _).2 ⟨hd, ho, rfl, hu, deName_eq (hlen o hd ho)⟩
  have hsame := hm off hoff hlt hused
  rw [namecmp_eq_zero.1 heq, hm off' hoff' hlt' hused', Option.some.injEq, Prod.mk.injEq] at hsame
  exact hsame.1.symm

/-- Calls of `dirlookup` and `dirlink` and removals, in any order, are operations of a finite map
one after the other. The map says which entries are in use, no two of which have equal names; and
whatever call comes next is an operation of the map again, and leaves the entries of other names as
they are. -/
theorem directory_refines_map (hready : Ready sb dp s₀) (hrefl : Reflects (bytes dp s₀) m₀)
    (h : Trace (step sb dp) (Allowed sb dp) (observe sb dp) s₀ log s) : ∃ m,
    Map.Follows m₀ log m ∧
    (∀ name off inum, m name = some (off, inum) ↔ Uses (bytes dp s) off name inum) ∧
    (∀ off off', DIRENT ∣ off → DIRENT ∣ off' → off < (bytes dp s).length →
      off' < (bytes dp s).length → deInum (entryAt (bytes dp s) off) ≠ 0 →
      deInum (entryAt (bytes dp s) off') ≠ 0 →
      namecmp (dePtr (entryAt (bytes dp s) off)) (dePtr (entryAt (bytes dp s) off')) = 0 →
      off = off') ∧
    ∀ a ev t, Allowed sb dp s a → perform sb dp a s = .ok (some ev) t →
      (∃ m', Map.Step m ev m' ∧
        ∀ name off inum, m' name = some (off, inum) ↔ Uses (bytes dp t) off name inum) ∧
      ∀ name off inum, m name = some (off, inum) → name ≠ ev.name →
        entryAt (bytes dp t) off = entryAt (bytes dp s) off := by
  obtain ⟨m, hm⟩ := h.invariant (I := fun log s => ∃ m, Refines sb dp m₀ log s m)
    ⟨m₀, hready, hrefl, .nil⟩ fun _ _ _ _ ⟨_, hold⟩ ha hu => hold.step ha hu
  refine ⟨m, hm.follows, hm.reflects.entries, fun off off' => hm.reflects.unique, ?_⟩
  intro a ev t ha hp
  obtain ⟨m', hout⟩ := (perform_halts hm.ready hm.reflects ha).of_ok hp
  exact ⟨⟨m', hout.step, hout.reflects.entries⟩, hout.kept⟩

/-- A call. -/
def Act.ours : Act → Bool
  | .link _ _ inum => decide (0 < inum.toNat ∧ inum.toNat < 2 ^ 16)
  | .lookup _ | .unlink _ => true
  | .other _ => false

theorem allowed_of_ours (s : State) {a : Act} (ha : a.ours = true) : Allowed sb dp s a := by
  cases a with
  | link _ _ inum =>
    show 0 < inum.toNat ∧ inum.toNat < 2 ^ 16
    exact of_decide_eq_true ha
  | lookup _ => trivial
  | unlink _ => trivial
  | other _ => cases ha

/-- A name of `n` times the letter `c`. -/
def letters (c : UInt8) (n k : ℕ) : UInt8 := if k < n then c else 0

/-- Names of 14 and 15 letters are one name and one of 13 is another; the place of a removed entry is
used again. -/
theorem directory_refines_map_fourteen : ∃ log s,
    Trace (step smallSb 0) (Allowed smallSb 0) (observe smallSb 0) (oneFile .dir) log s ∧
    log = [.linked (nameOf (letters 97 14)) 5, .refused (nameOf (letters 97 15)),
      .linked (nameOf (letters 97 13)) 6, .found (nameOf (letters 97 16)) 0 5,
      .removed (nameOf (letters 97 15)), .missing (nameOf (letters 97 14)),
      .linked (nameOf (letters 98 2)) 7, .found (nameOf (letters 98 2)) 0 7] ∧
    ∃ m, Map.Follows (fun _ => none) log m ∧
      ∀ name off inum, m name = some (off, inum) ↔ Uses (bytes 0 s) off name inum := by
  have hready : Ready smallSb 0 (oneFile .dir) :=
    ⟨oneFile_held .dir (by decide), fun bn hbn => absurd hbn (Nat.not_lt_zero _), rfl, by decide⟩
  have hrefl : Reflects (bytes 0 (oneFile .dir)) fun _ => none := by
    refine ⟨Nat.dvd_zero _, fun name off inum => ⟨nofun, fun h => ?_⟩⟩
    exact absurd h.lt (Nat.not_lt_zero _)
  have hstart : Trace (step smallSb 0) (fun _ a => Act.ours a = true) (observe smallSb 0)
      (oneFile .dir) [] (oneFile .dir) := .nil
  obtain ⟨log, s, hrun, htest⟩ := hstart.of_watch
    (fun log _ => decide (log =
      [.linked (nameOf (letters 97 14)) 5, .refused (nameOf (letters 97 15)),
        .linked (nameOf (letters 97 13)) 6, .found (nameOf (letters 97 16)) 0 5,
        .removed (nameOf (letters 97 15)), .missing (nameOf (letters 97 14)),
        .linked (nameOf (letters 98 2)) 7, .found (nameOf (letters 98 2)) 0 7]))
    [.link (fun _ => 1) (letters 97 14) 5, .link (fun _ => 1) (letters 97 15) 9,
      .link (fun _ => 1) (letters 97 13) 6, .lookup (letters 97 16), .unlink (letters 97 15),
      .lookup (letters 97 14), .link (fun _ => 1) (letters 98 2) 7, .lookup (letters 98 2)]
    (by decide +kernel)
  have htrace : Trace (step smallSb 0) (Allowed smallSb 0) (observe smallSb 0) (oneFile .dir) log s :=
    hrun.mono fun s _ => allowed_of_ours s
  obtain ⟨m, hfollows, hentries, -⟩ := directory_refines_map hready hrefl htrace
  exact ⟨log, s, htrace, of_decide_eq_true htest, m, hfollows, hentries⟩

end Xv6Container.Ops.Directory
