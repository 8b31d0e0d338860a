import Mathlib.Logic.Relation
import Xv6Container.Names.Changes

/-! What the calls do to the tree. Between two calls the references are those of the current
directories and of the open files. A call makes at most one edit to the tree and frees inodes
that have lost their last link and their last reference. -/

namespace Xv6Container.Names

open Lib Fs

variable {B W : Prop} {R K : Entry → ℤ} {s t u : State} {e dp ip : Entry} {i d : Inum} {p q : Slot}
  {f : FileId} {n n' m : Inum → Node} {name : Name} {off : ℕ}

/-! ### Holders -/

/-- The references of the current directories and of the open files. -/
def hold (s : State) : Entry → ℤ := fun e =>
  tally (fun p => (s.proc p).cwd) e + tally (fun f => (s.file f).ip) e

theorem hold_nonneg (s : State) (e : Entry) : 0 ≤ hold s e := by
  have h1 := tally_nonneg (fun p => (s.proc p).cwd) e
  have h2 := tally_nonneg (fun f => (s.file f).ip) e
  unfold hold
  omega

theorem hold_cwd (h : (s.proc p).cwd = some e) : 0 < hold s e := by
  have h1 := tally_pos (f := fun p => (s.proc p).cwd) h
  have h2 := tally_nonneg (fun f => (s.file f).ip) e
  unfold hold
  omega

theorem hold_file (h : (s.file f).ip = some e) : 0 < hold s e := by
  have h1 := tally_nonneg (fun p => (s.proc p).cwd) e
  have h2 := tally_pos (f := fun f => (s.file f).ip) h
  unfold hold
  omega

theorem hold_congr (hfile : ∀ f, (t.file f).ip = (s.file f).ip)
    (hproc : ∀ p, (t.proc p).cwd = (s.proc p).cwd) : hold t = hold s := by
  funext e
  simp only [hold, hfile, hproc]

theorem Stable.hold (h : Stable R s t) : hold t = hold s :=
  hold_congr (fun _ => by rw [h.file]) fun _ => by rw [h.proc]

theorem hold_setFile (x : File) :
    hold (s.setFile f x) + ptr (s.file f).ip = hold s + ptr x.ip := by
  funext e
  have hip : (fun g => ((s.setFile f x).file g).ip) =
      Function.update (fun g => (s.file g).ip) f x.ip := by
    funext g
    by_cases hg : g = f
    · rw [hg, Function.update_self]
      exact congrArg File.ip (Function.update_self ..)
    · rw [Function.update_of_ne hg]
      exact congrArg File.ip (Function.update_of_ne hg ..)
  have htally := tally_update (fun g => (s.file g).ip) f x.ip e
  rw [← hip] at htally
  simp only [Pi.add_apply, hold, htally, ptr]
  change tally (fun p => (s.proc p).cwd) e + _ + _ = _
  omega

theorem hold_setProc (x : Proc) :
    hold (s.setProc p x) + ptr (s.proc p).cwd = hold s + ptr x.cwd := by
  funext e
  have hcwd : (fun q => ((s.setProc p x).proc q).cwd) =
      Function.update (fun q => (s.proc q).cwd) p x.cwd := by
    funext q
    by_cases hq : q = p
    · rw [hq, Function.update_self]
      exact congrArg Proc.cwd (Function.update_self ..)
    · rw [Function.update_of_ne hq]
      exact congrArg Proc.cwd (Function.update_of_ne hq ..)
  have htally := tally_update (fun q => (s.proc q).cwd) p x.cwd e
  rw [← hcwd] at htally
  simp only [Pi.add_apply, hold, htally, ptr]
  change _ + tally (fun f => (s.file f).ip) e + _ = _
  omega

/-- A file that nobody has open holds no inode. -/
def Closed (s : State) : Prop := ∀ f, (s.file f).ref = 0 → (s.file f).ip = none

/-- The state between two calls. -/
structure Steady (B : Prop) (s : State) : Prop where
  cached : Cached B (hold s) s
  closed : Closed s

theorem Stable.steady (h : Stable R s t) (hs : Closed s) (ht : Cached B (Names.hold s) t) :
    Steady B t := by
  refine ⟨h.hold ▸ ht, fun f => ?_⟩
  rw [h.file]
  exact hs f

theorem Seated.hold : Seated (hold s) s := fun _ _ h => hold_cwd h

/-- The cache does not see the tables of files and processes. -/
theorem Cached.congr (h : Cached B R s) (hcache : t.cache = s.cache) (hnode : t.node = s.node)
    (hcreator : t.creator = s.creator) (hrec : t.recycled = s.recycled) : Cached B R t := by
  obtain ⟨⟨h1, h2, h3, h4, h5, h6⟩, h7⟩ := h
  refine ⟨⟨?_, ?_, ?_, ?_, ?_, ?_⟩, ?_⟩
  · rwa [hcache]
  · rwa [hcache]
  · rwa [hcache, hnode]
  · rwa [hcache, hnode]
  · rwa [hcache, hcreator, hrec]
  · rwa [hnode]
  · unfold Settled
    rwa [hcache, hnode]

theorem Cached.setFile (h : Cached B R s) (f : FileId) (x : File) :
    Cached B R (s.setFile f x) :=
  h.congr rfl rfl rfl rfl

theorem Cached.setProc (h : Cached B R s) (p : Slot) (x : Proc) : Cached B R (s.setProc p x) :=
  h.congr rfl rfl rfl rfl

/-! ### Edits -/

/-- Inodes are freed. -/
def Swept : (Inum → Node) → (Inum → Node) → Prop :=
  Relation.ReflTransGen fun n n' => ∃ i, Collected i n n'

theorem Swept.of_or {P : Prop} (h : n' = n ∨ P ∧ Collected i n n') : Swept n n' := by
  rcases h with rfl | ⟨-, h⟩
  · exact .refl
  · exact .single ⟨i, h⟩

/-- A new inode and the entry for it. -/
def made (n : Inum → Node) (d : Inum) (name : Name) (i : Inum) (a : Attr) : Inum → Node :=
  Function.update (Function.update n i
    ⟨a, if a.type = .dir then [some (.dot, i), some (.dotdot, d)] else []⟩) d
    ⟨if a.type = .dir then { (n d).attr with nlink := (n d).attr.nlink + 1 } else (n d).attr,
      insertFree (n d).entries (some (name, i))⟩

/-- The edit that a call makes: `adds` is the directory in which it may add an entry, `makes`
the one in which it may make a directory and `removes` the directory that it may remove. Only
a call that `unlinks` removes anything. -/
inductive Edit (unlinks : Prop) (adds makes removes : Option Inum) (n : Inum → Node) :
    (Inum → Node) → Prop
  | same : Edit unlinks adds makes removes n n
  | make {d i : Inum} {name : Name} {a : Attr} (hadds : adds = some d)
      (hmakes : a.type = .dir → makes = some d) (hd : (n d).attr.type = .dir)
      (hname : findEntry (n d).entries name = none) (hi0 : i ≠ 0)
      (hi : (n i).attr.type = .free) (ha : a.type ≠ .free) (hlink : a.nlink = 1) :
      Edit unlinks adds makes removes n (made n d name i a)
  | link {d i : Inum} {name : Name} (hadds : adds = some d) (hd : (n d).attr.type = .dir)
      (hname : findEntry (n d).entries name = none) (hi : (n i).attr.type ≠ .dir)
      (hfree : (n i).attr.type ≠ .free) :
      Edit unlinks adds makes removes n (Function.update (Function.update n i
        ⟨{ (n i).attr with nlink := (n i).attr.nlink + 1 }, (n i).entries⟩) d
        ⟨(n d).attr, insertFree (n d).entries (some (name, i))⟩)
  | remove {d i : Inum} {name : Name} {off : ℕ} (hw : unlinks) (hd : (n d).attr.type = .dir)
      (hoff : (n d).entries[off]? = some (some (name, i))) (hdot : name ≠ .dot)
      (hdotdot : name ≠ .dotdot) (hi : (n i).attr.type ≠ .dir) (hfree : (n i).attr.type ≠ .free) :
      Edit unlinks adds makes removes n (Function.update (Function.update n d
        ⟨(n d).attr, (n d).entries.set off none⟩) i
        ⟨{ (n i).attr with nlink := (n i).attr.nlink - 1 }, (n i).entries⟩)
  | removeDir {d i : Inum} {name : Name} {off : ℕ} {m m' : Inum → Node} {P : Prop}
      (hw : unlinks) (hremoves : removes = some i) (hd : (n d).attr.type = .dir)
      (hoff : (n d).entries[off]? = some (some (name, i))) (hdot : name ≠ .dot)
      (hdotdot : name ≠ .dotdot) (hi : (n i).attr.type = .dir)
      (hempty : isdirempty (n i).entries = true)
      (hm : m = Function.update n d ⟨{ (n d).attr with nlink := (n d).attr.nlink - 1 },
        (n d).entries.set off none⟩) (hm' : m' = m ∨ P ∧ Collected d m m') :
      Edit unlinks adds makes removes n (Function.update m' i
        ⟨{ (m' i).attr with nlink := (m' i).attr.nlink - 1 }, (m' i).entries⟩)

/-- An edit and then inodes are freed. -/
def Effect (unlinks : Prop) (adds makes removes : Option Inum) (n n' : Inum → Node) : Prop :=
  ∃ m, Edit unlinks adds makes removes n m ∧ Swept m n'

theorem Effect.same {adds makes removes : Option Inum} (h : n' = n) :
    Effect W adds makes removes n n' :=
  ⟨n, .same, h ▸ .refl⟩

theorem Effect.sweep {adds makes removes : Option Inum} (h : Effect W adds makes removes n m)
    (hs : Swept m n') : Effect W adds makes removes n n' := by
  obtain ⟨k, hk, hkm⟩ := h
  exact ⟨k, hk, hkm.trans hs⟩

/-- The directory in which a path names something that is not there. -/
def State.absentIn (s : State) (p : Slot) (path : CString) : Option Inum :=
  (s.parentOf p path).bind fun x =>
    if findEntry (s.node x.1).entries x.2 = none then some x.1 else none

/-- The directory that `create` and `sys_link` add an entry to. -/
def Call.adds (s : State) : Call → Option Inum
  | .open_ p path omode =>
    if omode &&& O_CREATE != 0 then
      match openPath (s.proc p).containerID path true with
      | .ok path => s.absentIn p path
      | .error _ => none
    else none
  | .mkdir p path => s.absentIn p path
  | .mknod p path _ _ => s.absentIn p path
  | .link p old new =>
    (s.target p old).bind fun i => if (s.node i).attr.type = .dir then none else s.absentIn p new
  | _ => none

/-- The directory that `sys_mkdir` makes a directory in. -/
def Call.makes (s : State) : Call → Option Inum
  | .mkdir p path => s.absentIn p path
  | _ => none

/-- The call that removes entries. -/
def Call.unlinks : Call → Bool
  | .unlink _ _ => true
  | _ => false

/-- The empty directory that `sys_unlink` removes. -/
def Call.removes (s : State) : Call → Option Inum
  | .unlink p path =>
    (s.parentOf p path).bind fun x =>
      if x.2 = .dot ∨ x.2 = .dotdot then none
      else (findEntry (s.node x.1).entries x.2).bind fun y =>
        if (s.node y.2).attr.type = .dir ∧ isdirempty (s.node y.2).entries then some y.2 else none
  | _ => none

end Xv6Container.Names
