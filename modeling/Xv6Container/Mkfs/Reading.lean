import Xv6Container.Lib.Trace
import Xv6Container.Mkfs.Files

/-! The kernel reads what `mkfs` has appended. -/

namespace Xv6Container.Mkfs

open Lib Fs

variable {k : FsState} {e : Entry} {i : Inum} {x : Place} {b : ℕ} {l : List UInt8}

/-! ### `readi` of a file that has all its blocks -/

theorem addrBlock_run {a : AddrIdx} (h : (k.cache e).copy.addrs a ≠ 0) :
    addrBlock e a k = .ok ((k.cache e).copy.addrs a) k := by
  simp only [addrBlock, run_get_bind]
  rw [if_neg h]
  rfl

theorem bmap_run {bn : ℕ} (hx : blockPlace bn = some x)
    (hb : (k.cache e).copy.ref k.disk.data x = some b)
    (hind : (k.cache e).copy.addrs indirect ≠ 0 → DataBlock ((k.cache e).copy.addrs indirect)) :
    bmap e bn k = .ok b k := by
  unfold bmap
  unfold blockPlace at hx
  split_ifs at hx with h1 h2
  · cases hx
    obtain ⟨rfl, hne⟩ := stored_eq_some.1 hb
    rw [dif_pos h1]
    exact addrBlock_run hne
  · cases hx
    rw [Dinode.ref] at hb
    split_ifs at hb with h0
    obtain ⟨rfl, hne⟩ := stored_eq_some.1 hb
    rw [dif_neg h1, dif_pos h2, run_bind_ok (addrBlock_run h0), run_bind_ok (bread_run (hind h0)),
      if_neg hne]
    rfl

/-- The copy of the inode in entry `e` is that of file `l`. -/
structure Loaded (k : FsState) (e : Entry) (l : List UInt8) : Prop where
  type : (k.cache e).copy.type ≠ .dev
  size : (k.cache e).copy.size = l.length
  blocks : ∀ o, o < l.length → ∃ x b, blockPlace (o / BSIZE) = some x ∧
    (k.cache e).copy.ref k.disk.data x = some b ∧ DataBlock b ∧
      ∀ o' (ho' : o' < l.length), o' / BSIZE = o / BSIZE →
        k.disk.data b ⟨o' % BSIZE, Nat.mod_lt _ (by decide)⟩ = l[o']
  ind : (k.cache e).copy.addrs indirect ≠ 0 → DataBlock ((k.cache e).copy.addrs indirect)

/-- A pass of the loop in `readi` copies the bytes of the file. -/
theorem Loaded.pass (h : Loaded k e l) {off m : ℕ} (hm : off + m ≤ l.length)
    (hfit : m ≤ BSIZE - off % BSIZE) (hpos : 0 < m) : ∃ b, bmap e (off / BSIZE) k = .ok b k ∧
      bread b k = .ok (k.disk.data b) k ∧
      copyOut (k.disk.data b) (off % BSIZE) m = (l.drop off).take m := by
  obtain ⟨x, b, hx, hb, hdata, hbytes⟩ := h.blocks off (by omega)
  refine ⟨b, bmap_run hx hb h.ind, bread_run hdata, ?_⟩
  apply List.ext_getElem
  · rw [copyOut, List.length_map, List.length_range, List.length_take, List.length_drop]
    omega
  · intro o h1 h2
    rw [copyOut, List.length_map, List.length_range] at h1
    have hlt : off % BSIZE + o < BSIZE := by omega
    have hdiv : (off + o) / BSIZE = off / BSIZE := by
      simp only [BSIZE] at hlt ⊢
      omega
    have hmod : (off + o) % BSIZE = off % BSIZE + o := by
      simp only [BSIZE] at hlt ⊢
      omega
    simp only [copyOut, List.getElem_map, List.getElem_range, List.getElem_take, List.getElem_drop]
    rw [dif_pos hlt, ← hbytes (off + o) (by omega) hdiv]
    congr 1
    exact Fin.ext hmod.symm

theorem Loaded.readLoop (h : Loaded k e l) {n fuel tot off : ℕ} (dst : List UInt8)
    (hfuel : n - tot ≤ fuel) (hlen : off + (n - tot) ≤ l.length) :
    readLoop e n fuel tot off dst k = .ok (dst ++ (l.drop off).take (n - tot)) k := by
  induction fuel generalizing tot off dst with
  | zero =>
    rw [Nat.le_zero.1 hfuel, List.take_zero, List.append_nil]
    rfl
  | succ fuel ih =>
    rw [Fs.readLoop]
    split_ifs with htot
    · set m := min (n - tot) (BSIZE - off % BSIZE) with hm
      have hmpos : 0 < m := by
        simp only [BSIZE] at hm
        omega
      obtain ⟨b, hmap, hread, hcopy⟩ := h.pass (show off + m ≤ l.length by omega)
        (by omega) hmpos
      have hrest (dst : List UInt8) : Fs.readLoop e n fuel (tot + m) (off + m) dst k =
          .ok (dst ++ (l.drop (off + m)).take (n - (tot + m))) k := ih dst (by omega) (by omega)
      rw [run_bind_ok hmap, run_bind_ok hread, hcopy, hrest, List.append_assoc]
      congr 2
      rw [show n - tot = m + (n - (tot + m)) by omega, List.take_add, List.drop_drop]
    · rw [show n - tot = 0 by omega, List.take_zero, List.append_nil]
      rfl

/-- What `readi` returns for a file `l`: -1 behind its end, or when the offset overflows. -/
def fileRead (l : List UInt8) (off n : UInt32) : Option (List UInt8) :=
  if l.length < off.toNat ∨ 2 ^ 32 ≤ off.toNat + n.toNat then none
  else some ((l.drop off.toNat).take n.toNat)

theorem Loaded.readi (h : Loaded k e l) (off n : UInt32) (input : List UInt8) :
    readi e off n input k = .ok (fileRead l off n) k := by
  simp only [Fs.readi, run_get_bind]
  rw [if_neg h.type]
  simp only [h.size, add_lt_self_iff, fileRead]
  split_ifs with hbad hlong
  · rfl
  · rw [run_bind_ok (h.readLoop [] (Nat.sub_le _ _) (by omega))]
    show EStateM.Result.ok _ _ = _
    rw [Nat.sub_zero, List.nil_append, List.take_of_length_le (i := n.toNat)]
    · rw [List.take_of_length_le]
      rw [List.length_drop]
    · rw [List.length_drop]
      omega
  · rw [run_bind_ok (h.readLoop [] (Nat.sub_le _ _) (by omega))]
    rfl

/-! ### Runs of `ialloc` and `iappend` -/

/-- The calls of `main`. -/
inductive Call where
  | ialloc (type : FileType)
  | iappend (inum : Inum) (p : List UInt8)

def perform : Call → Run Unit
  | .ialloc type => discard (ialloc type)
  | .iappend inum p => iappend inum p

def step (s : Image) (c : Call) : Except Stop Image :=
  match perform c s with
  | .ok _ t => .ok t
  | .error e _ => .error e

/-- Directories and files are made, and bytes are appended to an inode that has been made. -/
def Allowed (s : Image) : Call → Prop
  | .ialloc type => type = .dir ∨ type = .file
  | .iappend inum _ => (s.disk.inode inum).type ≠ .free

instance (s : Image) (c : Call) : Decidable (Allowed s c) :=
  match c with
  | .ialloc type => inferInstanceAs (Decidable (type = .dir ∨ type = .file))
  | .iappend inum _ => inferInstanceAs (Decidable ((s.disk.inode inum).type ≠ .free))

def writes (_ : Image) : Call → Option (Inum × List UInt8)
  | .ialloc _ => none
  | .iappend inum p => some (inum, p)

/-- All that has been appended to inode `i`. -/
def appended (log : List (Inum × List UInt8)) (i : Inum) : List UInt8 :=
  log.flatMap fun w => if w.1 = i then w.2 else []

theorem appended_concat (log : List (Inum × List UInt8)) (i : Inum) (p : List UInt8) :
    appended (log ++ [(i, p)]) = Function.update (appended log) i (appended log i ++ p) := by
  funext j
  rw [appended, List.flatMap_append, List.flatMap_singleton]
  by_cases hj : j = i
  · subst hj
    rw [Function.update_self, if_pos rfl]
    rfl
  · rw [Function.update_of_ne hj, if_neg (Ne.symm hj), List.append_nil]
    rfl

theorem Good.step {log : List (Inum × List UInt8)} {s t : Image} {c : Call}
    (h : Good s (appended log)) (hc : Allowed s c) (ht : step s c = .ok t) :
    Good t (appended (log ++ (writes s c).toList)) := by
  unfold Mkfs.step at ht
  cases hr : perform c s with
  | error e u =>
    rw [hr] at ht
    cases ht
  | ok r u =>
    rw [hr] at ht
    cases ht
    cases c with
    | ialloc type =>
      have hends : Ends (fun _ t => ∃ i, Made type s (appended log) i t) _ _ :=
        (ialloc_ends h type (by rcases hc with rfl | rfl <;> decide)
          (by rcases hc with rfl | rfl <;> decide)).discard
      obtain ⟨i, hmade⟩ := hends.1 _ _ hr
      show Good t (appended (log ++ []))
      rw [List.append_nil]
      exact hmade.good
    | iappend inum p =>
      have hgrown : Grown inum s (appended log) p t := (iappend_ends h hc p).1 _ _ hr
      show Good t (appended (log ++ [(inum, p)]))
      rw [appended_concat]
      exact hgrown.good

/-- An inode of the image, as `ilock` reads it. -/
theorem Good.loaded {s : Image} {content : Inum → List UInt8} (h : Good s content)
    (hi : (s.disk.inode i).type ≠ .free) (hdata : k.disk.data = s.disk.data)
    (hcopy : (k.cache e).copy = s.disk.inode i) : Loaded k e (content i) := by
  have hown (y : Place) : refs s.disk.inode s.disk.data (i, y) =
      (k.cache e).copy.ref k.disk.data y := by
    rw [refs_of_ne_free hi, hcopy, hdata]
  have hfile := h.files i hi
  refine ⟨?_, ?_, fun o ho => ?_, fun h0 => ?_⟩
  · rw [hcopy]
    exact (h.alloc i hi).2
  · rw [hcopy]
    exact h.size i hi
  · have hlen := hfile.len
    have hlt : o / BSIZE < MAXFILE := by
      simp only [MAXFILE, BSIZE] at hlen ⊢
      omega
    obtain ⟨x, hx⟩ := blockPlace_of_lt hlt
    have hne : refs s.disk.inode s.disk.data (i, x) ≠ none := by
      rw [hfile.place _ x hx]
      simp only [BSIZE]
      omega
    obtain ⟨b, hb⟩ := Option.ne_none_iff_exists'.1 hne
    refine ⟨x, b, hx, (hown x).symm.trans hb, (h.laid.lt hb).1, fun o' ho' heq => ?_⟩
    rw [hdata]
    exact hfile.bytes o' ho' x b (heq ▸ hx) hb
  · refine (h.laid.lt (y := (i, .addr indirect)) ?_).1
    rw [hown, Dinode.ref, stored_of_ne h0]

/-- A kernel on the image: entry `e` is a reference to inode `i` that has not been read yet. -/
structure Mounted (k : FsState) (s : Image) (e : Entry) (i : Inum) : Prop where
  inode : k.disk.inode = s.disk.inode
  data : k.disk.data = s.disk.data
  entry : (k.cache e).inum = i ∧ (k.cache e).ref ≥ 1 ∧ (k.cache e).valid = false

/-- `readi` returns the bytes that have been appended to the inode, whatever the order of the calls
and the sizes of what they append. -/
theorem readi_appended {log : List (Inum × List UInt8)} {s : Image}
    (h : Trace step Allowed writes start log s) (hi : (s.disk.inode i).type ≠ .free)
    (hk : Mounted k s e i) (off n : UInt32) (input : List UInt8) :
    ∃ k', (do ilock e; readi e off n input) k = .ok (fileRead (appended log i) off n) k' ∧
      k'.disk = k.disk := by
  have hgood : Good s (appended log) := by
    refine h.invariant (I := fun log s => Good s (appended log)) start_good ?_
    exact fun log s c t h hc ht => h.step hc ht
  obtain ⟨hinum, href, hvalid⟩ := hk.entry
  let k' := k.setInode e { k.cache e with copy := s.disk.inode i, valid := true }
  have hlock : ilock e k = .ok ⟨⟩ k' := by
    have hinode : k.disk.inode (k.cache e).inum = s.disk.inode i := by rw [hinum, hk.inode]
    simp only [ilock, run_get_bind]
    rw [if_neg (not_lt.2 href), if_pos hvalid]
    simp only [run_get_bind, setInode, run_modify_bind, hinode]
    rw [if_neg hi]
    rfl
  have hloaded : Loaded k' e (appended log i) := by
    refine hgood.loaded hi hk.data ?_
    rw [FsState.setInode_self]
  exact ⟨k', by rw [run_bind_ok hlock, hloaded.readi], rfl⟩

/-- Appends to two inodes in turn. -/
theorem readi_appended_two : ∃ (s : Image) (k k' : FsState), k.disk = s.disk ∧
    (do ilock 0; readi 0 1 3 []) k = .ok (some [2, 3, 4]) k' := by
  have hstart : Trace step Allowed writes start [] start := .nil
  obtain ⟨log, s, hlog, htest⟩ := hstart.of_watch
    (fun log s => decide (log = [(2, [1, 2]), (1, [9]), (2, [3, 4, 5])] ∧
      (s.disk.inode 2).type = .file))
    [.ialloc .dir, .ialloc .file, .iappend 2 [1, 2], .iappend 1 [9], .iappend 2 [3, 4, 5]]
    (by decide +kernel)
  obtain ⟨rfl, htype⟩ := of_decide_eq_true htest
  let k : FsState := ⟨s.disk, fun _ => ⟨2, 1, false, s.disk.inode 0⟩⟩
  have hk : Mounted k s 0 2 := ⟨rfl, rfl, rfl, le_refl _, rfl⟩
  obtain ⟨k', hread, -⟩ := readi_appended hlog (by rw [htype]; nofun) hk 1 3 []
  exact ⟨s, k, k', rfl, hread⟩

end Xv6Container.Mkfs
