import Xv6Container.Mkfs.Files

/-! The image that `main` writes. Its inodes hold the blocks that the bitmap marks, each once; the
size of the root directory is rounded up at the end, and covers a block too many when the entries
fill its last block. -/

namespace Xv6Container.Mkfs

open Lib Fs

variable {s t : Image} {content : Inum → List UInt8} {i : Inum} {f : HostFile} {files : List HostFile}

/-- The sizes that the image has room for, and names that the assertion lets pass. -/
structure Fits (files : List HostFile) : Prop where
  count : files.length ≤ NINODES - 2
  names : ∀ f ∈ files, slash ∉ f.name
  sizes : ∀ f ∈ files, f.content.length ≤ MAXFILE * BSIZE
  room : nmeta + cost (16 * (files.length + 2)) +
    (files.map fun f => cost f.content.length).sum ≤ FSSIZE

def root : Inum := ⟨ROOTINO, by decide⟩

/-- Block `bn` of inode `i`. -/
def blockAt (s : Image) (i : Inum) (bn : ℕ) : Option ℕ :=
  (blockPlace bn).bind fun x => refs s.disk.inode s.disk.data (i, x)

structure WellFormed (s : Image) : Prop where
  mapped : ∀ i, (s.disk.inode i).type ≠ .free → ∀ bn, bn * BSIZE < (s.disk.inode i).size →
    ∃ b, blockAt s i bn = some b ∧ DataBlock b ∧ s.disk.used b = true
  unique : ∀ x y b, refs s.disk.inode s.disk.data x = some b →
    refs s.disk.inode s.disk.data y = some b → x = y
  bitmap : ∀ b, s.disk.used b = true ↔
    b < nmeta ∨ ∃ x, refs s.disk.inode s.disk.data x = some b
  root : ∀ bn, blockAt s root bn ≠ none ↔ bn * BSIZE < (s.disk.inode root).size

/-! ### The calls of `main` -/

/-- A call that does not stop. -/
abbrev Succeeds (Q : Unit → Image → Prop) (r : EStateM.Result Stop Image Unit) : Prop :=
  Ends Q (fun _ => False) r

/-- `iappend` with room for what it takes. -/
theorem iappend_succeeds (h : Good s content) (hi : (s.disk.inode i).type ≠ .free) (p : List UInt8)
    (hlen : (content i).length + p.length ≤ MAXFILE * BSIZE)
    (hroom : s.freeblock + cost ((content i).length + p.length) ≤
      FSSIZE + cost (content i).length) :
    Succeeds (fun _ => Grown i s content p) (iappend i p s) := by
  have hmono : cost (content i).length ≤ cost ((content i).length + p.length) :=
    cost_mono (Nat.le_add_right ..)
  refine (iappend_ends h hi p).mono (fun _ _ h => h) fun e he => ?_
  rcases he with ⟨-, hfull⟩ | ⟨-, hlong⟩
  · omega
  · omega

/-- The loop that copies a file. -/
structure Copied (i : Inum) (s : Image) (content : Inum → List UInt8) (k : ℕ) (t : Image) : Prop where
  good : ∃ content', Good t content' ∧ (content' i).length = (content i).length + k ∧
    ∀ j, j ≠ i → content' j = content j
  types : ∀ j, (t.disk.inode j).type = (s.disk.inode j).type
  freeinode : t.freeinode = s.freeinode
  count : t.freeblock + cost (content i).length = s.freeblock + cost ((content i).length + k)

theorem reads_succeed {l : List (List UInt8)} (h : Good s content)
    (hi : (s.disk.inode i).type ≠ .free)
    (hlen : (content i).length + l.flatten.length ≤ MAXFILE * BSIZE)
    (hroom : s.freeblock + cost ((content i).length + l.flatten.length) ≤
      FSSIZE + cost (content i).length) :
    Succeeds (fun _ => Copied i s content l.flatten.length) (l.forM (iappend i) s) := by
  induction l generalizing s content with
  | nil => exact ends_ok.2 ⟨⟨content, h, rfl, fun _ _ => rfl⟩, fun _ => rfl, rfl, rfl⟩
  | cons p l ih =>
    rw [List.flatten_cons, List.length_append] at hlen hroom
    have hmono : cost ((content i).length + p.length) ≤
        cost ((content i).length + (p.length + l.flatten.length)) := cost_mono (by omega)
    show Succeeds _ ((iappend i p >>= fun _ => l.forM (iappend i)) s)
    refine Ends.bind (iappend_succeeds h hi p (by omega) (by omega)) ?_
    rintro - t ⟨hgood, htypes, hfreeinode, hcount⟩
    have hself : Function.update content i (content i ++ p) i = content i ++ p :=
      Function.update_self ..
    rw [List.length_append] at hcount
    have hrest := ih hgood (by rwa [htypes]) (by rw [hself, List.length_append]; omega)
      (by rw [hself, List.length_append, Nat.add_assoc]; omega)
    refine hrest.post ?_
    rintro - u ⟨⟨content', hgood', hlength, hothers⟩, htypes', hfreeinode', hcount'⟩
    rw [List.flatten_cons, List.length_append]
    refine ⟨⟨content', hgood', ?_, fun j hj => ?_⟩, fun j => ?_, ?_, ?_⟩
    · rw [hlength]
      rw [hself, List.length_append]
      omega
    · rw [hothers j hj, Function.update_of_ne hj]
    · rw [htypes', htypes]
    · rw [hfreeinode', hfreeinode]
    · rw [hself, List.length_append] at hcount'
      rw [Nat.add_assoc] at hcount'
      omega

/-- After the directory has `n` bytes, `k` inodes have been made, and the files take `m` blocks. -/
structure Stage (k n m : ℕ) (s : Image) : Prop where
  good : ∃ content, Good s content ∧ (content root).length = n
  root : (s.disk.inode root).type = .dir
  freeinode : s.freeinode = k
  freeblock : s.freeblock = nmeta + cost n + m

theorem addFile_succeeds {k n m : ℕ} (h : Stage k n m s) (hk : 1 < k) (hlt : k < NINODES)
    (hname : slash ∉ f.name) (hsize : f.content.length ≤ MAXFILE * BSIZE)
    (hdir : n + 16 ≤ MAXFILE * BSIZE)
    (hroom : nmeta + cost (n + 16) + (m + cost f.content.length) ≤ FSSIZE) :
    Succeeds (fun _ => Stage (k + 1) (n + 16) (m + cost f.content.length)) (addFile root f s) := by
  obtain ⟨content, hgood, hlength⟩ := h.good
  have hfreeinode := h.freeinode
  have hfreeblock := h.freeblock
  have hzero : cost 0 = 0 := rfl
  unfold addFile
  rw [if_neg hname]
  refine Ends.bind ((ialloc_ends hgood .file nofun nofun).mono (fun _ _ h => h)
    fun e he => by omega) ?_
  rintro i t ⟨hmade, hinum, htype, hothers, hfree₁, hblock₁⟩
  have hroot : root ≠ i := by
    intro heq
    have : i.val = 1 := congrArg Fin.val heq.symm
    omega
  have hempty : content i = [] := hgood.empty i (by omega)
  have hrootType : (t.disk.inode root).type = .dir := by
    rw [hothers root hroot]
    exact h.root
  have hmono : cost n ≤ cost (n + 16) := cost_mono (Nat.le_add_right ..)
  -- the entry in the root directory
  have hentry : (dirent i f.imageName).length = 16 := length_dirent ..
  refine Ends.bind (iappend_succeeds hmade (by rw [hrootType]; nofun) (dirent i f.imageName)
    (by rw [hlength, hentry]; omega) (by rw [hlength, hentry]; omega)) ?_
  rintro - u ⟨hgrown, htypes, hfree₂, hcount⟩
  rw [List.length_append, hlength, hentry] at hcount
  have hself : Function.update content root (content root ++ dirent i f.imageName) i = [] := by
    rw [Function.update_of_ne hroot.symm, hempty]
  -- the bytes of the file
  have hsum : ([] : List UInt8).length + f.reads.flatten.length = f.content.length :=
    Nat.zero_add _
  refine (reads_succeed hgrown (i := i) (by rw [htypes, htype]; nofun)
    (by rw [hself, hsum]; exact hsize) (by rw [hself, hsum, List.length_nil]; omega)).post ?_
  rintro - v ⟨⟨content', hgood', -, hothers'⟩, htypes', hfree₃, hcount'⟩
  rw [hself, hsum, List.length_nil] at hcount'
  refine ⟨⟨content', hgood', ?_⟩, ?_, ?_, ?_⟩
  · rw [hothers' root hroot, Function.update_self, List.length_append, hlength, hentry]
  · rw [htypes', htypes, hrootType]
  · omega
  · omega

/-- The loop over the files. -/
theorem files_succeed {k n m : ℕ} (h : Stage k n m s) (hk : 1 < k)
    (hcount : k + files.length ≤ NINODES) (hnames : ∀ f ∈ files, slash ∉ f.name)
    (hsizes : ∀ f ∈ files, f.content.length ≤ MAXFILE * BSIZE)
    (hdir : n + 16 * files.length ≤ MAXFILE * BSIZE)
    (hroom : nmeta + cost (n + 16 * files.length) +
      (m + (files.map fun f => cost f.content.length).sum) ≤ FSSIZE) :
    Succeeds (fun _ => Stage (k + files.length) (n + 16 * files.length)
      (m + (files.map fun f => cost f.content.length).sum)) (files.forM (addFile root) s) := by
  induction files generalizing s k n m with
  | nil => exact ends_ok.2 h
  | cons f files ih =>
    rw [List.length_cons] at hcount hdir hroom
    rw [List.map_cons, List.sum_cons] at hroom
    have hmono : cost (n + 16) ≤ cost (n + 16 * (files.length + 1)) := cost_mono (by omega)
    show Succeeds _ ((addFile root f >>= fun _ => files.forM (addFile root)) s)
    refine Ends.bind (addFile_succeeds h hk (by omega) (hnames f (by simp)) (hsizes f (by simp))
      (by omega) (by omega)) ?_
    rintro - t ht
    have hlen : n + 16 + 16 * files.length = n + 16 * (files.length + 1) := by omega
    have hrest := ih ht (by omega) (by omega) (fun g hg => hnames g (List.mem_cons_of_mem _ hg))
      (fun g hg => hsizes g (List.mem_cons_of_mem _ hg)) (by omega) (by rw [hlen]; omega)
    rw [hlen, Nat.add_assoc k, Nat.add_comm 1, Nat.add_assoc m] at hrest
    rw [List.length_cons, List.map_cons, List.sum_cons]
    exact hrest

/-- The end of `main`: the size of the root directory is rounded up and the bitmap written. -/
def finished (s : Image) : Image :=
  { s with disk := {
      inode := Function.update s.disk.inode root
        { s.disk.inode root with size := ((s.disk.inode root).size / BSIZE + 1) * BSIZE }
      used := fun b => decide (b < s.freeblock)
      data := s.disk.data } }

theorem finish_run (h : s.freeblock ≤ FSSIZE) : finish root s = .ok ⟨⟩ (finished s) := by
  have hlt : s.freeblock < BSIZE * 8 := lt_of_le_of_lt h (by decide)
  unfold finish
  rw [run_bind_ok (rfl : rinode root s = .ok (s.disk.inode root) s), winode, run_modify_bind,
    run_get_bind, balloc, if_pos hlt]
  rfl

theorem main_succeeds (h : Fits files) : Succeeds
    (fun _ t => ∃ s, (∃ k m, Stage k (16 * (files.length + 2)) m s) ∧ t = finished s)
    (main files start) := by
  have hfiles := h.count
  have hroom := h.room
  have hmono : cost (16 + 16) ≤ cost (16 * (files.length + 2)) := cost_mono (by omega)
  have hsmall : cost 16 = 1 ∧ cost (16 + 16) = 1 ∧ cost 0 = 0 := ⟨rfl, rfl, rfl⟩
  obtain ⟨h16, h32, h0⟩ := hsmall
  have hlow : nmeta + 1 ≤ FSSIZE := by decide
  have hstart : start.freeblock = nmeta := rfl
  unfold main
  refine Ends.bind ((ialloc_ends start_good .dir nofun nofun).mono (fun _ _ h => h)
    fun e he => absurd he.2 (by decide)) ?_
  rintro i t ⟨hgood, hinum, htype, -, hfree₁, hblock₁⟩
  have hi : i = root := Fin.ext hinum
  subst hi
  have hval : root.val = ROOTINO := rfl
  rw [if_pos hval]
  refine Ends.bind (iappend_succeeds hgood (by rw [htype]; nofun) _
    (by rw [length_dirent]; decide) (by rw [length_dirent, List.length_nil, Nat.zero_add, h0]; omega)) ?_
  rintro - u ⟨hgood, htypes₂, hfree₂, hcount₂⟩
  rw [List.nil_append, List.length_nil, length_dirent] at hcount₂
  have hself : Function.update (fun _ : Inum => ([] : List UInt8)) root
      ([] ++ dirent root [dot]) root = dirent root [dot] := Function.update_self ..
  refine Ends.bind (iappend_succeeds hgood (by rw [htypes₂, htype]; nofun) _
    (by rw [hself, length_dirent, length_dirent]; decide)
    (by rw [hself, length_dirent, length_dirent]; omega)) ?_
  rintro - v ⟨hgood, htypes₃, hfree₃, hcount₃⟩
  rw [hself, List.length_append, length_dirent, length_dirent] at hcount₃
  have hstage : Stage 2 32 0 v := by
    refine ⟨⟨_, hgood, ?_⟩, ?_, ?_, ?_⟩
    · rw [Function.update_self, hself, List.length_append, length_dirent, length_dirent]
    · rw [htypes₃, htypes₂, htype]
    · rw [hfree₃, hfree₂, hfree₁]
      rfl
    · show v.freeblock = nmeta + cost (16 + 16) + 0
      omega
  have hlen : 32 + 16 * files.length = 16 * (files.length + 2) := by omega
  have hdir : 32 + 16 * files.length ≤ MAXFILE * BSIZE := by
    simp only [NINODES, MAXFILE, NDIRECT, NINDIRECT, BSIZE] at hfiles ⊢
    omega
  have hloop := files_succeed hstage (by decide)
    (by simp only [NINODES] at hfiles ⊢; omega) h.names h.sizes hdir (by rw [hlen]; omega)
  rw [hlen] at hloop
  refine Ends.bind hloop ?_
  rintro - w hw
  obtain ⟨content, hgood, -⟩ := hw.good
  rw [finish_run hgood.laid.high]
  exact ends_ok.2 ⟨w, ⟨_, _, hw⟩, rfl⟩

/-! ### The image -/

theorem blockAt_eq_some {bn b : ℕ} : blockAt s i bn = some b ↔
    ∃ x, blockPlace bn = some x ∧ refs s.disk.inode s.disk.data (i, x) = some b :=
  Option.bind_eq_some_iff

/-- A file has its blocks and no others. -/
theorem Good.blockAt (h : Good s content) (hi : (s.disk.inode i).type ≠ .free) (bn : ℕ) :
    blockAt s i bn ≠ none ↔ bn * BSIZE < (content i).length := by
  have hfile := h.files i hi
  unfold Mkfs.blockAt
  cases hx : blockPlace bn with
  | some x => exact hfile.place bn x hx
  | none =>
    have hge : MAXFILE ≤ bn := by
      by_contra hlt
      obtain ⟨x, hx'⟩ := blockPlace_of_lt (Nat.not_le.1 hlt)
      cases hx.symm.trans hx'
    have hlen := hfile.len
    simp only [Option.bind_none, ne_eq, not_true, false_iff, not_lt]
    exact hlen.trans (Nat.mul_le_mul_right BSIZE hge)

theorem finished_refs (s : Image) :
    refs (finished s).disk.inode (finished s).disk.data = refs s.disk.inode s.disk.data := by
  have h := refs_size s.disk.inode s.disk.data root (s.disk.inode root)
    (((s.disk.inode root).size / BSIZE + 1) * BSIZE)
  rwa [Function.update_eq_self] at h

theorem finished_blockAt (s : Image) (i : Inum) (bn : ℕ) :
    blockAt (finished s) i bn = blockAt s i bn := by
  rw [blockAt, finished_refs]
  rfl

theorem finished_type (s : Image) (i : Inum) :
    ((finished s).disk.inode i).type = (s.disk.inode i).type := by
  show (Function.update s.disk.inode root _ i).type = _
  by_cases hi : i = root
  · subst hi
    rw [Function.update_self]
  · rw [Function.update_of_ne hi]

/-- The size of the root directory is right unless its entries fill the last block. -/
theorem rounded {n bn : ℕ} (hn : ¬BSIZE ∣ n) :
    bn * BSIZE < n ↔ bn * BSIZE < (n / BSIZE + 1) * BSIZE := by
  simp only [BSIZE] at hn ⊢
  omega

theorem wellFormed_finished {k m n : ℕ} (h : Stage k n m s) :
    WellFormed (finished s) ↔ ¬BSIZE ∣ n := by
  obtain ⟨content, hgood, hlength⟩ := h.good
  have hroot : (s.disk.inode root).type ≠ .free := by
    rw [h.root]
    nofun
  have hsize : ((finished s).disk.inode root).size = (n / BSIZE + 1) * BSIZE := by
    show (Function.update s.disk.inode root { s.disk.inode root with
      size := ((s.disk.inode root).size / BSIZE + 1) * BSIZE } root).size = _
    rw [Function.update_self]
    dsimp only
    rw [hgood.size root hroot, hlength]
  constructor
  · intro hw hdvd
    have hblock := hw.root (n / BSIZE)
    rw [finished_blockAt, hgood.blockAt hroot, hlength, hsize] at hblock
    simp only [BSIZE] at hdvd hblock
    omega
  · intro hn
    have hused {b : ℕ} {x : Inum × Place} (hb : refs s.disk.inode s.disk.data x = some b) :
        DataBlock b ∧ (finished s).disk.used b = true :=
      ⟨(hgood.laid.lt hb).1, decide_eq_true (hgood.laid.lt hb).2⟩
    refine ⟨fun i hi bn hbn => ?_, fun x y b hx hy => ?_, fun b => ?_, fun bn => ?_⟩
    · rw [finished_type] at hi
      have hne : blockAt s i bn ≠ none := by
        rw [hgood.blockAt hi]
        by_cases hir : i = root
        · subst hir
          rw [hlength, rounded hn, ← hsize]
          exact hbn
        · have hother : (finished s).disk.inode i = s.disk.inode i := Function.update_of_ne hir ..
          rw [hother, hgood.size i hi] at hbn
          exact hbn
      obtain ⟨b, hb⟩ := Option.ne_none_iff_exists'.1 hne
      obtain ⟨x, -, hx⟩ := blockAt_eq_some.1 hb
      exact ⟨b, (finished_blockAt s i bn).trans hb, hused hx⟩
    · rw [finished_refs] at hx hy
      exact hgood.laid.owned.exact.unique x y b hx hy
    · rw [finished_refs]
      constructor
      · intro hb
        rcases Nat.lt_or_ge b nmeta with hlow | hlow
        · exact .inl hlow
        · have hlt : b < s.freeblock := of_decide_eq_true hb
          have hhigh := hgood.laid.high
          exact .inr (hgood.laid.owned.exact.owned b ⟨hlow, by omega⟩ hb)
      · rintro (hlow | ⟨x, hx⟩)
        · exact hgood.laid.owned.metaUsed b hlow
        · exact (hused hx).2
    · rw [finished_blockAt, hgood.blockAt hroot, hlength, hsize]
      exact rounded hn

/-- `mkfs` writes a well-formed image exactly if the entries of the root directory do not fill its
last block. -/
theorem mkfs_wellFormed_iff (h : Fits files) : ∃ s, main files start = .ok ⟨⟩ s ∧
    (WellFormed s ↔ ¬32 ∣ files.length + 2) := by
  cases hr : main files start with
  | ok r s =>
    obtain ⟨t, ⟨k, m, ht⟩, rfl⟩ := (main_succeeds h).1 r s hr
    refine ⟨_, rfl, ?_⟩
    rw [wellFormed_finished ht]
    simp only [BSIZE]
    omega
  | error e s => exact absurd ((main_succeeds h).2 e s hr) id

/-- An image without files is well formed. -/
theorem mkfs_wellFormed_empty : ∃ s, main [] start = .ok ⟨⟩ s ∧ WellFormed s := by
  have hfits : Fits [] := ⟨by decide, nofun, nofun, by decide⟩
  obtain ⟨s, hs, hw⟩ := mkfs_wellFormed_iff hfits
  exact ⟨s, hs, hw.2 (by decide)⟩

/-- With 30 empty files the root directory has 32 entries, and its size names a second block. -/
theorem mkfs_root_too_long : ¬∀ files, Fits files →
    ∃ s, main files start = .ok ⟨⟩ s ∧ WellFormed s := by
  intro h
  have hfits : Fits (List.replicate 30 ⟨[97], []⟩) := by
    refine ⟨by decide, fun f hf => ?_, fun f hf => ?_, by decide⟩
    · rw [List.eq_of_mem_replicate hf]
      decide
    · rw [List.eq_of_mem_replicate hf]
      decide
  obtain ⟨s, hs, hw⟩ := h _ hfits
  obtain ⟨t, ⟨k, m, ht⟩, rfl⟩ := (main_succeeds hfits).1 _ s hs
  exact (wellFormed_finished ht).1 hw (by decide)

end Xv6Container.Mkfs
