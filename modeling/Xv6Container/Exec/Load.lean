import Xv6Container.Exec.Model
import Xv6Container.Paging.Peek

/-! The image that `exec` loads. Each segment is read over what the earlier ones have left, and the
checks before `loaduvm` make sure that its pages are there: `vaddr + memsz` does not wrap, `filesz` is
not more than `memsz`, and `allocuvm` has mapped all pages up to the largest end so far. -/

namespace Xv6Container.Exec

open Lib
open Fs (CString)
open Memory (PGSIZE KERNBASE PHYSTOP DEVSPACE UINT NPTENTRIES V2P PGROUNDUP)
open Memory.Copyout (PTE_P PTE_U flag PTE_ADDR P2V memmove)
open Paging

variable {ip : File} {pgdir n off sz newsz addr offset i a va buf len fuel left : ℕ} {k : Kernel}
  {s s' : Kmem} {L : List ℕ} {l : List UInt8} {m m' m'' q q' : ℕ → UInt8} {segs : List Proghdr}
  {ph : Proghdr}

/-! ### Reads -/

/-- What a read returns is in the file. -/
theorem readi_some (h : readi ip off n = some l) : l.length ≤ n ∧ off + l.length ≤ ip.content.length ∧
    ∀ i < l.length, bytes l i = bytes ip.content (off + i) := by
  obtain ⟨count, hcount, hl⟩ : ∃ count ≤ n, (ip.content.drop off).take count = l ∧
      off ≤ ip.content.length := by
    unfold readi at h
    have hmod := Nat.mod_le (off + n) UINT
    split_ifs at h with hbad hcut
    · exact ⟨_, by omega, Option.some.inj h, by omega⟩
    · exact ⟨n, le_refl n, Option.some.inj h, by omega⟩
  obtain ⟨rfl, hoff⟩ := hl
  rw [List.length_take, List.length_drop]
  refine ⟨by omega, by omega, fun i hi => ?_⟩
  unfold bytes
  rw [List.getD_eq_getElem?_getD, List.getD_eq_getElem?_getD, List.getElem?_take_of_lt (by omega),
    List.getElem?_drop]

/-! ### `loaduvm` -/

/-- The loop of `loaduvm`, in an address space that has all pages up to the end of the range. -/
theorem loadLoop_writes (h : Space k s pgdir L) (hu : UserPart s.mem pgdir n) (hn : n ≤ NUPAGES)
    (hi : i % PGSIZE = 0) (haddr : addr % PGSIZE = 0) (hend : addr + sz ≤ n * PGSIZE)
    (hfuel : (sz - i + (PGSIZE - 1)) / PGSIZE < fuel) (hoff : i < sz → offset + i < UINT) :
    Ends (fun ok s' => Space k s' pgdir L ∧ Frame L s.mem s'.mem ∧
        (∀ j < NPAGES, mapping s'.mem pgdir j = mapping s.mem pgdir j) ∧
        (ok = true → Written pgdir (addr + i) (bytes ip.content) (offset + i) (sz - i) s.mem s'.mem ∧
          (i < sz → offset + sz ≤ ip.content.length)))
      (fun _ => False) (loadLoop pgdir addr ip offset sz fuel i s) := by
  induction fuel generalizing i s with
  | zero => exact absurd hfuel (Nat.not_lt_zero _)
  | succ fuel ih =>
    rw [loadLoop]
    by_cases hlt : i < sz
    · obtain ⟨j, hj⟩ : ∃ j, addr + i = j * PGSIZE := ⟨(addr + i) / PGSIZE, by
        dsimp only [PGSIZE] at *
        omega⟩
      have hjn : j < n := by
        dsimp only [PGSIZE] at *
        omega
      have hju : j < NUPAGES := by omega
      have hjp : j < NPAGES := hju.trans (by decide)
      have hmod : (addr + i) % UINT = j * PGSIZE := by
        dsimp only [PGSIZE, UINT, NUPAGES] at *
        omega
      have hoff' : (offset + i) % UINT = offset + i := Nat.mod_eq_of_lt (hoff hlt)
      obtain ⟨p, hp⟩ := hu.page hjn
      obtain ⟨x, hx, hpx⟩ := Option.map_eq_some_iff.1 hp
      obtain ⟨t, ht, hword⟩ := Option.map_eq_some_iff.1 (mapping_eq_some.1 hx).1
      rw [if_pos hlt, hmod, run_bind_ok (walk_some false hjp ht)]
      dsimp only
      rw [run_load_bind, hword, hoff', hpx]
      obtain ⟨count, hcount⟩ : ∃ count, count = if sz - i < PGSIZE then sz - i else PGSIZE := ⟨_, rfl⟩
      rw [← hcount]
      have hle : count ≤ PGSIZE ∧ count ≤ sz - i ∧ (count = PGSIZE ∨ count = sz - i) := by
        split_ifs at hcount <;> omega
      cases hread : readi ip (offset + i) count with
      | none => exact ends_ok.2 ⟨h, .refl _ _, fun _ _ => rfl, nofun⟩
      | some l =>
        obtain ⟨hlen, hfile, hbytes⟩ := readi_some hread
        have hfit : 0 + l.length ≤ PGSIZE := by omega
        obtain ⟨hspace, hframe⟩ : Space k { s with mem := memmove s.mem p (bytes l) 0 l.length } pgdir L ∧
            Frame L s.mem (memmove s.mem p (bytes l) 0 l.length) := h.write hju hp hfit
        have hwritten : Written pgdir (addr + i) (bytes ip.content) (offset + i) l.length s.mem
            (memmove s.mem p (bytes l) 0 l.length) := by
          have hpage : Written pgdir (j * PGSIZE + 0) (bytes l) 0 l.length s.mem
              (memmove s.mem (p + 0) (bytes l) 0 l.length) := h.owns.write hju hp hfit
          rw [Nat.add_zero, Nat.add_zero] at hpage
          rw [hj]
          exact hpage.congr fun b hb => by rw [Nat.zero_add, hbytes b hb]
        dsimp only
        rw [run_modify_bind]
        by_cases hshort : l.length = count
        · have hwhole : ¬ l.length ≠ count := not_not.2 hshort
          rw [if_neg hwhole]
          have hnext : (i + PGSIZE) % UINT = i + PGSIZE := by
            dsimp only [PGSIZE, UINT, NUPAGES] at *
            omega
          have hleft : (sz - (i + PGSIZE) + (PGSIZE - 1)) / PGSIZE < fuel := by
            dsimp only [PGSIZE] at *
            omega
          have hnextoff : i + PGSIZE < sz → offset + (i + PGSIZE) < UINT := by
            intro hmore
            have hfull : count = PGSIZE := by
              obtain hfull | hrest := hle.2.2
              · exact hfull
              · have := hle.1
                omega
            have hbound : offset + i + PGSIZE ≤ ip.content.length := by
              rw [← hfull, ← hshort]
              exact hfile
            exact (Nat.add_assoc offset i PGSIZE ▸ hbound).trans_lt ip.length_lt
          rw [hnext]
          refine (ih hspace (hu.of_mapping hn hwritten.mapping) ((Nat.add_mod_right i PGSIZE).trans hi)
            hleft hnextoff).post fun ok s' hr => ?_
          obtain ⟨hspace', hframe', hmap', hok⟩ := hr
          refine ⟨hspace', hframe.trans hframe', fun j hj => (hmap' j hj).trans (hwritten.mapping j hj),
            fun htrue => ?_⟩
          obtain ⟨hrest, hinside⟩ := hok htrue
          by_cases hmore : i + PGSIZE < sz
          · have hfull : l.length = PGSIZE := by omega
            have hsplit : sz - i = l.length + (sz - (i + PGSIZE)) := by omega
            rw [← Nat.add_assoc, ← Nat.add_assoc, ← hfull] at hrest
            rw [hsplit, ← hfull]
            exact ⟨hwritten.append hrest, fun _ => hinside hmore⟩
          · have hall : sz - i = l.length := by omega
            rw [Nat.sub_eq_zero_of_le (Nat.not_lt.1 hmore)] at hrest
            rw [hall]
            exact ⟨hwritten.stay hrest, fun _ => by omega⟩
        · rw [if_pos hshort]
          exact ends_ok.2 ⟨hspace, hframe, hwritten.mapping, nofun⟩
    · rw [if_neg hlt]
      refine ends_ok.2 ⟨h, .refl _ _, fun _ _ => rfl, fun _ => ⟨?_, fun hlt' => absurd hlt' hlt⟩⟩
      rw [Nat.sub_eq_zero_of_le (Nat.not_lt.1 hlt)]
      exact .nil _ _ _ _ _

/-! ### The segments -/

/-- The program headers to load. -/
def segmentsFrom (ip : File) : ℕ → ℕ → List Proghdr
  | 0, _ => []
  | left + 1, off =>
    match proghdr ip off with
    | none => []
    | some ph =>
      let rest := segmentsFrom ip left ((off + 32) % UINT)
      if ph.type = ELF_PROG_LOAD then ph :: rest else rest

def segments (ip : File) : List Proghdr :=
  match elfhdr ip with
  | none => []
  | some elf => segmentsFrom ip elf.phnum elf.phoff

/-- The byte at `a` of an image: that of the last segment that covers `a` within its `filesz`, or 0. -/
def imageByte (ip : File) (segs : List Proghdr) (a : ℕ) : UInt8 :=
  segs.foldl (fun b ph =>
    if ph.vaddr ≤ a ∧ a < ph.vaddr + ph.filesz then bytes ip.content (ph.off + (a - ph.vaddr)) else b) 0

/-- The end of the segments. -/
def imageEnd (segs : List Proghdr) : ℕ := segs.foldl (fun sz ph => max sz (ph.vaddr + ph.memsz)) 0

theorem imageByte_append (segs : List Proghdr) (ph : Proghdr) : imageByte ip (segs ++ [ph]) a =
    if ph.vaddr ≤ a ∧ a < ph.vaddr + ph.filesz then bytes ip.content (ph.off + (a - ph.vaddr))
    else imageByte ip segs a := by
  rw [imageByte, List.foldl_append]
  rfl

theorem imageEnd_append (segs : List Proghdr) (ph : Proghdr) :
    imageEnd (segs ++ [ph]) = max (imageEnd segs) (ph.vaddr + ph.memsz) := by
  rw [imageEnd, List.foldl_append]
  rfl

/-- Behind all segments there are zeros. -/
theorem imageByte_eq_zero (h : ∀ ph ∈ segs, ph.vaddr + ph.filesz ≤ a) : imageByte ip segs a = 0 := by
  induction segs using List.reverseRecOn with
  | nil => rfl
  | append_singleton segs ph ih =>
    have hph := h ph (by simp)
    rw [imageByte_append, if_neg (by omega)]
    exact ih fun ph' hph' => h ph' (List.mem_append_left _ hph')

theorem proghdr_lt (h : proghdr ip off = some ph) :
    ph.off < UINT ∧ ph.vaddr < UINT ∧ ph.filesz < UINT ∧ ph.memsz < UINT := by
  obtain ⟨m, -, rfl⟩ := Option.map_eq_some_iff.1 h
  exact ⟨word_lt m 4, word_lt m 8, word_lt m 16, word_lt m 20⟩

/-- The segments `segs` have been loaded, and the image has the size `sz`. -/
structure Loaded (k : Kernel) (ip : File) (pgdir : ℕ) (L : List ℕ) (segs : List Proghdr) (sz : ℕ)
    (s : Kmem) : Prop where
  space : Space k s pgdir L
  part : UserPart s.mem pgdir (sizePages sz)
  size : sz = imageEnd segs
  size_lt : sz < KERNBASE
  covers : ∀ ph ∈ segs, ph.vaddr + ph.filesz ≤ sz
  inFile : ∀ ph ∈ segs, 0 < ph.filesz → ph.off + ph.filesz ≤ ip.content.length
  peek : ∀ a < sizePages sz * PGSIZE, peek s.mem pgdir a = some (imageByte ip segs a)

theorem mul_sizePages (sz : ℕ) (h : sz ≤ KERNBASE) :
    sz ≤ sizePages sz * PGSIZE ∧ sizePages sz * PGSIZE ≤ KERNBASE := by
  unfold sizePages
  dsimp only [PGSIZE, KERNBASE] at *
  omega

namespace Loaded

/-- `allocuvm` has grown the image to `sz'` for one more segment. -/
structure Grown (k : Kernel) (ip : File) (pgdir : ℕ) (L : List ℕ) (segs : List Proghdr) (sz' : ℕ)
    (s : Kmem) : Prop where
  space : Space k s pgdir L
  part : UserPart s.mem pgdir (sizePages sz')
  size_lt : sz' < KERNBASE
  peek : ∀ a < sizePages sz' * PGSIZE, Paging.peek s.mem pgdir a = some (imageByte ip segs a)

theorem grow (h : Loaded k ip pgdir L segs sz s) (newsz : ℕ) :
    Ends (fun r s' => Space k s' pgdir L ∧ Frame L s.mem s'.mem ∧
        (r ≠ 0 → r = max sz newsz ∧ Grown k ip pgdir L segs r s'))
      (fun _ => False) (allocuvm k pgdir sz newsz s) := by
  refine (h.space.allocuvm h.part newsz).post fun r s' hr => ?_
  obtain ⟨hspace, hframe, hok⟩ := hr
  refine ⟨hspace, hframe, fun hne => ?_⟩
  obtain ⟨hnew, hmax, hpart, hpeek⟩ := hok hne
  have hlt : r < KERNBASE := by
    have := h.size_lt
    omega
  refine ⟨hmax, hspace, hpart, hlt, fun a ha => ?_⟩
  rw [hpeek a (ha.trans_le (mul_sizePages r hlt.le).2)]
  by_cases hold : a < sizePages sz * PGSIZE
  · rw [if_neg (by omega), h.peek a hold]
  · have hbehind := (mul_sizePages sz h.size_lt.le).1
    rw [if_pos ⟨by omega, ha⟩, imageByte_eq_zero fun ph hph => (h.covers ph hph).trans (by omega)]

/-- The segment is read into the image. -/
theorem read (h : Loaded k ip pgdir L segs sz s) (hg : Grown k ip pgdir L segs newsz s')
    (hmax : newsz = max sz (ph.vaddr + ph.memsz)) (hfits : ph.filesz ≤ ph.memsz)
    (hoff : ph.off < UINT) (halign : ph.vaddr % PGSIZE = 0) :
    Ends (fun ok t => Space k t pgdir L ∧ Frame L s'.mem t.mem ∧
        (ok = true → Loaded k ip pgdir L (segs ++ [ph]) newsz t))
      (fun _ => False) (loaduvm pgdir ph.vaddr ip ph.off ph.filesz s') := by
  obtain ⟨hle, hkern⟩ := mul_sizePages newsz hg.size_lt.le
  have hend : ph.vaddr + ph.filesz ≤ newsz := by omega
  have hpages := sizePages_le hg.size_lt.le
  have hfuel : (ph.filesz - 0 + (PGSIZE - 1)) / PGSIZE < UINT / PGSIZE + 1 := by
    have hlt := hg.size_lt
    dsimp only [PGSIZE, UINT, KERNBASE] at *
    omega
  have hnot : ¬ ph.vaddr % PGSIZE ≠ 0 := not_not.2 halign
  rw [loaduvm, if_neg hnot]
  refine (loadLoop_writes hg.space hg.part hpages (Nat.zero_mod _) halign (hend.trans hle) hfuel
    fun _ => hoff).post fun ok t hr => ?_
  obtain ⟨hspace, hframe, hmap, hok⟩ := hr
  refine ⟨hspace, hframe, fun htrue => ?_⟩
  obtain ⟨hwritten, hinside⟩ := hok htrue
  rw [Nat.add_zero, Nat.add_zero, Nat.sub_zero] at hwritten
  constructor
  case space => exact hspace
  case part => exact hg.part.of_mapping hpages hmap
  case size => rw [imageEnd_append, hmax, ← h.size]
  case size_lt => exact hg.size_lt
  case covers =>
    intro ph' hph'
    obtain hph' | hph' := List.mem_append.1 hph'
    · exact (h.covers ph' hph').trans (by omega)
    · rw [List.mem_singleton.1 hph']
      exact hend
  case inFile =>
    intro ph' hph' hpos
    obtain hph' | hph' := List.mem_append.1 hph'
    · exact h.inFile ph' hph' hpos
    · rw [List.mem_singleton.1 hph'] at hpos ⊢
      exact hinside hpos
  case peek =>
    intro a ha
    rw [hwritten.peek a (ha.trans_le hkern), imageByte_append, hg.peek a ha]
    split_ifs <;> rfl

end Loaded

/-- The loop over the program headers. -/
theorem loadSegments_loads (h : Loaded k ip pgdir L segs sz s) :
    Ends (fun r s' => Space k s' pgdir L ∧ Frame L s.mem s'.mem ∧ ∀ sz', r = some sz' →
        Loaded k ip pgdir L (segs ++ segmentsFrom ip left off) sz' s')
      (fun _ => False) (loadSegments k pgdir ip left off sz s) := by
  induction left generalizing off sz segs s with
  | zero =>
    refine ends_ok.2 ⟨h.space, .refl _ _, fun sz' hsz' => ?_⟩
    rw [segmentsFrom, List.append_nil, ← Option.some.inj hsz']
    exact h
  | succ left ih =>
    have hbad : ∀ {t : Kmem}, Space k t pgdir L → Frame L s.mem t.mem →
        Ends (fun r s' => Space k s' pgdir L ∧ Frame L s.mem s'.mem ∧ ∀ sz', r = some sz' →
          Loaded k ip pgdir L (segs ++ segmentsFrom ip (left + 1) off) sz' s') (fun _ => False)
          ((return none : Paging.Run (Option ℕ)) t) := fun hspace hframe =>
      ends_ok.2 ⟨hspace, hframe, nofun⟩
    rw [loadSegments]
    cases hph : proghdr ip off with
    | none => exact hbad h.space (.refl _ _)
    | some ph =>
      obtain ⟨hoff, hvaddr, hfilesz, hmemsz⟩ := proghdr_lt hph
      dsimp only
      by_cases htype : ph.type ≠ ELF_PROG_LOAD
      · rw [if_pos htype, segmentsFrom, hph]
        dsimp only
        rw [if_neg htype]
        exact ih h
      · have hseg : segmentsFrom ip (left + 1) off =
            ph :: segmentsFrom ip left ((off + 32) % UINT) := by
          rw [segmentsFrom, hph]
          dsimp only
          rw [if_pos (not_not.1 htype)]
        rw [if_neg htype]
        by_cases hmem : ph.memsz < ph.filesz
        · rw [if_pos hmem]
          exact hbad h.space (.refl _ _)
        by_cases hwrap : (ph.vaddr + ph.memsz) % UINT < ph.vaddr
        · rw [if_neg hmem, if_pos hwrap]
          exact hbad h.space (.refl _ _)
        have hsum : (ph.vaddr + ph.memsz) % UINT = ph.vaddr + ph.memsz := by
          dsimp only [UINT] at *
          omega
        rw [if_neg hmem, if_neg hwrap, hsum]
        refine (h.grow _).bind fun r s₁ hr => ?_
        obtain ⟨hspace, hframe, hok⟩ := hr
        by_cases hzero : r = 0
        · rw [if_pos hzero]
          exact hbad hspace hframe
        by_cases halign : ph.vaddr % PGSIZE ≠ 0
        · rw [if_neg hzero, if_pos halign]
          exact hbad hspace hframe
        obtain ⟨hmax, hg⟩ := hok hzero
        rw [if_neg hzero, if_neg halign]
        refine (h.read hg hmax (by omega) hoff (not_not.1 halign)).bind fun ok s₂ h₂ => ?_
        obtain ⟨hspace₂, hframe₂, hloaded⟩ := h₂
        cases ok with
        | false =>
          rw [if_neg (by decide)]
          exact hbad hspace₂ (hframe.trans hframe₂)
        | true =>
          rw [if_pos rfl, hseg, List.append_cons]
          refine (ih (hloaded rfl)).post fun r s₃ h₃ => ?_
          exact ⟨h₃.1, (hframe.trans hframe₂).trans h₃.2.1, h₃.2.2⟩

/-! ### The new image -/

/-- A new image: `n` pages of segments, the page below the stack, which the user may not reach, and the
stack. -/
structure Image (k : Kernel) (ip : File) (pgdir : ℕ) (L : List ℕ) (n : ℕ) (s : Kmem) : Prop where
  space : Space k s pgdir L
  pages : n = sizePages (imageEnd (segments ip))
  size_lt : (n + 2) * PGSIZE < KERNBASE
  low : ∀ i < n, ∃ x, mapping s.mem pgdir i = some x ∧ flag x PTE_U = true
  guard : ∃ x, mapping s.mem pgdir n = some x ∧ flag x PTE_U = false
  stack : ∃ x, mapping s.mem pgdir (n + 1) = some x ∧ flag x PTE_U = true
  absent : ∀ i, n + 2 ≤ i → i < NUPAGES → mapping s.mem pgdir i = none
  covers : ∀ ph ∈ segments ip, ph.vaddr + ph.filesz ≤ n * PGSIZE
  inFile : ∀ ph ∈ segments ip, 0 < ph.filesz → ph.off + ph.filesz ≤ ip.content.length
  peek : ∀ a < (n + 1) * PGSIZE, peek s.mem pgdir a = some (imageByte ip (segments ip) a)

/-- The size of the image of a file, with the stack. -/
def imageSize (ip : File) : ℕ := (sizePages (imageEnd (segments ip)) + 2) * PGSIZE

theorem sizePages_mul (n : ℕ) : sizePages (n * PGSIZE) = n := by
  unfold sizePages
  dsimp only [PGSIZE]
  omega

/-- The two pages of the stack. -/
theorem Loaded.stack (h : Loaded k ip pgdir L (segments ip) sz s) :
    Ends (fun r s' => Space k s' pgdir L ∧ Frame L s.mem s'.mem ∧
        (r ≠ 0 → r = (sizePages sz + 2) * PGSIZE ∧ ∃ t,
          clearpteu pgdir (sizePages sz * PGSIZE) s' = .ok () t ∧ Frame L s'.mem t.mem ∧
            Image k ip pgdir L (sizePages sz) t))
      (fun _ => False)
      (allocuvm k pgdir (PGROUNDUP sz) ((PGROUNDUP sz + 2 * PGSIZE) % UINT) s) := by
  obtain ⟨hle, hkern⟩ := mul_sizePages sz h.size_lt.le
  obtain ⟨n, hn⟩ : ∃ n, n = sizePages sz := ⟨_, rfl⟩
  have hmod : (n * PGSIZE + 2 * PGSIZE) % UINT = (n + 2) * PGSIZE := by
    dsimp only [PGSIZE, UINT, KERNBASE] at *
    omega
  have hpart := h.part
  have hpeek := h.peek
  rw [← hn] at hpart hpeek hle hkern
  have hpart' : UserPart s.mem pgdir (sizePages (n * PGSIZE)) := by rwa [sizePages_mul]
  rw [PGROUNDUP_eq h.size_lt.le, ← hn, hmod]
  refine (h.space.allocuvm hpart' _).post fun r s₁ hr => ?_
  obtain ⟨hspace, hframe, hok⟩ := hr
  refine ⟨hspace, hframe, fun hne => ?_⟩
  obtain ⟨hnew, hmax, hpart₁, hpeek₁⟩ := hok hne
  obtain rfl : r = (n + 2) * PGSIZE := by
    rw [hmax]
    exact Nat.max_eq_right (Nat.mul_le_mul_right _ (by omega))
  rw [sizePages_mul] at hpart₁ hpeek₁
  rw [sizePages_mul] at hpeek₁
  have hnu : n + 2 ≤ NUPAGES := by
    dsimp only [PGSIZE, KERNBASE, NUPAGES] at *
    omega
  have hlt : NUPAGES < NPAGES := by decide
  obtain ⟨x, hx, -⟩ := hpart₁.present n (by omega)
  obtain ⟨t, hrun, hspace₂, hframe₂, hguard, hother, hsame⟩ := hspace.clearpteu (by omega) hx
  refine ⟨rfl, t, hrun, hframe₂, hspace₂, by rw [hn, h.size], hnew, fun i hi => ?_, hguard, ?_,
    fun i h1 h2 => ?_, fun ph hph => (h.covers ph hph).trans hle, h.inFile, fun a ha => ?_⟩
  · rw [hother i (by omega) (by omega)]
    exact hpart₁.present i (by omega)
  · rw [hother (n + 1) (by omega) (by omega)]
    exact hpart₁.present (n + 1) (by omega)
  · rw [hother i (by omega) (by omega)]
    exact hpart₁.absent i h1 h2
  · have hak : a < KERNBASE := by
      dsimp only [PGSIZE] at *
      omega
    rw [hsame a hak, hpeek₁ a hak]
    by_cases hlow : a < n * PGSIZE
    · rw [if_neg (by omega), hpeek a hlow]
    · -- the page below the stack
      have htop : a < (n + 2) * PGSIZE := ha.trans_le (Nat.mul_le_mul_right _ (by omega))
      rw [if_pos ⟨Nat.not_lt.1 hlow, htop⟩, imageByte_eq_zero fun ph hph =>
        ((h.covers ph hph).trans hle).trans (Nat.not_lt.1 hlow)]

end Xv6Container.Exec
