import Mathlib.Data.List.GetD
import Xv6Container.Exec.Load
import Xv6Container.Paging.Copyout

/-! The arguments on the stack of a new image. A copy that does not fit into the stack page either
meets the page below it, which is out of the user's reach, or begins behind 0, where the addresses are
those of the devices; what has been copied before stays, as each copy goes below the last. -/

namespace Xv6Container.Exec

open Lib
open Fs (CString)
open Memory (PGSIZE KERNBASE PHYSTOP DEVSPACE UINT NPTENTRIES V2P PGROUNDUP)
open Memory.Copyout (PTE_P PTE_U flag PTE_ADDR P2V memmove)
open Paging

variable {ip : File} {pgdir n sp va len a p fuel : ℕ} {k : Kernel} {s s' : Kmem} {L ptrs ptrs' : List ℕ}
  {q : ℕ → UInt8} {m m' : ℕ → UInt8} {arg : CString} {argv args : List CString}

/-! ### One copy -/

/-- The address space has the same pages, and below the stack the same bytes. -/
theorem Image.congr {L' : List ℕ} (h : Image k ip pgdir L n s) (hspace : Space k s' pgdir L')
    (hmap : ∀ i < NPAGES, mapping s'.mem pgdir i = mapping s.mem pgdir i)
    (hpeek : ∀ a < (n + 1) * PGSIZE, Paging.peek s'.mem pgdir a = Paging.peek s.mem pgdir a) :
    Image k ip pgdir L' n s' := by
  have hn : n + 2 ≤ NUPAGES := by
    have hsize := h.size_lt
    dsimp only [PGSIZE, KERNBASE, NUPAGES] at *
    omega
  have hlt : NUPAGES < NPAGES := by decide
  refine ⟨hspace, h.pages, h.size_lt, fun i hi => ?_, ?_, ?_, fun i h1 h2 => ?_, h.covers, h.inFile,
    fun a ha => (hpeek a ha).trans (h.peek a ha)⟩
  · rw [hmap i (by omega)]
    exact h.low i hi
  · rw [hmap n (by omega)]
    exact h.guard
  · rw [hmap (n + 1) (by omega)]
    exact h.stack
  · rw [hmap i (by omega)]
    exact h.absent i h1 h2

theorem Image.lt_base (h : Image k ip pgdir L n s) (ha : a < (n + 2) * PGSIZE) : a < KERNBASE :=
  ha.trans h.size_lt

/-- The address space of an image is written to in the stack page only. -/
theorem Image.of_written (h : Image k ip pgdir L n s) (hspace : Space k s' pgdir L)
    (hw : Written pgdir va q p len s.mem s'.mem) (hva : (n + 1) * PGSIZE ≤ va) :
    Image k ip pgdir L n s' := by
  refine h.congr hspace hw.mapping fun a ha => ?_
  have htop : a < (n + 2) * PGSIZE := ha.trans_le (Nat.mul_le_mul_right _ (by omega))
  rw [hw.peek a (h.lt_base htop), if_neg (by omega)]

/-- A copy into the stack page. -/
theorem Image.copyout_fits (h : Image k ip pgdir L n s) (hlo : (n + 1) * PGSIZE ≤ va)
    (hhi : va + len ≤ (n + 2) * PGSIZE) (hlen : 0 < len) :
    ∃ s', copyout pgdir va q len s = .ok true s' ∧ Image k ip pgdir L n s' ∧ Frame L s.mem s'.mem ∧
      Written pgdir va q 0 len s.mem s'.mem := by
  have hsize := h.size_lt
  have hn : n + 1 < NUPAGES := by
    dsimp only [PGSIZE, KERNBASE, NUPAGES] at *
    omega
  obtain ⟨off, rfl⟩ := Nat.exists_eq_add_of_le hlo
  obtain ⟨x, hx, hu⟩ := h.stack
  have hfit : off + len ≤ PGSIZE := by
    dsimp only [PGSIZE] at *
    omega
  obtain ⟨s', hrun, hspace, hframe, hwritten⟩ := copyout_page h.space hn hx hu hlen hfit
  exact ⟨s', hrun, h.of_written hspace hwritten hlo, hframe, hwritten⟩

/-- A copy that runs into the page below the stack. -/
theorem Image.copyout_low (h : Image k ip pgdir L n s) (hva : va < (n + 1) * PGSIZE)
    (hend : n * PGSIZE < va + len) (hlen : 0 < len) :
    Ends (fun ok s' => ok = false ∧ Space k s' pgdir L ∧ Frame L s.mem s'.mem) (fun _ => False)
      (copyout pgdir va q len s) := by
  have hsize := h.size_lt
  have hn : n < NUPAGES := by
    dsimp only [PGSIZE, KERNBASE, NUPAGES] at *
    omega
  have hpage : va / PGSIZE ≤ n := Nat.le_of_lt_succ ((Nat.div_lt_iff_lt_mul (by decide)).2 hva)
  exact copyoutLoop_stops h.space hn h.guard h.low hpage hend hlen (Nat.lt_succ_self len)

/-- A copy to the addresses of the devices. -/
theorem Image.copyout_high (h : Image k ip pgdir L n s) (hlo : DEVSPACE ≤ va) (hhi : va < UINT)
    (hlen : 0 < len) : copyout pgdir va q len s = .ok false s := by
  have hpage : DEVSPACE / PGSIZE ≤ va / PGSIZE ∧ va / PGSIZE < NPAGES := by
    dsimp only [DEVSPACE, PGSIZE, UINT, NPAGES] at *
    omega
  obtain ⟨x, hx⟩ := Option.ne_none_iff_exists'.1 (h.space.devices _ hpage.1 hpage.2)
  have hu := h.space.kernel _ (.trans (by decide) hpage.1) hpage.2 x hx
  exact copyoutLoop_refuses hpage.2 hx hu rfl hlen

/-! ### The strings -/

/-- The bytes of a string on the stack: with its zero, up to a multiple of 4. -/
def room (arg : CString) : ℕ := (arg.strlen + 1 + 3) / 4 * 4

/-- The stack pointer for one more string. -/
def pushed (sp : ℕ) (arg : CString) : ℕ := (sp + (UINT - (arg.strlen + 1) % UINT)) % UINT / 4 * 4

theorem Image.push_string (h : Image k ip pgdir L n s) (hlo : (n + 1) * PGSIZE ≤ sp)
    (hhi : sp ≤ (n + 2) * PGSIZE) (h4 : sp % 4 = 0) (harg : arg.strlen < (n + 2) * PGSIZE) :
    Ends (fun ok s' => Space k s' pgdir L ∧ Frame L s.mem s'.mem ∧ (ok = true →
        pushed sp arg + room arg = sp ∧ (n + 1) * PGSIZE ≤ pushed sp arg ∧ Image k ip pgdir L n s' ∧
          Written pgdir (pushed sp arg) q 0 (arg.strlen + 1) s.mem s'.mem))
      (fun _ => False) (copyout pgdir (pushed sp arg) q (arg.strlen + 1) s) := by
  have hsize := h.size_lt
  have hguard : n * PGSIZE + 4 < sp := by
    dsimp only [PGSIZE] at *
    omega
  obtain ⟨len, hlen⟩ : ∃ len, len = arg.strlen + 1 := ⟨_, rfl⟩
  obtain ⟨tgt, htgt⟩ : ∃ tgt, tgt = pushed sp arg := ⟨_, rfl⟩
  have hstop : ∀ {ok s'}, ok = false → Space k s' pgdir L → Frame L s.mem s'.mem →
      Space k s' pgdir L ∧ Frame L s.mem s'.mem ∧ (ok = true →
        tgt + room arg = sp ∧ (n + 1) * PGSIZE ≤ tgt ∧ Image k ip pgdir L n s' ∧
          Written pgdir tgt q 0 len s.mem s'.mem) := by
    rintro ok s' rfl hspace hframe
    exact ⟨hspace, hframe, nofun⟩
  rw [← htgt, ← hlen]
  by_cases hle : len ≤ sp
  · have hsum : tgt + room arg = sp ∧ tgt + len ≤ sp ∧ sp < tgt + len + 4 := by
      unfold pushed at htgt
      unfold room
      dsimp only [PGSIZE, UINT, KERNBASE] at *
      omega
    by_cases hfit : (n + 1) * PGSIZE ≤ tgt
    · obtain ⟨s', hrun, himage, hframe, hwritten⟩ :=
        h.copyout_fits hfit (hsum.2.1.trans hhi) (q := q) (by omega)
      rw [hrun]
      exact ends_ok.2 ⟨himage.space, hframe, fun _ => ⟨hsum.1, hfit, himage, hwritten⟩⟩
    · have hend : n * PGSIZE < tgt + len := Nat.lt_of_add_lt_add_right (hguard.trans hsum.2.2)
      exact (h.copyout_low (Nat.not_le.1 hfit) hend (by omega)).post fun ok s' hr =>
        hstop hr.1 hr.2.1 hr.2.2
  · -- the pointer has wrapped around
    have hhigh : DEVSPACE ≤ tgt ∧ tgt < UINT := by
      unfold pushed at htgt
      dsimp only [PGSIZE, UINT, KERNBASE, DEVSPACE] at *
      omega
    rw [h.copyout_high hhigh.1 hhigh.2 (by omega)]
    exact ends_ok.2 (hstop rfl h.space (.refl _ _))

/-- The string `arg` with its zero is at `p`, between `sp` and `top`. -/
structure At (m : ℕ → UInt8) (pgdir sp top : ℕ) (arg : CString) (p : ℕ) : Prop where
  low : sp ≤ p
  high : p + (arg.strlen + 1) ≤ top
  byte : ∀ j < arg.strlen + 1, peek m pgdir (p + j) = some (bytes (arg.bytes ++ [0]) j)

/-- Bytes are written below. -/
theorem At.of_written {top next : ℕ} (h : At m pgdir sp top arg p) (htop : top ≤ KERNBASE)
    (hw : Written pgdir next q a len m m') (hbelow : next + len ≤ sp) : At m' pgdir next top arg p := by
  refine ⟨.trans (by omega) h.low, h.high, fun j hj => ?_⟩
  have hhigh := h.high
  have hlow := h.low
  rw [hw.peek (p + j) (by omega), if_neg (by omega)]
  exact h.byte j hj

/-- The room that strings take. -/
def rooms (argv : List CString) : ℕ := (argv.map room).sum

theorem room_mod (arg : CString) : room arg % 4 = 0 := Nat.mul_mod_left _ 4

theorem lt_room (arg : CString) : arg.strlen + 1 ≤ room arg := by
  unfold room
  omega

/-- The loop pushes all strings, or there is no room in the stack page. -/
theorem pushStrings_pushes (h : Image k ip pgdir L n s) (hlo : (n + 1) * PGSIZE ≤ sp)
    (hhi : sp ≤ (n + 2) * PGSIZE) (h4 : sp % 4 = 0) (hcount : ptrs.length ≤ MAXARG)
    (hargs : ∀ arg ∈ argv, arg.strlen < (n + 2) * PGSIZE)
    (hat : List.Forall₂ (At s.mem pgdir sp ((n + 2) * PGSIZE)) args ptrs) :
    Ends (fun r s' => Space k s' pgdir L ∧ Frame L s.mem s'.mem ∧ ∀ sp' ptrs', r = some (sp', ptrs') →
        sp' + rooms argv = sp ∧ (n + 1) * PGSIZE ≤ sp' ∧ sp' % 4 = 0 ∧ ptrs'.length ≤ MAXARG ∧
          Image k ip pgdir L n s' ∧
          List.Forall₂ (At s'.mem pgdir sp' ((n + 2) * PGSIZE)) (args ++ argv) ptrs')
      (fun _ => False) (pushStrings pgdir argv sp ptrs s) := by
  induction argv generalizing sp ptrs args s with
  | nil =>
    refine ends_ok.2 ⟨h.space, .refl _ _, fun sp' ptrs' hr => ?_⟩
    obtain ⟨rfl, rfl⟩ := Prod.mk.inj (Option.some.inj hr)
    rw [List.append_nil]
    exact ⟨rfl, hlo, h4, hcount, h, hat⟩
  | cons arg argv ih =>
    rw [pushStrings]
    by_cases hmax : ptrs.length ≥ MAXARG
    · rw [if_pos hmax]
      exact ends_ok.2 ⟨h.space, .refl _ _, nofun⟩
    rw [if_neg hmax]
    change Ends _ _ ((copyout pgdir (pushed sp arg) _ _ >>= fun ok => if ok = true then
      pushStrings pgdir argv (pushed sp arg) (ptrs ++ [pushed sp arg]) else pure none) s)
    refine (h.push_string hlo hhi h4 (hargs arg List.mem_cons_self)).bind fun ok s₁ hr => ?_
    obtain ⟨hspace, hframe, hok⟩ := hr
    cases ok with
    | false =>
      rw [if_neg (by decide)]
      exact ends_ok.2 ⟨hspace, hframe, nofun⟩
    | true =>
      obtain ⟨hsum, hfit, himage, hwritten⟩ := hok rfl
      have hroom := lt_room arg
      have hmod := room_mod arg
      have hbelow : pushed sp arg + (arg.strlen + 1) ≤ sp := by omega
      have hkern : (n + 2) * PGSIZE ≤ KERNBASE := h.size_lt.le
      have hold : List.Forall₂ (At s₁.mem pgdir (pushed sp arg) ((n + 2) * PGSIZE)) args ptrs :=
        hat.imp fun _ _ hp => hp.of_written hkern hwritten hbelow
      have hnew : At s₁.mem pgdir (pushed sp arg) ((n + 2) * PGSIZE) arg (pushed sp arg) := by
        refine ⟨le_refl _, by omega, fun j hj => ?_⟩
        rw [hwritten.peek _ (by omega), if_pos (by omega), Nat.zero_add, Nat.add_sub_cancel_left]
      have hlength : (ptrs ++ [pushed sp arg]).length ≤ MAXARG := by
        rw [List.length_append, List.length_singleton]
        omega
      rw [if_pos rfl]
      refine (ih himage hfit (by omega) (by omega) hlength
        (fun arg' harg' => hargs arg' (List.mem_cons_of_mem arg harg'))
        (List.rel_append hold (.cons hnew .nil))).post fun r s₂ h₂ => ?_
      refine ⟨h₂.1, hframe.trans h₂.2.1, fun sp' ptrs' hr => ?_⟩
      obtain ⟨hsum', hlow', hmod', hcount', himage', hat'⟩ := h₂.2.2 sp' ptrs' hr
      rw [List.append_assoc, List.singleton_append] at hat'
      refine ⟨?_, hlow', hmod', hcount', himage', hat'⟩
      rw [rooms, List.map_cons, List.sum_cons]
      unfold rooms at hsum'
      omega

/-! ### The words below the strings -/

/-- `ustack`, from the stack pointer `esp` on. -/
def stackWords (esp : ℕ) (ptrs : List ℕ) : List ℕ :=
  [0xffffffff, ptrs.length, esp + 12] ++ ptrs ++ [0]

/-- The bytes of strings and words on the stack. -/
def stackNeed (argv : List CString) : ℕ := rooms argv + (3 + argv.length + 1) * 4

/-- The stack page with the arguments. -/
structure Arguments (m : ℕ → UInt8) (pgdir n : ℕ) (argv : List CString) (esp : ℕ) : Prop where
  need : esp + stackNeed argv = (n + 2) * PGSIZE
  low : (n + 1) * PGSIZE ≤ esp
  strings : ∃ ptrs, List.Forall₂ (At m pgdir esp ((n + 2) * PGSIZE)) argv ptrs ∧
    ∀ i < (3 + ptrs.length + 1) * 4, peek m pgdir (esp + i) = some (wordBytes (stackWords esp ptrs) i)

theorem pushArgs_pushes (h : Image k ip pgdir L n s)
    (hargs : ∀ arg ∈ argv, arg.strlen < (n + 2) * PGSIZE) :
    Ends (fun r s' => Space k s' pgdir L ∧ Frame L s.mem s'.mem ∧ ∀ esp, r = some esp →
        Image k ip pgdir L n s' ∧ Arguments s'.mem pgdir n argv esp)
      (fun _ => False) (pushArgs pgdir argv ((n + 2) * PGSIZE) s) := by
  have hsize := h.size_lt
  have h4 : (n + 2) * PGSIZE % 4 = 0 := by
    dsimp only [PGSIZE]
    omega
  rw [pushArgs]
  refine (pushStrings_pushes h (Nat.mul_le_mul_right _ (by omega)) (le_refl _) h4 (Nat.zero_le _) hargs
    .nil).bind fun r s₁ hr => ?_
  obtain ⟨hspace, hframe, hok⟩ := hr
  cases r with
  | none => exact ends_ok.2 ⟨hspace, hframe, nofun⟩
  | some r =>
    obtain ⟨sp, ptrs⟩ := r
    obtain ⟨hsum, hlow, -, hcount, himage, hat⟩ := hok sp ptrs rfl
    rw [List.nil_append] at hat
    have hlength := hat.length_eq
    obtain ⟨len, hlen⟩ : ∃ len, len = (3 + ptrs.length + 1) * 4 := ⟨_, rfl⟩
    have hsmall : 0 < len ∧ len ≤ 144 := by
      dsimp only [MAXARG] at hcount
      omega
    have hroom : n * PGSIZE + len < sp := by
      dsimp only [PGSIZE] at *
      omega
    obtain ⟨esp, rfl⟩ : ∃ esp, sp = esp + len :=
      ⟨sp - len, (Nat.sub_add_cancel ((Nat.le_add_left ..).trans hroom.le)).symm⟩
    have hword : (esp + len + (UINT - (ptrs.length + 1) * 4)) % UINT = esp + 12 := by
      dsimp only [PGSIZE, KERNBASE, UINT] at *
      omega
    have hptr : (esp + len + (UINT - (3 + ptrs.length + 1) * 4)) % UINT = esp := by
      rw [← hlen]
      dsimp only [PGSIZE, KERNBASE, UINT] at *
      omega
    dsimp only
    rw [hword, hptr, ← hlen]
    change Ends _ _ ((copyout pgdir esp (wordBytes (stackWords esp ptrs)) len >>= _) s₁)
    by_cases hfit : (n + 1) * PGSIZE ≤ esp
    · have hhigh : esp + len ≤ (n + 2) * PGSIZE := by omega
      obtain ⟨s₂, hrun, himage₂, hframe₂, hwritten⟩ := himage.copyout_fits hfit hhigh hsmall.1
      rw [run_bind_ok hrun, if_pos rfl]
      refine ends_ok.2 ⟨himage₂.space, hframe.trans hframe₂, fun esp' hesp => ?_⟩
      obtain rfl := Option.some.inj hesp
      refine ⟨himage₂, ?_, hfit, ptrs, ?_, fun i hi => ?_⟩
      · unfold stackNeed
        omega
      · exact hat.imp fun _ _ hp => hp.of_written hsize.le hwritten (le_refl _)
      · rw [hwritten.peek _ (by omega), if_pos (by omega), Nat.zero_add, Nat.add_sub_cancel_left]
    · have hend : n * PGSIZE < esp := Nat.lt_of_add_lt_add_right hroom
      refine (himage.copyout_low (Nat.not_le.1 hfit) (hend.trans_le (Nat.le_add_right _ _))
        hsmall.1).bind fun ok s₂ hr => ?_
      obtain ⟨rfl, hspace₂, hframe₂⟩ := hr
      rw [if_neg (by decide)]
      exact ends_ok.2 ⟨hspace₂, hframe.trans hframe₂, nofun⟩

/-! ### Arguments that may be longer than the image -/

theorem pushed_lt (sp : ℕ) (arg : CString) : pushed sp arg < UINT := by
  unfold pushed
  dsimp only [UINT]
  omega

theorem pushStrings_anywhere (h : Space k s pgdir L) :
    Ends (fun _ s' => Space k s' pgdir L ∧ Frame L s.mem s'.mem) (fun e => e = .null)
      (pushStrings pgdir argv sp ptrs s) := by
  induction argv generalizing sp ptrs s with
  | nil => exact ends_ok.2 ⟨h, .refl _ _⟩
  | cons arg argv ih =>
    rw [pushStrings]
    by_cases hmax : ptrs.length ≥ MAXARG
    · rw [if_pos hmax]
      exact ends_ok.2 ⟨h, .refl _ _⟩
    rw [if_neg hmax]
    refine (copyoutLoop_anywhere h (pushed_lt sp arg) (Nat.lt_succ_self _)).bind fun ok s₁ hr => ?_
    cases ok with
    | false =>
      rw [if_neg (by decide)]
      exact ends_ok.2 hr
    | true =>
      rw [if_pos rfl]
      exact (ih hr.1).post fun r s₂ h₂ => ⟨h₂.1, hr.2.trans h₂.2⟩

theorem pushArgs_anywhere (h : Space k s pgdir L) :
    Ends (fun _ s' => Space k s' pgdir L ∧ Frame L s.mem s'.mem) (fun e => e = .null)
      (pushArgs pgdir argv sp s) := by
  rw [pushArgs]
  refine (pushStrings_anywhere h).bind fun r s₁ hr => ?_
  cases r with
  | none => exact ends_ok.2 hr
  | some r =>
    obtain ⟨sp', ptrs⟩ := r
    refine (copyoutLoop_anywhere hr.1 (Nat.mod_lt _ (by decide)) (Nat.lt_succ_self _)).bind
      fun ok s₂ h₂ => ?_
    have hframe := hr.2.trans h₂.2
    cases ok with
    | false =>
      rw [if_neg (by decide)]
      exact ends_ok.2 ⟨h₂.1, hframe⟩
    | true =>
      rw [if_pos rfl]
      exact ends_ok.2 ⟨h₂.1, hframe⟩

/-! ### What a program finds -/

section Decode

variable (rd : ℕ → Option UInt8)

def readWord (a : ℕ) : Option ℕ := do
  let b0 ← rd a
  let b1 ← rd (a + 1)
  let b2 ← rd (a + 2)
  let b3 ← rd (a + 3)
  return b0.toNat + 256 * b1.toNat + 65536 * b2.toNat + 16777216 * b3.toNat

/-- The bytes from `a` up to a zero. -/
def readString : ℕ → ℕ → Option (List UInt8)
  | 0, _ => none
  | fuel + 1, a => do
    let c ← rd a
    if c = 0 then return []
    else return c :: (← readString fuel (a + 1))

/-- An array of `n` pointers to strings and a null pointer. -/
def readStrings : ℕ → ℕ → Option (List (List UInt8))
  | 0, a => do
    let last ← readWord rd a
    if last = 0 then return [] else none
  | n + 1, a => do
    let p ← readWord rd a
    let l ← readString rd PGSIZE p
    return l :: (← readStrings n (a + 4))

/-- The arguments of `main`, where the stack pointer is `esp`. -/
def decode (esp : ℕ) : Option (List (List UInt8)) := do
  let argc ← readWord rd (esp + 4)
  let argv ← readWord rd (esp + 8)
  readStrings rd argc argv

variable {rd} {c : UInt8} {l : List UInt8} {w : ℕ} {ws : List ℕ}

theorem readString_eq (h0 : 0 ∉ l) (hfuel : l.length < fuel)
    (h : ∀ j < l.length + 1, rd (a + j) = some (bytes (l ++ [0]) j)) : readString rd fuel a = some l := by
  induction l generalizing a fuel with
  | nil =>
    obtain ⟨fuel, rfl⟩ : ∃ f, fuel = f + 1 := ⟨fuel - 1, by omega⟩
    have hzero : rd a = some 0 := h 0 (by omega)
    rw [readString, hzero]
    rfl
  | cons c l ih =>
    obtain ⟨fuel, rfl⟩ : ∃ f, fuel = f + 1 := ⟨fuel - 1, by omega⟩
    rw [List.length_cons] at hfuel h
    have hc : c ≠ 0 := fun hc => h0 (hc ▸ List.mem_cons_self)
    have hfirst : rd a = some c := h 0 (by omega)
    have hrest : readString rd fuel (a + 1) = some l := by
      refine ih (fun hmem => h0 (List.mem_cons_of_mem c hmem)) (by omega) fun j hj => ?_
      rw [Nat.add_assoc, Nat.add_comm 1 j]
      exact h (j + 1) (by omega)
    rw [readString, hfirst, Option.bind_eq_bind, Option.bind_some, if_neg hc, hrest]
    rfl

theorem readWord_eq (hw : w < 2 ^ 32) (h : ∀ i < 4, rd (a + i) = some (.ofNat (w / 256 ^ i))) :
    readWord rd a = some w := by
  have hbyte : ∀ i, (UInt8.ofNat (w / 256 ^ i)).toNat = w / 256 ^ i % 256 := fun i => rfl
  have h0 := h 0 (by omega)
  rw [Nat.add_zero] at h0
  rw [readWord, h0, h 1 (by omega), h 2 (by omega), h 3 (by omega)]
  simp only [Option.bind_eq_bind, Option.bind_some, Option.pure_def, hbyte]
  congr 1
  omega

/-- A word of an array. -/
theorem readWord_wordBytes (hws : ∀ w ∈ ws, w < 2 ^ 32)
    (h : ∀ i < ws.length * 4, rd (a + i) = some (wordBytes ws i)) {j : ℕ} (hj : j < ws.length) :
    readWord rd (a + j * 4) = some (ws.getD j 0) := by
  refine readWord_eq ?_ fun i hi => ?_
  · rw [List.getD_eq_getElem?_getD, List.getElem?_eq_getElem hj, Option.getD_some]
    exact hws _ (List.getElem_mem hj)
  · have hdiv : (j * 4 + i) / 4 = j ∧ (j * 4 + i) % 4 = i := by omega
    rw [Nat.add_assoc, h _ (by omega), wordBytes, hdiv.1, hdiv.2]

theorem readStrings_eq {strings : List (List UInt8)}
    (hstrings : List.Forall₂ (fun l p => readString rd PGSIZE p = some l) strings ptrs)
    (hwords : ∀ j < ptrs.length, readWord rd (a + j * 4) = some (ptrs.getD j 0))
    (hzero : readWord rd (a + ptrs.length * 4) = some 0) :
    readStrings rd ptrs.length a = some strings := by
  induction hstrings generalizing a with
  | nil =>
    rw [List.length_nil, Nat.zero_mul, Nat.add_zero] at hzero
    rw [List.length_nil, readStrings, hzero]
    rfl
  | @cons l p strings ptrs hfirst _ ih =>
    rw [List.length_cons] at hwords hzero ⊢
    have hp : readWord rd a = some p := hwords 0 (by omega)
    have hrest : readStrings rd ptrs.length (a + 4) = some strings := by
      refine ih (fun j hj => ?_) ?_
      · have hword := hwords (j + 1) (by omega)
        rwa [Nat.add_mul, Nat.one_mul, Nat.add_comm (j * 4), ← Nat.add_assoc] at hword
      · rwa [Nat.add_mul, Nat.one_mul, Nat.add_comm (ptrs.length * 4), ← Nat.add_assoc] at hzero
    rw [readStrings, hp, Option.bind_eq_bind, Option.bind_some, hfirst, Option.bind_eq_bind,
      Option.bind_some, hrest]
    rfl

end Decode

/-- The byte at `a`, if it is in the stack page of an image of size `sz` and the user may reach it. -/
def stackByte (m : ℕ → UInt8) (pgdir sz a : ℕ) : Option UInt8 :=
  if sz - PGSIZE ≤ a ∧ a < sz then
    (mapping m pgdir (a / PGSIZE)).bind fun x => if flag x PTE_U then peek m pgdir a else none
  else none

theorem stackByte_eq (hstack : ∃ x, mapping m pgdir (n + 1) = some x ∧ flag x PTE_U = true)
    (hlo : (n + 1) * PGSIZE ≤ a) (hhi : a < (n + 2) * PGSIZE) :
    stackByte m pgdir ((n + 2) * PGSIZE) a = peek m pgdir a := by
  obtain ⟨x, hx, hu⟩ := hstack
  have hpage : a / PGSIZE = n + 1 := by
    dsimp only [PGSIZE] at *
    omega
  have hlow : (n + 2) * PGSIZE - PGSIZE ≤ a := by
    dsimp only [PGSIZE] at *
    omega
  rw [stackByte, if_pos ⟨hlow, hhi⟩, hpage, hx, Option.bind_some, if_pos hu]

/-- The arguments can be read from the stack page. -/
theorem Arguments.decode_eq {esp : ℕ} (h : Arguments m pgdir n argv esp)
    (hstack : ∃ x, mapping m pgdir (n + 1) = some x ∧ flag x PTE_U = true)
    (hsize : (n + 2) * PGSIZE < KERNBASE) :
    decode (stackByte m pgdir ((n + 2) * PGSIZE)) esp = some (argv.map CString.bytes) := by
  obtain ⟨ptrs, hat, hbytes⟩ := h.strings
  have hneed := h.need
  have hlow := h.low
  have hlength := hat.length_eq
  have hwords : ∀ w ∈ stackWords esp ptrs, w < 2 ^ 32 := by
    intro w hw
    have hptr : ∀ p ∈ ptrs, p < 2 ^ 32 := by
      intro p hp
      obtain ⟨i, hi, rfl⟩ := List.getElem_of_mem hp
      have hi' : i < argv.length := by omega
      have hhigh : ptrs[i] + (argv[i].strlen + 1) ≤ (n + 2) * PGSIZE :=
        ((List.forall₂_iff_get.1 hat).2 i hi' hi).high
      dsimp only [KERNBASE] at hsize
      omega
    unfold stackNeed at hneed
    dsimp only [KERNBASE] at hsize
    simp only [stackWords, List.cons_append, List.nil_append, List.mem_cons, List.mem_append,
      List.not_mem_nil, or_false] at hw
    obtain rfl | rfl | rfl | hw | rfl := hw
    · decide
    · omega
    · omega
    · exact hptr w hw
    · decide
  have hcount : (stackWords esp ptrs).length = 3 + ptrs.length + 1 := by
    rw [stackWords, List.length_append, List.length_append]
    rfl
  have htop : esp + (3 + ptrs.length + 1) * 4 ≤ (n + 2) * PGSIZE := by
    unfold stackNeed at hneed
    omega
  have hread : ∀ i < (stackWords esp ptrs).length * 4,
      stackByte m pgdir ((n + 2) * PGSIZE) (esp + i) = some (wordBytes (stackWords esp ptrs) i) := by
    intro i hi
    rw [hcount] at hi
    rw [stackByte_eq hstack (by omega) (by omega)]
    exact hbytes i hi
  have hword : ∀ j < 3 + ptrs.length + 1, readWord (stackByte m pgdir ((n + 2) * PGSIZE)) (esp + j * 4) =
      some ((stackWords esp ptrs).getD j 0) := fun j hj =>
    readWord_wordBytes hwords hread (by rwa [hcount])
  have hargc : readWord (stackByte m pgdir ((n + 2) * PGSIZE)) (esp + 4) = some ptrs.length :=
    hword 1 (by omega)
  have hargv : readWord (stackByte m pgdir ((n + 2) * PGSIZE)) (esp + 8) = some (esp + 12) :=
    hword 2 (by omega)
  have hshift : ∀ j, (stackWords esp ptrs).getD (3 + j) 0 = (ptrs ++ [0]).getD j 0 := fun j => by
    rw [Nat.add_comm]
    rfl
  have haddr : ∀ j, esp + (3 + j) * 4 = esp + 12 + j * 4 := fun j => by omega
  rw [decode, hargc, Option.bind_eq_bind, Option.bind_some, hargv, Option.bind_some]
  refine readStrings_eq ?_ (fun j hj => ?_) ?_
  · rw [List.forall₂_map_left_iff]
    refine hat.imp fun arg p hp => ?_
    have hp1 := hp.low
    have hp2 := hp.high
    refine readString_eq arg.nonzero ?_ fun j hj => ?_
    · change arg.strlen < PGSIZE
      dsimp only [PGSIZE] at *
      omega
    · change j < arg.strlen + 1 at hj
      rw [stackByte_eq hstack (by omega) (by omega)]
      exact hp.byte j hj
  · have h3 := hword (3 + j) (by omega)
    rw [hshift, List.getD_append _ _ _ _ hj, haddr] at h3
    exact h3
  · have h3 := hword (3 + ptrs.length) (by omega)
    rw [hshift, List.getD_append_right _ _ _ _ (le_refl _), Nat.sub_self, haddr] at h3
    exact h3

end Xv6Container.Exec
