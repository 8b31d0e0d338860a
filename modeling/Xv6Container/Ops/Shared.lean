import Xv6Container.Lib.Trace
import Xv6Container.Ops.ReadWrite

/-! `filewrite` by several processes through one open file. A step is one chunk of one call, from
`ilock` to `iunlock`, so any calls interleave chunk by chunk. Between the chunks anything may happen
that leaves the open file and its inode alone. -/

namespace Xv6Container.Ops

open Lib
open Fs (BSIZE MAXFILE FileType Dinode Entry Stop)
open Names (FileId)

/-- A call of `filewrite`: what is to be written, how far it is, and what it has returned. -/
structure Call where
  addr : ℕ → UInt8
  n : ℤ
  i : ℕ
  result : Option (Option ℤ)

/-- The calls so far are listed in the order in which they were made. -/
structure Shared where
  fs : State
  calls : List Call

inductive SharedAct where
  | call (addr : ℕ → UInt8) (n : ℤ)
  | pass (k : ℕ)
  | other (t : State)

/-- A chunk that was written: the call, the offset of the file and the bytes. -/
structure Chunk where
  call : ℕ
  off : ℕ
  bytes : List UInt8
  deriving DecidableEq

def Chunk.piece (c : Chunk) : ℕ × List UInt8 := (c.off, c.bytes)

/-- `return i == n ? n : -1` -/
def Call.finish (c : Call) : Call :=
  { c with result := some (if (c.i : ℤ) = c.n then some c.n else none) }

/-- The next `m` bytes of a call. -/
def Call.bytes (c : Call) (m : ℕ) : List UInt8 := (List.range m).map fun k => c.addr (c.i + k)

section Model

variable (sb : Superblock) (f : FileId) (ip : Entry)

/-- A pass of the loop of `filewrite`, or its end. -/
def pass (c : Call) : Run Call := do
  if c.i < c.n.toNat then
    let n1 := min (c.n.toNat - c.i) chunkMax
    let r ← writeChunk sb f ip (fun k => c.addr (c.i + k)) n1
    if r < 0 then return c.finish
    else if r ≠ n1 then throw (.panic "short filewrite")
    else return { c with i := c.i + n1 }
  else return c.finish

/-- The next pass of call `k`. -/
def Shared.pass (s : Shared) (k : ℕ) : Except Stop (Call × Call × State) :=
  match s.calls[k]? with
  | some c =>
    if c.result.isNone then
      match Ops.pass sb f ip c s.fs with
      | .ok c' t => .ok (c, c', t)
      | .error r _ => .error r
    else .error .disabled
  | none => .error .disabled

def Shared.step (s : Shared) : SharedAct → Except Stop Shared
  | .call addr n => .ok { s with
      calls := s.calls ++ [⟨addr, n, 0, if (s.fs.file f).writable then none else some none⟩] }
  | .pass k => (s.pass sb f ip k).map fun x => ⟨x.2.2, s.calls.set k x.2.1⟩
  | .other t => .ok { s with fs := t }

/-- The chunk that a step writes. -/
def Shared.writes (s : Shared) : SharedAct → Option Chunk
  | .pass k =>
    match s.pass sb f ip k with
    | .ok (c, c', _) =>
      if c.i < c'.i then some ⟨k, (s.fs.file f).off.toNat, c.bytes (c'.i - c.i)⟩ else none
    | .error _ => none
  | .call _ _ | .other _ => none

/-- File `f` is open on a regular file; `l` says whether somebody is between `ilock` and `iunlock`. -/
structure Opened (l : Bool) (s : State) : Prop where
  held : Held sb ip s
  solid : s.disk.Solid (s.cache ip).copy
  regular : (s.cache ip).copy.type = .file
  kind : (s.file f).kind = .inode ip
  ref : 1 ≤ (s.cache ip).ref
  valid : (s.cache ip).valid = true
  lock : (s.cache ip).locked = l

def State.bytes (s : State) : List UInt8 := s.disk.content (s.cache ip).copy

/-- The others leave the open file and its inode alone. -/
def Allowed (s : Shared) : SharedAct → Prop
  | .call _ _ | .pass _ => True
  | .other t => Opened sb f ip false t ∧ t.bytes ip = s.fs.bytes ip ∧ t.file f = s.fs.file f

end Model

variable {sb : Superblock} {f : FileId} {ip : Entry} {s t u : State} {n : ℕ} {src : ℕ → UInt8}

/-! ### A chunk -/

theorem Held.congr (h : Held sb ip s) (hdisk : t.disk = s.disk)
    (hinum : (t.cache ip).inum = (s.cache ip).inum) (hcopy : (t.cache ip).copy = (s.cache ip).copy) :
    Held sb ip t := by
  refine ⟨hdisk ▸ h.owned, ?_, hcopy ▸ h.alloc⟩
  rw [hdisk, hinum, hcopy]
  exact h.synced

/-- The lock is set or cleared. -/
theorem Opened.congr {l l' : Bool} (h : Opened sb f ip l s) (hdisk : t.disk = s.disk)
    (hkind : (t.file f).kind = (s.file f).kind)
    (hentry : t.cache ip = { s.cache ip with locked := l' }) : Opened sb f ip l' t := by
  constructor
  case held => exact h.held.congr hdisk (by rw [hentry]) (by rw [hentry])
  case solid =>
    rw [hdisk, hentry]
    exact h.solid
  case regular =>
    rw [hentry]
    exact h.regular
  case kind =>
    rw [hkind]
    exact h.kind
  case ref =>
    rw [hentry]
    exact h.ref
  case valid =>
    rw [hentry]
    exact h.valid
  case lock =>
    rw [hentry]

theorem ilock_run (href : 1 ≤ (s.cache ip).ref) (hvalid : (s.cache ip).valid = true)
    (hunlocked : (s.cache ip).locked = false) :
    ilock ip s = .ok () (s.setInode ip { s.cache ip with locked := true }) := by
  have hacq : acquiresleep ip s = .ok () (s.setInode ip { s.cache ip with locked := true }) := by
    rw [acquiresleep, run_get_bind, hunlocked, if_neg Bool.false_ne_true]
    rfl
  rw [ilock, run_get_bind, if_neg (by omega), run_bind_ok hacq, run_get_bind, State.setInode_self,
    hvalid, if_neg (by decide)]
  rfl

theorem iunlock_run (href : 1 ≤ (s.cache ip).ref) (hlocked : (s.cache ip).locked = true) :
    iunlock ip s = .ok () (s.setInode ip { s.cache ip with locked := false }) := by
  rw [iunlock, run_get_bind, hlocked, if_neg (by simp; omega)]
  rfl

/-- The state after `iunlock` and `end_op`. -/
def State.close (s : State) (ip : Entry) : State :=
  { s.setInode ip { s.cache ip with locked := false } with ended := s.logged :: s.ended }

theorem close_run (href : 1 ≤ (s.cache ip).ref) (hlocked : (s.cache ip).locked = true) (r : ℤ) :
    (do iunlock ip; endOp; pure r : Run ℤ) s = .ok r (s.close ip) := by
  rw [run_bind_ok (iunlock_run href hlocked)]
  rfl

theorem State.close_cache : (s.close ip).cache ip = { s.cache ip with locked := false } :=
  State.setInode_self ..

theorem chunkMax_eq : chunkMax = 1536 := rfl

/-- What a chunk of `n` bytes does: nothing, or the bytes are at the offset and the offset is behind
them. -/
structure ChunkEnds (sb : Superblock) (f : FileId) (ip : Entry) (n : ℕ) (src : ℕ → UInt8) (s : State)
    (r : ℤ) (t : State) : Prop where
  opened : Opened sb f ip false t
  result : r = -1 ∧ t.bytes ip = s.bytes ip ∧ (t.file f).off = (s.file f).off ∨
    r = n ∧ (s.file f).off.toNat ≤ (s.bytes ip).length ∧
      t.bytes ip = splice (s.bytes ip) (s.file f).off.toNat ((List.range n).map src) ∧
      (t.file f).off.toNat = (s.file f).off.toNat + n

theorem writeChunk_halts (h : Opened sb f ip false s) (hpos : 0 < n) (hn : n ≤ chunkMax) :
    Halts (ChunkEnds sb f ip n src s) (fun _ => True) (writeChunk sb f ip src n s) := by
  have hlock : ilock ip { s with logged := ∅ } = .ok () _ := ilock_run h.ref h.valid h.lock
  set s' := ({ s with logged := ∅ } : State).setInode ip { s.cache ip with locked := true } with hs'
  have hentry : s'.cache ip = { s.cache ip with locked := true } := State.setInode_self _ _ _
  have hbytes : s'.disk.content (s'.cache ip).copy = s.bytes ip := by
    rw [hentry]
    rfl
  have hlocked : Opened sb f ip true s' := h.congr rfl rfl hentry
  have hdev : (s'.cache ip).copy.type ≠ .dev := by
    rw [hlocked.regular]
    nofun
  have htoNat : (UInt32.ofNat n).toNat = n := by
    rw [UInt32.toNat_ofNat', Nat.mod_eq_of_lt (by rw [chunkMax_eq] at hn; omega)]
  simp only [writeChunk, beginOp, run_modify_bind]
  rw [run_bind_ok hlock, run_get_bind]
  by_cases hbad : Refused (s'.cache ip).copy.size (s'.file f).off (.ofNat n)
  · rw [run_bind_ok (writei_refused hdev hbad src), if_neg (by decide),
      close_run hlocked.ref hlocked.lock]
    refine ⟨hlocked.congr rfl rfl State.close_cache, .inl ⟨rfl, ?_, rfl⟩⟩
    rw [State.bytes, State.close_cache]
    exact hbytes
  · refine ((writei_halts hlocked.held hdev hlocked.solid hbad src).mono (fun _ _ => id)
      fun _ _ => trivial).bind ?_
    rintro r u ⟨rfl, hu⟩
    rw [htoNat] at hu ⊢
    obtain ⟨d, hcache, htype, -⟩ := hu.entry
    have hcopy : u.cache ip = { s'.cache ip with copy := d } := by rw [hcache, Function.update_self]
    simp only [Refused, not_or, Nat.not_lt, Nat.not_le, htoNat] at hbad
    rw [if_pos (by omega), run_modify_bind]
    set v := u.setFile f { u.file f with off := (u.file f).off + .ofNat (n : ℤ).toNat } with hv
    have hfile : v.file f = { s.file f with off := (s.file f).off + .ofNat (n : ℤ).toNat } := by
      rw [hv, State.setFile_self, hu.file]
      rfl
    have hoff : (v.file f).off.toNat = (s.file f).off.toNat + n := by
      rw [hfile, Int.toNat_natCast, UInt32.toNat_add, htoNat]
      exact Nat.mod_eq_of_lt hbad.2.1
    have hlv : Opened sb f ip true v := by
      constructor
      case held => exact hu.held.congr rfl rfl rfl
      case solid => exact hu.solid
      case regular =>
        show (u.cache ip).copy.type = .file
        rw [hcopy]
        exact htype.trans hlocked.regular
      case kind =>
        rw [hfile]
        exact h.kind
      case ref =>
        show 1 ≤ (u.cache ip).ref
        rw [hcopy]
        exact hlocked.ref
      case valid =>
        show (u.cache ip).valid = true
        rw [hcopy]
        exact hlocked.valid
      case lock =>
        show (u.cache ip).locked = true
        rw [hcopy]
        exact hlocked.lock
    rw [close_run hlv.ref hlv.lock]
    refine ⟨hlv.congr rfl rfl State.close_cache, .inr ⟨rfl, ?_, ?_, hoff⟩⟩
    · rw [← hbytes, length_content]
      exact hbad.1
    · rw [State.bytes, State.close_cache, ← hbytes]
      exact hu.content

/-- What a pass does: the call goes on behind the bytes of its chunk, or ends. -/
structure PassEnds (sb : Superblock) (f : FileId) (ip : Entry) (c : Call) (s : State) (c' : Call)
    (t : State) : Prop where
  opened : Opened sb f ip false t
  result : c' = c.finish ∧ t.bytes ip = s.bytes ip ∧ (t.file f).off = (s.file f).off ∨
    ∃ m, 0 < m ∧ c.i + m ≤ c.n.toNat ∧ c' = { c with i := c.i + m } ∧
      (s.file f).off.toNat ≤ (s.bytes ip).length ∧
      t.bytes ip = splice (s.bytes ip) (s.file f).off.toNat (c.bytes m) ∧
      (t.file f).off.toNat = (s.file f).off.toNat + m

theorem pass_halts (h : Opened sb f ip false s) (c : Call) :
    Halts (PassEnds sb f ip c s) (fun _ => True) (pass sb f ip c s) := by
  rw [pass]
  split_ifs with hi
  · dsimp only
    have hmax := chunkMax_eq
    set m := min (c.n.toNat - c.i) chunkMax with hm
    refine (writeChunk_halts h (by omega) (by omega)).bind ?_
    rintro r t ⟨ht, ⟨rfl, hbytes, hoff⟩ | ⟨rfl, hle, hbytes, hoff⟩⟩
    · rw [if_pos (by decide)]
      exact ⟨ht, .inl ⟨rfl, hbytes, hoff⟩⟩
    · rw [if_neg (by omega), if_neg (not_not.2 rfl)]
      exact ⟨ht, .inr ⟨m, by omega, by omega, rfl, hle, hbytes, hoff⟩⟩
  · exact ⟨h, .inl ⟨rfl, rfl, rfl⟩⟩

/-- The passes of one call that nobody interrupts. -/
def passes (sb : Superblock) (f : FileId) (ip : Entry) : ℕ → Call → Run Call
  | 0, c => return c
  | fuel + 1, c => do
    let c' ← pass sb f ip c
    if c'.result.isSome then return c' else passes sb f ip fuel c'

theorem writeChunks_passes {addr : ℕ → UInt8} {n : ℤ} {fuel i : ℕ} (hfuel : n.toNat - i ≤ fuel) :
    (do let i ← writeChunks sb f ip addr n.toNat fuel i
        return if (i : ℤ) = n then some n else none : Run (Option ℤ)) s =
    (do let c ← passes sb f ip (fuel + 1) ⟨addr, n, i, none⟩
        return c.result.getD none : Run (Option ℤ)) s := by
  induction fuel generalizing i s with
  | zero => simp [passes, pass, writeChunks, show ¬ i < n.toNat by omega, Call.finish]
  | succ fuel ih =>
    rw [passes, pass, writeChunks]
    by_cases hi : i < n.toNat
    · rw [if_pos hi, if_pos hi]
      simp only [bind_assoc]
      have hmax := chunkMax_eq
      cases hc : writeChunk sb f ip (fun k => addr (i + k)) (min (n.toNat - i) chunkMax) s with
      | error r t => rw [run_bind_error hc, run_bind_error hc]
      | ok r t =>
        rw [run_bind_ok hc, run_bind_ok hc]
        by_cases hneg : r < 0
        · simp [hneg, Call.finish]
        · by_cases hshort : r = min (n.toNat - i) chunkMax
          · rw [if_neg hneg, if_neg hneg, if_neg (not_not.2 hshort), if_neg (not_not.2 hshort)]
            exact ih (by omega)
          · rw [if_neg hneg, if_neg hneg, if_pos hshort, if_pos hshort]
            rfl
    · simp [hi, Call.finish]

/-- `filewrite` is its passes one after the other. -/
theorem filewrite_passes (hw : (s.file f).writable = true) (hk : (s.file f).kind = .inode ip)
    (addr : ℕ → UInt8) (n : ℤ) : filewrite sb f addr n s =
      (do let c ← passes sb f ip (n.toNat + 1) ⟨addr, n, 0, none⟩
          return c.result.getD none : Run (Option ℤ)) s := by
  rw [← writeChunks_passes (Nat.le_of_eq (Nat.sub_zero _)), filewrite, run_get_bind, hw, hk,
    if_neg (by decide)]

/-! ### Interleaved calls -/

/-- The chunks of call `k` are what the call has come through, and a call that returns `n` has come
through all of it. -/
structure Written (log : List Chunk) (k : ℕ) (c : Call) : Prop where
  bytes : (log.filter fun ch => ch.call = k).flatMap Chunk.bytes = (List.range c.i).map c.addr
  result : ∀ r, c.result = some (some r) → r = c.n ∧ (c.i : ℤ) = c.n

/-- The bytes of the chunks are in the file, one chunk behind the other. -/
structure Tiled (sb : Superblock) (f : FileId) (ip : Entry) (s₀ : Shared) (log : List Chunk)
    (s : Shared) : Prop where
  opened : Opened sb f ip false s.fs
  start : log ≠ [] → (s₀.fs.file f).off.toNat ≤ (s₀.fs.bytes ip).length
  bytes : s.fs.bytes ip =
    splice (s₀.fs.bytes ip) (s₀.fs.file f).off.toNat (log.flatMap Chunk.bytes)
  off : (s.fs.file f).off.toNat = (s₀.fs.file f).off.toNat + (log.flatMap Chunk.bytes).length
  tiles : Tiles (s₀.fs.file f).off.toNat (log.map Chunk.piece)
  calls : ∀ k c, s.calls[k]? = some c → Written log k c
  made : ∀ ch ∈ log, ch.call < s.calls.length

variable {s₀ v w : Shared} {log : List Chunk} {k : ℕ} {c c' : Call}

theorem flatMap_piece (log : List Chunk) :
    (log.map Chunk.piece).flatMap Prod.snd = log.flatMap Chunk.bytes := by
  rw [List.flatMap_map]
  rfl

namespace Tiled

/-- Nothing is written. -/
theorem keep (h : Tiled sb f ip s₀ log v) (ht : Opened sb f ip false w.fs)
    (hbytes : w.fs.bytes ip = v.fs.bytes ip) (hoff : (w.fs.file f).off = (v.fs.file f).off)
    (hcalls : ∀ k c, w.calls[k]? = some c → Written log k c)
    (hmade : ∀ ch ∈ log, ch.call < w.calls.length) : Tiled sb f ip s₀ log w := by
  refine ⟨ht, h.start, ?_, ?_, h.tiles, hcalls, hmade⟩
  · rw [hbytes, h.bytes]
  · rw [hoff, h.off]

theorem call (h : Tiled sb f ip s₀ log v) (hi : c.i = 0) (hresult : ∀ r, c.result ≠ some (some r)) :
    Tiled sb f ip s₀ log { v with calls := v.calls ++ [c] } := by
  refine h.keep h.opened rfl rfl ?_ ?_
  · intro k x hx
    by_cases hk : k < v.calls.length
    · rw [List.getElem?_append_left hk] at hx
      exact h.calls k x hx
    · rw [List.getElem?_append_right (by omega), List.getElem?_singleton] at hx
      split_ifs at hx with hlast
      cases hx
      refine ⟨?_, fun r hr => absurd hr (hresult r)⟩
      rw [hi, List.filter_eq_nil_iff.2]
      · rfl
      · intro ch hch
        have := h.made ch hch
        simp only [decide_eq_true_eq]
        omega
  · intro ch hch
    have := h.made ch hch
    rw [List.length_append, List.length_singleton]
    omega

/-- A call ends. -/
theorem finish (h : Tiled sb f ip s₀ log v) (hk : v.calls[k]? = some c)
    (ht : Opened sb f ip false t) (hbytes : t.bytes ip = v.fs.bytes ip)
    (hoff : (t.file f).off = (v.fs.file f).off) :
    Tiled sb f ip s₀ log ⟨t, v.calls.set k c.finish⟩ := by
  refine h.keep ht hbytes hoff ?_ ?_
  · intro j x hx
    by_cases hjk : k = j
    · subst hjk
      rw [List.getElem?_set_self (List.getElem?_eq_some_iff.1 hk).1] at hx
      cases hx
      refine ⟨(h.calls k c hk).bytes, fun r hr => ?_⟩
      simp only [Call.finish, Option.some.injEq] at hr
      split_ifs at hr with hn
      cases hr
      exact ⟨rfl, hn⟩
    · rw [List.getElem?_set_ne hjk] at hx
      exact h.calls j x hx
  · intro ch hch
    rw [List.length_set]
    exact h.made ch hch

/-- The chunk of call `k` goes behind the others. -/
theorem chunk (h : Tiled sb f ip s₀ log v) (hk : v.calls[k]? = some c) (hrun : c.result = none) {m : ℕ}
    (ht : Opened sb f ip false t) (hle : (v.fs.file f).off.toNat ≤ (v.fs.bytes ip).length)
    (hbytes : t.bytes ip = splice (v.fs.bytes ip) (v.fs.file f).off.toNat (c.bytes m))
    (hoff : (t.file f).off.toNat = (v.fs.file f).off.toNat + m) :
    Tiled sb f ip s₀ (log ++ [⟨k, (v.fs.file f).off.toNat, c.bytes m⟩])
      ⟨t, v.calls.set k { c with i := c.i + m }⟩ := by
  have hstart : (s₀.fs.file f).off.toNat ≤ (s₀.fs.bytes ip).length := by
    by_cases hlog : log = []
    · have hsame := h.bytes
      have hzero := h.off
      rw [hlog, List.flatMap_nil] at hsame hzero
      rw [splice_nil] at hsame
      rw [List.length_nil, Nat.add_zero] at hzero
      rwa [hsame, hzero] at hle
    · exact h.start hlog
  have hall : ∀ off, (log ++ [(⟨k, off, c.bytes m⟩ : Chunk)]).flatMap Chunk.bytes =
      log.flatMap Chunk.bytes ++ c.bytes m := by
    intro off
    rw [List.flatMap_append, List.flatMap_singleton]
  have hlen : (c.bytes m).length = m := by rw [Call.bytes, List.length_map, List.length_range]
  constructor
  case opened => exact ht
  case start => exact fun _ => hstart
  case bytes =>
    rw [hall, ← splice_append hstart, ← h.bytes, ← h.off]
    exact hbytes
  case off =>
    rw [hall, List.length_append, hlen, ← Nat.add_assoc, ← h.off]
    exact hoff
  case tiles =>
    rw [List.map_append]
    apply h.tiles.concat
    rw [flatMap_piece, ← h.off]
    rfl
  case calls =>
    intro j x hx
    by_cases hjk : k = j
    · subst hjk
      rw [List.getElem?_set_self (List.getElem?_eq_some_iff.1 hk).1] at hx
      cases hx
      refine ⟨?_, fun r hr => ?_⟩
      · rw [List.filter_append, List.flatMap_append, (h.calls k c hk).bytes, List.range_add,
          List.map_append, List.map_map]
        simp only [List.filter_singleton, decide_true, cond_true, List.flatMap_singleton]
        rfl
      · cases hrun.symm.trans hr
    · rw [List.getElem?_set_ne hjk] at hx
      have hold := h.calls j x hx
      refine ⟨?_, hold.result⟩
      rw [List.filter_append, List.flatMap_append, hold.bytes]
      simp [hjk]
  case made =>
    intro ch hch
    rw [List.length_set]
    rcases List.mem_append.1 hch with hch | hch
    · exact h.made ch hch
    · rw [List.mem_singleton.1 hch]
      exact (List.getElem?_eq_some_iff.1 hk).1

end Tiled

theorem Shared.pass_eq_ok {x : Call × Call × State} (h : v.pass sb f ip k = .ok x) :
    v.calls[k]? = some x.1 ∧ x.1.result = none ∧ Ops.pass sb f ip x.1 v.fs = .ok x.2.1 x.2.2 := by
  rw [Shared.pass] at h
  split at h
  next c hc =>
    split_ifs at h with hrun
    split at h
    next c' t hp =>
      cases h
      exact ⟨hc, Option.isNone_iff_eq_none.1 hrun, hp⟩
    next => cases h
  next => cases h

theorem Tiled.step (h : Tiled sb f ip s₀ log v) {a : SharedAct} (ha : Allowed sb f ip v a)
    (hw : v.step sb f ip a = .ok w) :
    Tiled sb f ip s₀ (log ++ (v.writes sb f ip a).toList) w := by
  cases a with
  | call addr n =>
    cases hw
    show Tiled sb f ip s₀ (log ++ []) _
    rw [List.append_nil]
    refine h.call rfl fun r => ?_
    dsimp only
    split_ifs <;> nofun
  | other t =>
    cases hw
    show Tiled sb f ip s₀ (log ++ []) _
    rw [List.append_nil]
    obtain ⟨ht, hbytes, hfile⟩ := ha
    exact h.keep ht hbytes (by rw [hfile]) h.calls h.made
  | pass k =>
    rw [Shared.step] at hw
    cases hp : v.pass sb f ip k with
    | error r =>
      rw [hp] at hw
      cases hw
    | ok x =>
      rw [hp] at hw
      cases hw
      obtain ⟨hk, hrun, hpass⟩ := Shared.pass_eq_ok hp
      obtain ⟨c, c', t⟩ := x
      dsimp only at hk hrun hpass
      have hends := (pass_halts h.opened c).of_ok hpass
      simp only [Shared.writes, hp]
      obtain ⟨ht, ⟨rfl, hbytes, hoff⟩ | ⟨m, hpos, -, rfl, hle, hbytes, hoff⟩⟩ := hends
      · have hi : c.finish.i = c.i := rfl
        rw [hi, if_neg (Nat.lt_irrefl c.i), Option.toList_none, List.append_nil]
        exact h.finish hk ht hbytes hoff
      · rw [if_pos (Nat.lt_add_of_pos_right hpos), Nat.add_sub_cancel_left]
        exact h.chunk hk hrun ht hle hbytes hoff

/-- However the calls of `filewrite` on one open file interleave: the chunks lie one behind the other
from the first offset on, so no two of them overlap; the file is the first one with the bytes of the
chunks in place, and each chunk is read back where it was put; the offset is behind the last chunk; and
the chunks of a call are the bytes it has come through, all of them when it returns `n`. -/
theorem shared_writes_tile (hopened : Opened sb f ip false s₀.fs) (hcalls : s₀.calls = [])
    (h : Trace (Shared.step sb f ip) (Allowed sb f ip) (Shared.writes sb f ip) s₀ log v) :
    Tiles (s₀.fs.file f).off.toNat (log.map Chunk.piece) ∧
    (log.Pairwise fun a b => a.off + a.bytes.length ≤ b.off) ∧
    v.fs.bytes ip = splice (s₀.fs.bytes ip) (s₀.fs.file f).off.toNat (log.flatMap Chunk.bytes) ∧
    (∀ a ∈ log, ((v.fs.bytes ip).drop a.off).take a.bytes.length = a.bytes) ∧
    (v.fs.file f).off.toNat = (s₀.fs.file f).off.toNat + (log.flatMap Chunk.bytes).length ∧
    ∀ k c, v.calls[k]? = some c → Written log k c := by
  have hstart : Tiled sb f ip s₀ [] s₀ := by
    refine ⟨hopened, fun hne => absurd rfl hne, ?_, rfl, trivial, ?_, nofun⟩
    · rw [List.flatMap_nil, splice_nil]
    · rw [hcalls]
      nofun
  have hv : Tiled sb f ip s₀ log v :=
    h.invariant (I := Tiled sb f ip s₀) hstart fun _ _ _ _ ht ha hu => ht.step ha hu
  refine ⟨hv.tiles, ?_, hv.bytes, fun a ha => ?_, hv.off, hv.calls⟩
  · exact List.pairwise_map.1 hv.tiles.pairwise
  · have := hv.tiles.read (hv.start (List.ne_nil_of_mem ha)) a.piece (List.mem_map_of_mem ha)
    rw [flatMap_piece, ← hv.bytes] at this
    exact this

/-- A step of one of the calls. -/
def SharedAct.ours : SharedAct → Bool
  | .call _ _ | .pass _ => true
  | .other _ => false

theorem allowed_of_ours (v : Shared) {a : SharedAct} (ha : a.ours = true) : Allowed sb f ip v a := by
  cases a with
  | call _ _ => trivial
  | pass _ => trivial
  | other _ => cases ha

/-- An empty file that is open as file 0, and no calls yet. -/
def oneOpen : Shared :=
  ⟨{ oneFile .file with file := fun _ => ⟨2, .inode 0, 0, true, true⟩ }, []⟩

/-- A call of 100 bytes between the two chunks of a call of 2000 bytes. -/
theorem shared_writes_tile_two : ∃ log v,
    Trace (Shared.step smallSb 0 0) (Allowed smallSb 0 0) (Shared.writes smallSb 0 0) oneOpen log v ∧
    log.map (fun a => (a.call, a.off, a.bytes.length)) = [(0, 0, 1536), (1, 1536, 100), (0, 1636, 464)] ∧
    (v.fs.file 0).off = 2100 ∧
    Tiles 0 (log.map Chunk.piece) ∧
    ∀ a ∈ log, ((v.fs.bytes 0).drop a.off).take a.bytes.length = a.bytes := by
  have hopened : Opened smallSb 0 0 false oneOpen.fs :=
    ⟨(oneFile_held .file (by decide)).congr rfl rfl rfl,
      fun bn hbn => absurd hbn (Nat.not_lt_zero _), rfl, rfl, by decide, rfl, rfl⟩
  have hstart : Trace (Shared.step smallSb 0 0) (fun _ a => SharedAct.ours a = true)
      (Shared.writes smallSb 0 0) oneOpen [] oneOpen := .nil
  obtain ⟨log, v, hrun, htest⟩ := hstart.of_watch
    (fun log v => decide (log.map (fun a => (a.call, a.off, a.bytes.length)) =
      [(0, 0, 1536), (1, 1536, 100), (0, 1636, 464)] ∧ (v.fs.file 0).off = 2100))
    [.call (fun _ => 7) 2000, .call (fun _ => 9) 100, .pass 0, .pass 1, .pass 0, .pass 1, .pass 0]
    (by decide +kernel)
  obtain ⟨hlog, hoff⟩ := of_decide_eq_true htest
  have htrace : Trace (Shared.step smallSb 0 0) (Allowed smallSb 0 0) (Shared.writes smallSb 0 0)
      oneOpen log v := hrun.mono fun v _ => allowed_of_ours v
  obtain ⟨htiles, -, -, hread, -⟩ := shared_writes_tile hopened rfl htrace
  exact ⟨log, v, htrace, hlog, hoff, htiles, hread⟩

end Xv6Container.Ops
