import Xv6Container.Names.Calls

/-! The locks of inodes in a path lookup: whatever it returns, it has released every lock that it has
taken. It stops if the cache is full, at a free inode, or to wait for a lock that is held already. -/

namespace Xv6Container.Paths

open Lib Names
open Fs (NINODE Entry Inum Stop CString)

variable {B : Prop} {R : Entry → ℤ} {s t : State} {e ip dp : Entry} {i : Inum} {p : Slot}
  {L : Entry → Bool} {name : Name} {path : CString}

def locks (s : State) : Entry → Bool := fun e => (s.cache e).locked

/-- The stops of a lookup with the locks `L` held. -/
inductive Stops (L : Entry → Bool) : Stop → Prop
  | full : Stops L (.panic "iget: no inodes")
  | free : Stops L (.panic "ilock: no type")
  | wait {e : Entry} (h : L e = true) : Stops L .blocked

@[simp] theorem locks_setInode (s : State) (e : Entry) (x : Inode) :
    locks (s.setInode e x) = Function.update (locks s) e x.locked := by
  funext e'
  by_cases h : e' = e
  · rw [h, locks, State.setInode_self, Function.update_self]
  · rw [locks, State.setInode_of_ne h, Function.update_of_ne h, locks]

/-- A change that leaves the lock alone. -/
theorem locks_setInode_same {x : Inode} (h : x.locked = (s.cache e).locked) :
    locks (s.setInode e x) = locks s := by
  rw [locks_setInode, h]
  exact Function.update_eq_self e (locks s)

theorem iget_locks (i : Inum) : Ends (fun _ t => locks t = locks s) (Stops L) (iget i s) := by
  simp only [iget, run_get_bind]
  cases (List.finRange NINODE).find? fun e => (s.cache e).ref > 0 ∧ (s.cache e).inum = i with
  | some e => exact ends_ok.2 (locks_setInode_same rfl)
  | none =>
    dsimp only
    cases (List.finRange NINODE).find? fun e => (s.cache e).ref = 0 with
    | none => exact ends_error.2 .full
    | some e =>
      refine ends_ok.2 ((locks_setInode_same ?_).trans ?_)
      · rfl
      · rfl

theorem idup_locks : Ends (fun _ t => locks t = locks s) (Stops L) (idup e s) :=
  ends_ok.2 (locks_setInode_same rfl)

theorem acquiresleep_locks (hL : ∀ x, locks s x = true → L x = true) :
    Ends (fun _ t => locks s e = false ∧ t = s.setInode e { s.cache e with locked := true })
      (Stops L) (acquiresleep e s) := by
  simp only [acquiresleep, run_get_bind]
  split_ifs with h
  · exact ends_error.2 (.wait (hL e h))
  · exact ends_ok.2 ⟨Bool.eq_false_iff.2 h, rfl⟩

theorem ilock_locks (hL : ∀ x, locks s x = true → L x = true) (href : 1 ≤ (s.cache e).ref) :
    Ends (fun _ t => locks s e = false ∧ locks t = Function.update (locks s) e true) (Stops L)
      (ilock e s) := by
  simp only [ilock, run_get_bind]
  rw [if_neg (by omega)]
  refine (acquiresleep_locks hL).bind ?_
  rintro _ t ⟨hfree, ht⟩
  have hlocks : locks t = Function.update (locks s) e true := by rw [ht, locks_setInode]
  simp only [run_get_bind, setInode]
  split_ifs with hv htype
  · rw [run_modify_bind, run_throw, ends_error]
    exact .free
  · rw [run_modify_bind, run_pure, ends_ok]
    refine ⟨hfree, (locks_setInode_same ?_).trans hlocks⟩
    rfl
  · exact ends_ok.2 ⟨hfree, hlocks⟩

theorem iunlock_locks (hlocked : locks s e = true) (href : 1 ≤ (s.cache e).ref) :
    Ends (fun _ t => locks t = Function.update (locks s) e false) (Stops L) (iunlock e s) := by
  have hl : (s.cache e).locked = true := hlocked
  simp only [iunlock, run_get_bind]
  rw [if_neg (by rw [hl]; simp; omega)]
  exact ends_ok.2 (locks_setInode ..)

theorem setInode_locks {f : Inode → Inode} (hf : ∀ x, (f x).locked = x.locked) :
    Ends (fun _ t => locks t = locks s) (Stops L) (setInode e f s) :=
  ends_ok.2 (locks_setInode_same (hf (s.cache e)))

theorem freeInode_locks : Ends (fun _ t => locks t = locks s) (Stops L) (freeInode e s) := by
  simp only [freeInode, run_modify_bind, setCopy]
  refine (setInode_locks ?_).bind fun _ t ht => ?_
  · exact fun _ => rfl
  · simp only [iupdate, run_modify_bind]
    refine (setInode_locks ?_).bind fun _ u hu => ends_ok.2 (hu.trans ht)
    exact fun _ => rfl

theorem iput_locks (hL : ∀ x, locks s x = true → L x = true) :
    Ends (fun _ t => locks t = locks s) (Stops L) (iput e s) := by
  rw [iput]
  refine (acquiresleep_locks hL).bind ?_
  rintro _ t ⟨hfree, ht⟩
  have hlocks : locks t = Function.update (locks s) e true := by rw [ht, locks_setInode]
  have hend : ∀ u, locks u = locks t → Ends (fun _ v => locks v = locks s) (Stops L)
      ((releasesleep e >>= fun _ => setInode e fun ip => { ip with ref := ip.ref - 1 }) u) := by
    intro u hu
    have hrel : Ends (fun _ v => locks v = Function.update (locks u) e false) (Stops L)
        (releasesleep e u) := ends_ok.2 (locks_setInode ..)
    refine hrel.bind fun _ v hv => (setInode_locks ?_).post fun _ w hw => ?_
    · exact fun _ => rfl
    · rw [hw, hv, hu, hlocks, Function.update_idem, ← hfree]
      exact Function.update_eq_self e (locks s)
  simp only [run_get_bind]
  split_ifs
  · exact freeInode_locks.bind fun _ u hu => hend u hu
  · exact hend t rfl

theorem iunlockput_locks (hlocked : locks s e = true) (href : 1 ≤ (s.cache e).ref)
    (hL : ∀ x, x ≠ e → locks s x = true → L x = true) :
    Ends (fun _ t => locks t = Function.update (locks s) e false) (Stops L) (iunlockput e s) := by
  rw [iunlockput]
  refine (iunlock_locks hlocked href).bind fun _ t ht => ?_
  refine (iput_locks fun x hx => ?_).post fun _ u hu => hu.trans ht
  rw [ht] at hx
  by_cases hxe : x = e
  · rw [hxe, Function.update_self] at hx
    cases hx
  · rw [Function.update_of_ne hxe] at hx
    exact hL x hxe hx

theorem dirlookup_locks (htype : (s.cache dp).copy.type = .dir) :
    Ends (fun _ t => locks t = locks s) (Stops L) (dirlookup dp name s) := by
  simp only [dirlookup, run_get_bind]
  rw [if_neg (not_not.2 htype)]
  cases findEntry (s.node (s.cache dp).inum).entries name with
  | none => exact ends_ok.2 rfl
  | some x => exact (iget_locks x.2).bind fun _ _ ht => ends_ok.2 ht

theorem gain_nonneg {β : Type} (o : Option (Entry × β)) (x : Entry) : 0 ≤ gain o x := by
  cases o with
  | none => exact Int.le_refl 0
  | some y => exact one_nonneg y.1 x

theorem update_unlock (hfree : L e = false) :
    Function.update (Function.update L e true) e false = L := by
  rw [Function.update_idem, ← hfree]
  exact Function.update_eq_self e L

theorem namexLoop_locks {parent : Bool} {names : List Name} (h : Cached B (R + one ip) s)
    (hR : ∀ x, 0 ≤ R x) (hs : Settled R s) (hB : B → Whole s.node)
    (hL : ∀ x, locks s x = true → L x = true) :
    Ends (fun _ t => locks t = locks s) (Stops L) (namexLoop parent ip name names s) := by
  induction names generalizing ip name s with
  | nil =>
    rw [namexLoop]
    cases parent with
    | true => exact (iput_locks hL).bind fun _ t ht => ends_ok.2 ht
    | false => exact ends_ok.2 rfl
  | cons a names ih =>
    have hip : 0 < (R + one ip) ip := add_one_pos (hR ip)
    rw [namexLoop]
    refine (ilock_ends h hip).bind_with (ilock_locks hL (h.count ip ▸ hip)) ?_
    rintro _ t ⟨ht, hlt, hv⟩ ⟨hfree, hlocks⟩
    have href : 1 ≤ (t.cache ip).ref := ht.count ip ▸ hip
    have hlocked : locks t ip = true := by rw [hlocks, Function.update_self]
    have hLt : ∀ x, x ≠ ip → locks t x = true → L x = true := by
      intro x hx
      rw [hlocks, Function.update_of_ne hx]
      exact hL x
    have hback : Function.update (locks t) ip false = locks s := by rw [hlocks, update_unlock hfree]
    have hst : Settled R t := hlt.drop.settled hs
    rw [run_get_bind]
    split_ifs with htype hlast
    · refine (iunlockput_locks hlocked href hLt).bind fun _ u hu => ?_
      exact ends_ok.2 (hu.trans hback)
    · refine (iunlock_locks hlocked href).bind fun _ u hu => ?_
      exact ends_ok.2 (hu.trans hback)
    · rw [not_not] at htype
      have hB' : B → Whole t.node := fun b => hlt.node ▸ hB b
      refine (dirlookup_ends ht hip hv hB' a).bind_with (dirlookup_locks htype) ?_
      rintro o u ⟨hu, hlu, _, _⟩ hlocksu
      have hlockedu : locks u ip = true := by rw [hlocksu, hlocked]
      have hLu : ∀ x, x ≠ ip → locks u x = true → L x = true := hlocksu ▸ hLt
      have hbacku : Function.update (locks u) ip false = locks s := by rw [hlocksu, hback]
      have hrefu : 1 ≤ (u.cache ip).ref := by
        have hcount := hu.count ip
        have hgain := gain_nonneg o ip
        rw [Pi.add_apply] at hcount
        omega
      cases o with
      | none =>
        refine (iunlockput_locks hlockedu hrefu hLu).bind fun _ v hv' => ?_
        exact ends_ok.2 (hv'.trans hbacku)
      | some x =>
        obtain ⟨next, off⟩ := x
        have hu' : Cached B (R + one next + one ip) u := by
          rw [add_right_comm]
          exact hu
        have hsu' : Settled (R + one next) u := by
          intro i hi hn
          obtain ⟨x, hx, hxi⟩ := hlu.drop.settled hst i hi hn
          exact ⟨x, lt_add_one hx next, hxi⟩
        refine (iunlockput_looks hu' (add_one_nonneg hR next ip) hsu').bind_with
          (iunlockput_locks hlockedu hrefu hLu) ?_
        rintro _ v ⟨hv', hlv⟩ hlocksv
        have hback' : locks v = locks s := hlocksv.trans hbacku
        have hall : Looked R s v := (hlt.drop.trans hlu.drop).trans hlv.drop
        have hloop : Ends (fun _ w => locks w = locks v) (Stops L) (namexLoop parent next a names v) :=
          ih hv' (hall.settled hs) (fun b => hall.node ▸ hB b) fun x hx => hL x (hback' ▸ hx)
        exact hloop.post fun _ w hw => hw.trans hback'

theorem pathStart_locks {cwd : Entry} (hcwd : (s.proc p).cwd = some cwd) :
    Ends (fun _ t => locks t = locks s) (Stops L) (pathStart p path s) := by
  rw [pathStart]
  split_ifs
  · exact iget_locks ROOTINO
  · rw [run_get_bind, hcwd]
    exact idup_locks

end Xv6Container.Paths
