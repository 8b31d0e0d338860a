import Xv6Container.Plumbing.Sleepers
import Mathlib.Data.Finset.Max

/-! A pipeline does not come to a standstill: when everything below a node sleeps, then something there
waits for a pipe from above the node. Above the commands of the lines there are no pipes. -/

namespace Xv6Container.Plumbing

open Function Names
open Shell (Tree)

variable {X U : Type} {P : Programs U} {lines : List (List Char)} {g : Wiring}
  {m : Machine (Task U)} {p q : Slot} {x y : Task U} {σ τ : Path} {d : ℕ} {t u : Tree} {b : Bool}
  {fd : Fd}

/-! ### Nodes -/

theorem side_inj {b c : Bool} (h : side b = side c) : b = c := by
  cases b with
  | true =>
    cases c with
    | true => rfl
    | false => cases h
  | false =>
    cases c with
    | true => cases h
    | false => rfl

theorem tree_induction {motive : Tree → Prop}
    (h : ∀ t, (∀ d u, child t d = some u → motive u) → motive t) (t : Tree) : motive t := by
  induction t with
  | exec argv =>
    refine h _ fun d u hu => ?_
    cases hu
  | redir cmd file mode fd ih =>
    refine h _ fun d u hu => ?_
    obtain rfl | rfl : d = 0 ∨ d = 1 := by have := child_le hu; omega
    · exact Option.some.inj hu ▸ ih
    · cases hu
  | pipe left right ih ih' | list left right ih ih' =>
    refine h _ fun d u hu => ?_
    obtain rfl | rfl : d = 0 ∨ d = 1 := by have := child_le hu; omega
    · exact Option.some.inj hu ▸ ih
    · exact Option.some.inj hu ▸ ih'
  | back cmd ih =>
    refine h _ fun d u hu => ?_
    obtain rfl | rfl : d = 0 ∨ d = 1 := by have := child_le hu; omega
    · exact Option.some.inj hu ▸ ih
    · cases hu

theorem treeAt_suffix (h : treeAt lines τ = some t) (hτ : d :: σ <:+ τ) :
    ∃ u, treeAt lines (d :: σ) = some u := by
  induction τ generalizing t with
  | nil => exact absurd hτ.length_le (by simp)
  | cons e τ ih =>
    obtain heq | hτ := List.suffix_cons_iff.1 hτ
    · exact ⟨t, heq ▸ h⟩
    · cases τ with
      | nil => exact absurd hτ.length_le (by simp)
      | cons e' τ =>
        rw [treeAt] at h
        obtain ⟨u, hu, -⟩ := Option.bind_eq_some_iff.1 h
        exact ih hu hτ

theorem below_or_eq (h : σ <:+ τ) : τ = σ ∨ ∃ d, d :: σ <:+ τ := by
  obtain ⟨ρ, rfl⟩ := h
  induction ρ using List.reverseRecOn with
  | nil => exact .inl rfl
  | append_singleton ρ d _ =>
    refine .inr ⟨d, ρ, ?_⟩
    rw [List.append_assoc, List.singleton_append]

/-- The pipes come from pipelines. -/
theorem env_pipe {i : ℕ} (h : env lines σ i = .pipe τ b) :
    ∃ left right, treeAt lines τ = some (.pipe left right) := by
  induction σ generalizing i with
  | nil => cases h
  | cons d σ ih =>
    rw [env] at h
    cases ht : treeAt lines σ with
    | none =>
      rw [ht] at h
      exact ih h
    | some t =>
      rw [ht, Option.elim_some] at h
      obtain he | he | ⟨w, he, -⟩ := enter_eq (env lines σ) σ d t i
      · exact ih (he.symm.trans h)
      · cases he.symm.trans h
      · obtain ⟨rfl, rfl⟩ := Wire.pipe.inj (he.symm.trans h)
        cases t with
        | pipe left right => exact ⟨left, right, ht⟩
        | redir cmd file mode fd =>
          by_cases hi : i = fd
          · rw [enter, hi, update_self] at he
            cases he
          · rw [enter, update_of_ne hi] at he
            exact ih he
        | _ => exact ih he

/-! ### Pipes -/

/-- Who has nothing but what its command gets is, with an end of a pipe, on the side that uses it. -/
theorem Kept.side {W : Fd → Option Wire} (h : Kept (env lines σ) W)
    (hnode : σ = [] ∨ ∃ t, treeAt lines σ = some t) (hw : W fd = some (.pipe τ b)) :
    Plumbing.side b :: τ <:+ σ ∧ ∃ left right, treeAt lines τ = some (.pipe left right) := by
  obtain ⟨i, -, hi⟩ | ⟨f, hf⟩ := h fd _ hw
  · obtain hroot | ⟨t, ht⟩ := hnode
    · rw [hroot] at hi
      cases hi
    · exact ⟨env_side ht hi.symm, env_pipe hi.symm⟩
  · cases hf

theorem Inv.side_above (h : Inv lines g m) (hp : m.task p = some x) (hst : Rests (g.stage p))
    (hw : g.wires p fd = some (.pipe σ b)) :
    side b :: σ <:+ g.place p ∧ ∃ left right, treeAt lines σ = some (.pipe left right) :=
  have hstands := h.placed.stands p x hp
  (hstands.kept hst).side (hstands.node hst) hw

/-- Every process sleeps. -/
def Still (Q : Programs X) (m : Machine X) : Prop := ∀ p x, m.task p = some x → m.Sleeps Q p

/-- The other end of a pipe that somebody waits for belongs to a process on the other side. -/
theorem Inv.partner (h : Inv lines g m) (hstill : Still (withShell P) m) (hp : m.task p = some x)
    (hw : g.wires p fd = some (.pipe σ b)) (hb : Blocked g m σ b) :
    ∃ q y, m.task q = some y ∧ side (!b) :: σ <:+ g.place q := by
  obtain ⟨c, hc, hopen, -⟩ := hb
  have hisOpen : m.files.isOpen (g.page σ) (!b) = true := by
    rw [Files.State.isOpen, hc]
    exact hopen
  obtain ⟨q, y, fd', σ', hy, hw', hpage⟩ := h.wired.holder hisOpen
  obtain rfl := h.wired.inj σ' σ _ _ ⟨q, y, fd', hy, hw'⟩ ⟨p, x, fd, hp, hw⟩ hpage
  exact ⟨q, y, hy, (h.side_above hy (h.sleeper hy (hstill q y hy)).1 hw').1⟩

/-- Something below `σ` waits for the pipe at `τ`, which is not below `σ`. -/
structure Starved (g : Wiring) (m : Machine X) (σ τ : Path) (b : Bool) : Prop where
  blocked : Blocked g m τ b
  waits : ∃ p x fd, m.task p = some x ∧ σ <:+ g.place p ∧ g.wires p fd = some (.pipe τ b)
  outside : ¬ σ <:+ τ

/-- Seen from the parent the pipe is still outside, or it is that of the parent. -/
theorem Inv.escapes (h : Inv lines g m) (hstill : Still (withShell P) m)
    (hs : Starved g m (d :: σ) τ b) : Starved g m σ τ b ∨ τ = σ ∧ side b = d := by
  obtain ⟨hb, ⟨p, x, fd, hp, hbelow, hw⟩, hout⟩ := hs
  have hup := (List.suffix_cons d σ).trans hbelow
  by_cases hin : σ <:+ τ
  · have hside := (h.side_above hp (h.sleeper hp (hstill p x hp)).1 hw).1
    obtain heq | ⟨d', hd'⟩ := below_or_eq hin
    · rw [heq] at hside
      exact .inr ⟨heq, suffix_inj hside hbelow⟩
    · have hτ := (List.suffix_cons (side b) τ).trans hside
      obtain rfl := suffix_inj (hd'.trans hτ) hbelow
      exact absurd hd' hout
  · exact .inl ⟨hb, ⟨p, x, fd, hp, hup, hw⟩, hin⟩

/-! ### The descent -/

/-- A child of a process at rest is further down; the children of a program are where it is. -/
theorem Stands.kid_below {W : Fd → Option Wire} {st st' : Stage} (h : Stands lines σ W st x)
    (hst : Rests st) (hkid : KidAt σ st τ st') :
    (∃ d, d :: σ <:+ τ) ∨ τ = σ ∧ ∃ argv, treeAt lines σ = some (.exec argv) := by
  cases h with
  | mainWait k => exact .inl ⟨k, hkid⟩
  | listWait => exact .inl ⟨0, hkid⟩
  | wait2 | wait1 => exact .inl (hkid.elim (fun h => ⟨0, h⟩) fun h => ⟨1, h⟩)
  | user h _ => exact .inr ⟨hkid.1, _, h⟩
  | _ => cases hst

theorem Stands.program {W : Fd → Option Wire} (h : Stands lines σ W .user x) :
    ∃ argv, treeAt lines σ = some (.exec argv) := by
  cases h with
  | user h _ => exact ⟨_, h⟩

/-- What a process of the shell waits for is further down. -/
theorem Inv.deeper (h : Inv lines g m) (hstill : Still (withShell P) m)
    (ht : treeAt lines σ = some t) (hexec : ∀ argv, t ≠ .exec argv) (hp : m.task p = some x)
    (hbelow : σ <:+ g.place p) : ∃ d q y, m.task q = some y ∧ d :: σ <:+ g.place q := by
  obtain heq | ⟨d, hd⟩ := below_or_eq hbelow
  · have hstands := h.placed.stands p x hp
    obtain ⟨hst, ⟨q, y, hq, hy⟩ | ⟨huser, -⟩⟩ := h.sleeper hp (hstill p x hp)
    · have hkid := h.family.kidAt p q x y hq hp hy
      rw [heq] at hstands hkid
      obtain ⟨d, hd⟩ | ⟨-, argv, hargv⟩ := hstands.kid_below hst hkid
      · exact ⟨d, q, y, hy, hd⟩
      · exact absurd (Option.some.inj (ht.symm.trans hargv)) (hexec argv)
    · rw [heq, huser] at hstands
      obtain ⟨argv, hargv⟩ := hstands.program
      exact absurd (Option.some.inj (ht.symm.trans hargv)) (hexec argv)
  · exact ⟨d, p, x, hp, hd⟩

/-- Among the processes of a program one has no children. -/
theorem Inv.program (h : Inv lines g m) (hstill : Still (withShell P) m) {argv : List (List Char)}
    (ht : treeAt lines σ = some (.exec argv)) (hp : m.task p = some x)
    (hbelow : σ <:+ g.place p) : ∃ τ b, Starved g m σ τ b := by
  have hhere : ∀ q y, m.task q = some y → σ <:+ g.place q → g.place q = σ := by
    intro q y hy hq
    obtain heq | ⟨d, hd⟩ := below_or_eq hq
    · exact heq
    · obtain hroot | ⟨u, hu⟩ := (h.placed.stands q y hy).node (h.sleeper hy (hstill q y hy)).1
      · rw [hroot] at hd
        exact absurd hd.length_le (by simp)
      · obtain ⟨v, hv⟩ := treeAt_suffix hu hd
        rw [treeAt_cons ht] at hv
        cases hv
  let here : Finset Slot := {q | (m.task q).isSome ∧ g.place q = σ}
  have hmem : ∀ q y, m.task q = some y → g.place q = σ → q ∈ here := by
    intro q y hy hq
    exact Finset.mem_filter.2 ⟨Finset.mem_univ q, by rw [hy]; rfl, hq⟩
  obtain ⟨q, hq, hmax⟩ := here.exists_max_image m.pid ⟨p, hmem p x hp (hhere p x hp hbelow)⟩
  obtain ⟨hlive, hplace⟩ := (Finset.mem_filter.1 hq).2
  obtain ⟨y, hy⟩ := Option.isSome_iff_exists.1 hlive
  have hstands := h.placed.stands q y hy
  obtain ⟨hst, ⟨r, z, hr, hz⟩ | ⟨-, fd, τ, b, hw, hb⟩⟩ := h.sleeper hy (hstill q y hy)
  · -- the youngest of them waits for a process that is younger
    have hkid := h.family.kidAt q r y z hr hy hz
    have hyounger := h.family.pid q r hr
    rw [hplace] at hstands hkid
    have hbelow : σ <:+ g.place r := by
      obtain ⟨d, hd⟩ | ⟨heq, -⟩ := hstands.kid_below hst hkid
      · exact (List.suffix_cons d σ).trans hd
      · rw [heq]
    exact absurd (hmax r (hmem r z hz (hhere r z hz hbelow))) (Nat.not_le.2 hyounger)
  · have hside := (h.side_above hy hst hw).1
    rw [hplace] at hside
    refine ⟨τ, b, hb, ⟨q, y, fd, hy, hplace ▸ List.suffix_refl _, hw⟩, fun hσ => ?_⟩
    exact not_below _ _ (hside.trans hσ)

/-- When everything sleeps, every command with processes waits for a pipe from above it. -/
theorem Inv.starved (h : Inv lines g m) (hstill : Still (withShell P) m)
    (ht : treeAt lines σ = some t) (hp : m.task p = some x) (hbelow : σ <:+ g.place p) :
    ∃ τ b, Starved g m σ τ b := by
  induction t using tree_induction generalizing σ p x with | h t ih =>
  have hchild : ∀ {d q y}, m.task q = some y → d :: σ <:+ g.place q →
      ∃ τ b, Starved g m (d :: σ) τ b := by
    intro d q y hy hd
    obtain hroot | ⟨v, hv⟩ := (h.placed.stands q y hy).node (h.sleeper hy (hstill q y hy)).1
    · rw [hroot] at hd
      exact absurd hd.length_le (by simp)
    · obtain ⟨u, hu⟩ := treeAt_suffix hv hd
      exact ih d u (treeAt_cons ht d ▸ hu) hu hy hd
  by_cases hexec : ∃ argv, t = .exec argv
  · obtain ⟨argv, rfl⟩ := hexec
    exact h.program hstill ht hp hbelow
  · obtain ⟨d, q, y, hy, hd⟩ := h.deeper hstill ht (fun argv heq => hexec ⟨argv, heq⟩) hp hbelow
    obtain ⟨τ, b, hτ⟩ := hchild hy hd
    obtain hout | ⟨rfl, -⟩ := h.escapes hstill hτ
    · exact ⟨τ, b, hout⟩
    -- both ends of the pipe of this node would wait
    · obtain ⟨hb, ⟨r, z, fd, hz, -, hw⟩, -⟩ := hτ
      obtain ⟨q', y', hy', hd'⟩ := h.partner hstill hz hw hb
      obtain ⟨τ', b', hτ'⟩ := hchild hy' hd'
      obtain hout | ⟨rfl, hside⟩ := h.escapes hstill hτ'
      · exact ⟨τ', b', hout⟩
      · obtain rfl := side_inj hside
        exact (hb.not_both hτ'.blocked).elim

/-- Somebody goes on. -/
theorem Inv.goes_on (h : Inv lines g m) (hp : m.task p = some x) : ¬ Still (withShell P) m := by
  intro hstill
  have hline : ∀ {q y k}, m.task q = some y → [k] <:+ g.place q → False := by
    intro q y k hy hk
    obtain hroot | ⟨v, hv⟩ := (h.placed.stands q y hy).node (h.sleeper hy (hstill q y hy)).1
    · rw [hroot] at hk
      exact absurd hk.length_le (by simp)
    · obtain ⟨t, ht⟩ := treeAt_suffix hv hk
      obtain ⟨τ, b, hτ⟩ := h.starved hstill ht hy hk
      obtain hout | ⟨rfl, -⟩ := h.escapes hstill hτ
      · exact hout.outside (List.nil_suffix)
      · obtain ⟨-, ⟨r, z, fd, hz, -, hw⟩, -⟩ := hτ
        obtain ⟨-, left, right, hroot⟩ := h.side_above hz (h.sleeper hz (hstill r z hz)).1 hw
        cases hroot
  obtain heq | ⟨k, hk⟩ := below_or_eq (List.nil_suffix (l := g.place p))
  · have hstands := h.placed.stands p x hp
    obtain ⟨hst, ⟨q, y, hq, hy⟩ | ⟨huser, -⟩⟩ := h.sleeper hp (hstill p x hp)
    · have hkid := h.family.kidAt p q x y hq hp hy
      rw [heq] at hstands hkid
      obtain ⟨k, hk⟩ | ⟨-, argv, hroot⟩ := hstands.kid_below hst hkid
      · exact hline hy hk
      · cases hroot
    · rw [heq, huser] at hstands
      obtain ⟨argv, hroot⟩ := hstands.program
      cases hroot
  · exact hline hp hk

end Xv6Container.Plumbing
