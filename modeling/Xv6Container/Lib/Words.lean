import Mathlib.Tactic.Common
import Mathlib.Algebra.Ring.Nat

/-! Little-endian words of four bytes in a memory of bytes, and the filling of a range. -/

namespace Xv6Container.Lib

variable {m m' : ℕ → UInt8} {a b n w : ℕ} {v : UInt8}

/-- The word that begins at `a`. -/
def word (m : ℕ → UInt8) (a : ℕ) : ℕ :=
  (m a).toNat + 256 * (m (a + 1)).toNat + 65536 * (m (a + 2)).toNat +
    16777216 * (m (a + 3)).toNat

def setWord (m : ℕ → UInt8) (a w : ℕ) : ℕ → UInt8 :=
  fun b => if a ≤ b ∧ b < a + 4 then .ofNat (w / 256 ^ (b - a)) else m b

/-- `n` bytes from `a` on are `v`. -/
def fill (m : ℕ → UInt8) (a : ℕ) (v : UInt8) (n : ℕ) : ℕ → UInt8 :=
  fun b => if a ≤ b ∧ b < a + n then v else m b

theorem word_lt (m : ℕ → UInt8) (a : ℕ) : word m a < 2 ^ 32 := by
  have h := fun b => (m b).toNat_lt
  have h0 := h a
  have h1 := h (a + 1)
  have h2 := h (a + 2)
  have h3 := h (a + 3)
  unfold word
  omega

theorem word_congr (h : ∀ b, a ≤ b → b < a + 4 → m b = m' b) : word m a = word m' a := by
  unfold word
  rw [h a (by omega) (by omega), h (a + 1) (by omega) (by omega), h (a + 2) (by omega) (by omega),
    h (a + 3) (by omega) (by omega)]

theorem setWord_of_notMem (hb : ¬ (a ≤ b ∧ b < a + 4)) : setWord m a w b = m b := if_neg hb

theorem word_setWord (m : ℕ → UInt8) (a w : ℕ) : word (setWord m a w) a = w % 2 ^ 32 := by
  have h : ∀ k < 4, (setWord m a w (a + k)).toNat = w / 256 ^ k % 256 := by
    intro k hk
    rw [setWord, if_pos ⟨by omega, by omega⟩, Nat.add_sub_cancel_left]
    rfl
  have h0 := h 0 (by omega)
  have h1 := h 1 (by omega)
  have h2 := h 2 (by omega)
  have h3 := h 3 (by omega)
  simp only [Nat.add_zero] at h0
  rw [word, h0, h1, h2, h3]
  omega

theorem word_setWord_of_disjoint (h : a + 4 ≤ b ∨ b + 4 ≤ a) :
    word (setWord m a w) b = word m b := by
  refine word_congr fun c h1 h2 => setWord_of_notMem ?_
  omega

theorem fill_of_mem (hb : a ≤ b) (hb' : b < a + n) : fill m a v n b = v := if_pos ⟨hb, hb'⟩

theorem fill_of_notMem (hb : ¬ (a ≤ b ∧ b < a + n)) : fill m a v n b = m b := if_neg hb

theorem word_fill_zero (hb : a ≤ b) (hb' : b + 4 ≤ a + n) : word (fill m a 0 n) b = 0 := by
  have h : ∀ c, b ≤ c → c < b + 4 → fill m a 0 n c = 0 :=
    fun c h1 h2 => fill_of_mem (by omega) (by omega)
  rw [word, h b (by omega) (by omega), h (b + 1) (by omega) (by omega),
    h (b + 2) (by omega) (by omega), h (b + 3) (by omega) (by omega)]
  rfl

end Xv6Container.Lib
