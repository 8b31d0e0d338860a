import Mathlib.Algebra.Ring.Nat

/-! Numerals of the index types `Fin n`, for the sizes of the tables and buffers. With an instance
for each size a numeral carries no proof of its own that the type is not empty. -/

namespace Xv6Container.Lib

instance neZero_8 : NeZero 8 := ⟨by decide⟩

instance neZero_50 : NeZero 50 := ⟨by decide⟩

instance neZero_64 : NeZero 64 := ⟨by decide⟩

instance neZero_128 : NeZero 128 := ⟨by decide⟩

instance neZero_200 : NeZero 200 := ⟨by decide⟩

instance neZero_512 : NeZero 512 := ⟨by decide⟩

end Xv6Container.Lib
