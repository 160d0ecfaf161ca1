/-!
Two's complement words. Positions and lengths are integers here, and the sums that a machine word
would wrap are wrapped by name.
-/
namespace Discontinuous.Word

/-- One more than the largest signed word, `2 ^ 63`. -/
def bound : Nat := 0x8000000000000000

/-- The representative of `x` modulo `2 ^ 64` between `-2 ^ 63` and `2 ^ 63 - 1`. -/
def wrap (x : Int) : Int := x.bmod 0x10000000000000000

/-- The representative of `x` modulo `2 ^ 32` between `-2 ^ 31` and `2 ^ 31 - 1`. -/
def wrapHalf (x : Int) : Int := x.bmod 0x100000000

/-- The representative of `x` modulo `2 ^ 64` that is not negative. Negative words come out greater
than all others. -/
def unsigned (x : Int) : Nat := (x % 0x10000000000000000).toNat

theorem wrap_of_bounds {x : Int} (lo : -(bound : Int) ≤ x) (hi : x < bound) : wrap x = x := by
  unfold wrap
  unfold bound at lo hi
  rw [Int.bmod_eq_of_le] <;> omega

theorem unsigned_of_lt {n : Nat} (h : n < bound) : unsigned n = n := by
  unfold unsigned
  unfold bound at h
  omega

/-- Shifts bits to the left. A count outside `0 … 63` shifts all of them out. -/
def shiftLeft (bits : UInt64) (count : Int) : UInt64 :=
  if 0 ≤ count ∧ count < 64 then bits <<< count.toNat.toUInt64 else 0

/-- The lowest `count` bits set; all bits for a count outside `0 … 63`. -/
def ones (count : Int) : UInt64 := shiftLeft 1 count - 1

end Discontinuous.Word
