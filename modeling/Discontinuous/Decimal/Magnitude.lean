/-!
The exact value of a machine float, and the float nearest to an exact value. A finite positive
float is `mantissa * 2 ^ exponent` with a mantissa below `2 ^ 53`.
-/
namespace Discontinuous.Decimal

/-- A finite value without its sign. -/
structure Magnitude where
  mantissa : Nat
  exponent : Int

inductive FloatClass where
  | nan
  | infinite (negative : Bool)
  | finite (negative : Bool) (value : Magnitude)

def mantissaBits : Nat := 52

/-- The least mantissa of 53 bits, `2 ^ 52`. -/
def leastMantissa : Nat := 0x10000000000000

/-- The scale of infinities and of what is no number, all eleven bits set. -/
def infiniteScale : Nat := 0x7FF

/-- The exponent of the smallest floats, and of the unit of their mantissas. -/
def minExponent : Int := -1074

def classify (x : Float) : FloatClass :=
  let bits := x.toBits.toNat
  let negative := bits >>> 63 == 1
  let scale := (bits >>> mantissaBits) % (infiniteScale + 1)
  let fraction := bits % leastMantissa
  if scale = infiniteScale then if fraction = 0 then .infinite negative else .nan
  else if scale = 0 then .finite negative ⟨fraction, minExponent⟩
  else .finite negative ⟨fraction + leastMantissa, minExponent + (scale - 1 : Nat)⟩

/-- Rounds `a / b` to the nearest integer, a half to the even one. -/
def roundDiv (a b : Nat) : Nat :=
  let q := a / b
  let r := a % b
  if 2 * r < b ∨ 2 * r = b ∧ q % 2 = 0 then q else q + 1

/-- The exponent of the float nearest to `num / den`: its mantissa gets 53 bits, or fewer if the
exponent is the least one. -/
def exponentFor (num den : Nat) : Int :=
  let guess := (num.log2 : Int) - (den.log2 : Int) - mantissaBits
  let fits := if 0 ≤ guess then den <<< (guess.toNat + mantissaBits) ≤ num
    else den <<< mantissaBits ≤ num <<< (-guess).toNat
  let exact := if fits then guess else guess - 1
  if exact < minExponent then minExponent else exact

/-- The bits of the float nearest to `num / den`, a tie to the even mantissa. -/
def nearestBits (num den : Nat) : UInt64 :=
  if num = 0 then 0
  else
    let e := exponentFor num den
    let m := if 0 ≤ e then roundDiv num (den <<< e.toNat)
      else roundDiv (num <<< (-e).toNat) den
    let steps := (e - minExponent).toNat
    -- Rounding up to the next power of two carries into the exponent by itself.
    let bits := (steps <<< mantissaBits) + m
    let infinite := infiniteScale <<< mantissaBits
    (if bits < infinite then bits else infinite).toUInt64

def nearest (digits : Nat) (power : Int) : Float :=
  if digits = 0 then 0
  else
    -- Far outside the range of floats the value need not be computed.
    let places := (digits.log2 : Int) / 3 + power
    if places < -400 then 0
    else if power > 400 then 1.0 / 0.0
    else if 0 ≤ power then Float.ofBits (nearestBits (digits * Nat.pow 10 power.toNat) 1)
    else Float.ofBits (nearestBits digits (Nat.pow 10 (-power).toNat))

end Discontinuous.Decimal
