import Discontinuous.Decimal.Magnitude

/-!
Decimal digits of floats: the fewest that read back as the same float, or a fixed number of them.
-/
namespace Discontinuous.Decimal

/-- The value `0.d₁d₂… * 10 ^ point`. The first and the last digit are not zero. -/
structure Digits where
  digits : List Nat
  point : Int

structure Ratio where
  num : Nat
  den : Nat

def Magnitude.ratio (v : Magnitude) : Ratio :=
  if 0 ≤ v.exponent then ⟨v.mantissa <<< v.exponent.toNat, 1⟩
  else ⟨v.mantissa, 1 <<< (-v.exponent).toNat⟩

/-- The value `r / 10 ^ k`. -/
def Ratio.scale (r : Ratio) (k : Int) : Ratio :=
  if 0 ≤ k then ⟨r.num, r.den * Nat.pow 10 k.toNat⟩ else ⟨r.num * Nat.pow 10 (-k).toNat, r.den⟩

/-- The digits of `n`, lowest first. The fuel bounds their number. -/
def lowDigits : Nat → Nat → List Nat
  | 0, _ => []
  | fuel + 1, n => if n = 0 then [] else n % 10 :: lowDigits fuel (n / 10)

/-- The digits of `n * 10 ^ unit`. -/
def Digits.of (n : Nat) (unit : Int) : Digits :=
  let low := lowDigits (n.log2 + 1) n
  ⟨(low.dropWhile (· == 0)).reverse, unit + low.length⟩

/-- The exponent `e` with `10 ^ e ≤ r < 10 ^ (e + 1)`. -/
def Ratio.magnitude (r : Ratio) : Int :=
  let guess := ((r.num.log2 : Int) - (r.den.log2 : Int)) * 30103 / 100000 - 1
  let atLeast (e : Int) : Bool :=
    let s := r.scale e
    s.den ≤ s.num
  if atLeast (guess + 2) then guess + 2 else if atLeast (guess + 1) then guess + 1 else guess

/-- The values that read back as the float `v`, between the middles to its neighbours. All are
multiples of a quarter of its unit. -/
structure Interval where
  low : Ratio
  high : Ratio
  closed : Bool

def Magnitude.interval (v : Magnitude) : Interval :=
  let quarter : Magnitude → Ratio := fun w => { w with exponent := w.exponent - 2 }.ratio
  -- The neighbour below a power of two is only half as far away.
  let below := if v.mantissa = leastMantissa ∧ minExponent < v.exponent then 1 else 2
  { low := quarter ⟨4 * v.mantissa - below, v.exponent⟩
    high := quarter ⟨4 * v.mantissa + 2, v.exponent⟩
    closed := v.mantissa % 2 == 0 }

def Interval.contains (i : Interval) (r : Ratio) : Bool :=
  let low := i.low.num * r.den
  let high := i.high.num * r.den
  let x := fun (bound : Ratio) => r.num * bound.den
  if i.closed then low ≤ x i.low && x i.high ≤ high else low < x i.low && x i.high < high

/-- The neighbours of `v` on the grid of `10 ^ unit` that read back, the nearer one first, of two
equally near ones the even one. -/
def Magnitude.onGrid (v : Magnitude) (unit : Int) : List Nat :=
  let s := v.ratio.scale unit
  let n := s.num / s.den
  let candidates := if roundDiv s.num s.den = n then [n, n + 1] else [n + 1, n]
  candidates.filter fun k => v.interval.contains (Ratio.scale ⟨k, 1⟩ (-unit))

def Magnitude.shortestFrom (v : Magnitude) (e : Int) (places : Nat) : Nat → Digits
  | 0 => .of (v.ratio.num / v.ratio.den) 0
  | fuel + 1 =>
    let unit := e + 1 - places
    match v.onGrid unit with
    | n :: _ => .of n unit
    | [] => v.shortestFrom e (places + 1) fuel

/-- The fewest digits that read back. Seventeen always do. -/
def Magnitude.shortest (v : Magnitude) : Digits := v.shortestFrom v.ratio.magnitude 1 17

/-- The nearest value of `places` digits, a tie to the even last digit. -/
def Magnitude.rounded (v : Magnitude) (places : Nat) : Digits :=
  let unit := v.ratio.magnitude + 1 - places
  let s := v.ratio.scale unit
  .of (roundDiv s.num s.den) unit

end Discontinuous.Decimal
