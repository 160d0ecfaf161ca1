import Discontinuous.Decimal.Digits

/-!
How costs are written: plainly, or with an exponent where the plain form would be long.
-/
namespace Discontinuous.Decimal

structure Style where
  /-- The number of digits, or none for the fewest that read back. -/
  places : Option Nat
  /-- The least exponent that is written out. -/
  exponentFrom : Int

/-- Costs of clauses: all digits, with an exponent from one million on. -/
def exactStyle : Style := ⟨none, 6⟩

/-- Costs of items: four digits, with an exponent from ten thousand on. -/
def briefStyle : Style := ⟨some 4, 4⟩

def digitString (digits : List Nat) : String :=
  String.ofList (digits.map fun d => Char.ofNat (0x30 + d))

/-- The form `d.ddde±dd`. -/
def withExponent (d : Digits) : String :=
  let e := d.point - 1
  let fraction := d.digits.drop 1
  let mantissa := digitString (d.digits.take 1) ++
    if fraction.isEmpty then "" else "." ++ digitString fraction
  let size := e.natAbs
  mantissa ++ (if e < 0 then "e-" else "e+") ++ (if size < 10 then "0" else "") ++ toString size

/-- The form `ddd.ddd`. -/
def plainly (d : Digits) : String :=
  if d.point ≤ 0 then
    "0." ++ digitString (List.replicate (-d.point).toNat 0 ++ d.digits)
  else
    let whole := d.point.toNat
    let fraction := d.digits.drop whole
    digitString (d.digits.take whole ++ List.replicate (whole - d.digits.length) 0) ++
      if fraction.isEmpty then "" else "." ++ digitString fraction

def writtenMagnitude (style : Style) (v : Magnitude) : String :=
  if v.mantissa = 0 then "0"
  else
    let d := match style.places with
      | none => v.shortest
      | some places => v.rounded places
    let e := d.point - 1
    if e < -4 ∨ style.exponentFrom ≤ e then withExponent d else plainly d

def written (style : Style) (x : Float) : String :=
  match classify x with
  | .nan => "NaN"
  | .infinite negative => if negative then "-Inf" else "+Inf"
  | .finite negative v => (if negative then "-" else "") ++ writtenMagnitude style v

end Discontinuous.Decimal
