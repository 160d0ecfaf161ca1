import Discontinuous.Label
import Discontinuous.Span

/-!
Keys: a label and a span packed into one word, ten bits for each boundary and the bits above them
for the label.
-/
namespace Discontinuous

structure Key where
  bits : UInt64
deriving DecidableEq

instance : Keyed Key where
  code k := [(k.bits.toNat : Int)]
  code_injective a b h := by
    simp only [List.cons.injEq, and_true] at h
    have : a.bits = b.bits := UInt64.toNat_inj.mp (Int.ofNat_inj.mp h)
    cases a
    cases b
    simpa using this

namespace Key

/-- The largest position that a key tells apart: ten bits hold it after it is shifted by one, with
one value to spare. -/
def maxPosition : Nat := 1022

/-- Makes room for a boundary below `bits`. Boundaries are shifted by one, the unset one to zero. -/
def pack (bits : UInt64) (boundary : Int) : UInt64 :=
  (bits <<< 10) ||| UInt64.ofInt (boundary + 1)

def of (label : Label) (s : Span) : Key :=
  ⟨pack (pack (pack (pack (UInt64.ofInt label.id) s.l1) s.r1) s.l2) s.r2⟩

def label (k : Key) : Label := ⟨((k.bits >>> 40).toNat : Int)⟩

def unpack (k : Key) (place : UInt64) : Int :=
  (((k.bits >>> place) &&& 1023).toNat : Int) - 1

def span (k : Key) : Span := ⟨k.unpack 30, k.unpack 20, k.unpack 10, k.unpack 0⟩

end Key

end Discontinuous
