import Std.Data.TreeMap

/-!
Finite maps. Keys of every type are told apart and ordered by a list of integers, so one lawful
comparison serves all maps of the library.
-/
namespace Discontinuous

/-- Types with an injective code. -/
class Keyed (κ : Type) where
  code : κ → List Int
  code_injective : ∀ a b, code a = code b → a = b

namespace Keyed

def order (a b : Int) : Ordering := if a < b then .lt else if a = b then .eq else .gt

instance : Std.TransCmp order := inferInstanceAs (@Std.TransOrd Int instOrdInt)

instance : Std.LawfulEqCmp order := inferInstanceAs (@Std.LawfulEqOrd Int instOrdInt)

def cmp {κ : Type} [Keyed κ] (a b : κ) : Ordering := List.compareLex order (code a) (code b)

instance {κ : Type} [Keyed κ] : Std.TransCmp (@cmp κ _) where
  eq_swap {a b} := @Std.OrientedCmp.eq_swap _ (List.compareLex order) _ (code a) (code b)
  isLE_trans {a b c} :=
    @Std.TransCmp.isLE_trans _ (List.compareLex order) _ (code a) (code b) (code c)

instance {κ : Type} [Keyed κ] : Std.LawfulEqCmp (@cmp κ _) where
  compare_self {a} := @Std.ReflCmp.compare_self _ (List.compareLex order) _ (code a)
  eq_of_compare {a b} h :=
    code_injective a b (@Std.LawfulEqCmp.eq_of_compare _ (List.compareLex order) _ _ _ h)

end Keyed

/-- A finite map, listed in the order of its keys' codes. -/
abbrev Map (κ : Type) [Keyed κ] (β : Type) := Std.TreeMap κ β Keyed.cmp

instance : Keyed Nat where
  code a := [(a : Int)]
  code_injective a b h := by
    simp only [List.cons.injEq, and_true] at h
    exact Int.ofNat_inj.mp h

instance : Keyed UInt64 where
  code a := [(a.toNat : Int)]
  code_injective a b h := by
    simp only [List.cons.injEq, and_true] at h
    exact UInt64.toNat_inj.mp (Int.ofNat_inj.mp h)

instance : Keyed String where
  code s := s.toList.map fun c => (c.toNat : Int)
  code_injective a b h := by
    have inj : ∀ c d : Char, (c.toNat : Int) = (d.toNat : Int) → c = d := fun c d e =>
      Char.toNat_inj.mp (Int.ofNat_inj.mp e)
    exact String.toList_inj.mp (List.map_inj_right (by simpa using inj) |>.mp h)

end Discontinuous
