import Std.Data.TreeMap

namespace Retention

/-- The name of a heap object. -/
structure ObjectId where
  value : UInt64
  deriving DecidableEq, Inhabited

namespace ObjectId

instance : Ord ObjectId := ⟨fun a b => compare a.value b.value⟩

instance : LE ObjectId := ⟨fun a b => a.value ≤ b.value⟩

instance : LT ObjectId := ⟨fun a b => a.value < b.value⟩

instance (a b : ObjectId) : Decidable (a ≤ b) := inferInstanceAs (Decidable (a.value ≤ b.value))

instance (a b : ObjectId) : Decidable (a < b) := inferInstanceAs (Decidable (a.value < b.value))

instance : Std.TransOrd ObjectId where
  eq_swap {a b} := Std.OrientedOrd.eq_swap (α := UInt64) (a := a.value) (b := b.value)
  isLE_trans {a b c} := Std.TransOrd.isLE_trans (α := UInt64) (a := a.value) (b := b.value) (c := c.value)

instance : Std.LawfulEqOrd ObjectId where
  compare_self {a} := Std.ReflOrd.compare_self (α := UInt64) (a := a.value)
  eq_of_compare {a b} h := by
    have hv : a.value = b.value := Std.LawfulEqOrd.eq_of_compare (α := UInt64) h
    cases a; cases b; simpa using hv

/-- Digits padded on the left with zeros to at least `width` places. -/
def padDigits (width : Nat) (digits : List Char) : List Char :=
  List.replicate (width - digits.length) '0' ++ digits

/-- Ids print in lower-case hexadecimal with at least eight digits. -/
def hexDigits (id : ObjectId) : List Char :=
  padDigits 8 (Nat.toDigits 16 id.value.toNat)

def text (id : ObjectId) : String := String.ofList ('0' :: 'x' :: id.hexDigits)

/-- The form used inside structural dumps of a value. -/
def debugText (id : ObjectId) : String := s!"ObjectId({id.value.toNat})"

end ObjectId

end Retention
