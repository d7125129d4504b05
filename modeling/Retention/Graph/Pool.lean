namespace Retention

structure Pool (α : Type) where
  slots : Array (Option α)

namespace Pool

variable {α : Type}

def ofArray (items : Array α) : Pool α := ⟨items.map some⟩

def get? (p : Pool α) (i : Nat) : Option α := (p.slots[i]?).join

def erase (p : Pool α) (i : Nat) : Pool α := ⟨p.slots.setIfInBounds i none⟩

/-- The sum of the weights of what is still in the pool. -/
def weight (f : α → Nat) (p : Pool α) : Nat :=
  p.slots.toList.foldr (fun slot rest => slot.elim 0 f + rest) 0

theorem get?_erase_self (p : Pool α) (i : Nat) : (p.erase i).get? i = none := by
  simp only [get?, erase, Array.getElem?_setIfInBounds]
  split
  · split <;> simp
  · contradiction

theorem get?_erase_of_ne (p : Pool α) {i j : Nat} (h : i ≠ j) : (p.erase i).get? j = p.get? j := by
  simp [get?, erase, h]

theorem foldr_set_none (f : α → Nat) (slots : List (Option α)) (i : Nat) (a : α)
    (h : slots[i]? = some (some a)) :
    (slots.set i none).foldr (fun slot rest => slot.elim 0 f + rest) 0 + f a =
      slots.foldr (fun slot rest => slot.elim 0 f + rest) 0 := by
  induction slots generalizing i with
  | nil => simp at h
  | cons slot rest ih =>
    cases i with
    | zero =>
      simp at h
      simp [h]
      omega
    | succ i =>
      have ih' := ih i (by simpa using h)
      simp only [List.set_cons_succ, List.foldr_cons]
      omega

/-- Taking an item out lowers the weight by its own. -/
theorem weight_erase (f : α → Nat) (p : Pool α) {i : Nat} {a : α} (h : p.get? i = some a) :
    (p.erase i).weight f + f a = p.weight f := by
  have hs : p.slots.toList[i]? = some (some a) := by
    simpa [get?, Option.join_eq_some_iff] using h
  simpa [weight, erase, Array.toList_setIfInBounds] using foldr_set_none f p.slots.toList i a hs

end Pool

end Retention
