namespace Retention

variable {α : Type}

/-- Puts the value of each pair into the bucket its number names; numbers out of range are dropped. -/
def buckets (count : Nat) (pairs : List (Nat × α)) : Array (List α) :=
  pairs.foldr (fun p acc => acc.modify p.1 (p.2 :: ·)) (Array.replicate count [])

@[simp] theorem size_buckets (count : Nat) (pairs : List (Nat × α)) :
    (buckets count pairs).size = count := by
  induction pairs with
  | nil => simp [buckets]
  | cons p rest ih => simpa [buckets] using ih

/-- A bucket holds the values of the pairs that name it, in order. -/
theorem getElem?_buckets (count : Nat) (pairs : List (Nat × α)) {i : Nat} (h : i < count) :
    (buckets count pairs)[i]? = some ((pairs.filter (·.1 == i)).map (·.2)) := by
  induction pairs with
  | nil => simp [buckets, h]
  | cons p rest ih =>
    have ih' : (rest.foldr (fun p acc => acc.modify p.1 (p.2 :: ·)) (Array.replicate count []))[i]? =
        some ((rest.filter (·.1 == i)).map (·.2)) := ih
    simp only [buckets, List.foldr_cons, Array.getElem?_modify, ih']
    by_cases hp : p.1 = i
    · simp [hp]
    · simp [hp]

end Retention
