import Mathlib.Tactic.ByContra
import Retention.Dominator.Estimate

namespace Retention.Estimates

variable {e : Estimates} {a b d m r u v w : Nat}

/-- The numbers from a vertex to the entry, the vertex itself first. -/
def chain (e : Estimates) (r : Nat) : List Nat :=
  if r = 0 then [0] else r :: e.chain (e.climb r)
termination_by r
decreasing_by exact e.climb_lt (Nat.pos_of_ne_zero ‹_›)

theorem chain_zero (e : Estimates) : e.chain 0 = [0] := by
  rw [chain, if_pos rfl]

theorem chain_of_pos (e : Estimates) (h : 0 < r) : e.chain r = r :: e.chain (e.climb r) := by
  rw [chain, if_neg (Nat.ne_of_gt h)]

theorem mem_chain_zero : u ∈ e.chain 0 ↔ u = 0 := by
  rw [chain_zero, List.mem_singleton]

theorem mem_chain_of_pos (h : 0 < r) : u ∈ e.chain r ↔ u = r ∨ u ∈ e.chain (e.climb r) := by
  rw [chain_of_pos e h, List.mem_cons]

theorem self_mem_chain (e : Estimates) (r : Nat) : r ∈ e.chain r := by
  rcases Nat.eq_zero_or_pos r with rfl | h
  · exact mem_chain_zero.mpr rfl
  · exact (mem_chain_of_pos h).mpr (.inl rfl)

theorem le_of_mem_chain (h : u ∈ e.chain r) : u ≤ r := by
  induction r using Nat.strongRecOn with
  | ind r ih =>
    rcases Nat.eq_zero_or_pos r with rfl | hr
    · exact Nat.le_of_eq (mem_chain_zero.mp h)
    · rcases (mem_chain_of_pos hr).mp h with rfl | h
      · exact Nat.le_refl u
      · have hc := e.climb_lt hr
        have hu := ih _ hc h
        omega

theorem mem_chain_climb (h : u ∈ e.chain r) (hne : u ≠ r) : u ∈ e.chain (e.climb r) := by
  rcases Nat.eq_zero_or_pos r with rfl | hr
  · exact absurd (mem_chain_zero.mp h) hne
  · exact ((mem_chain_of_pos hr).mp h).resolve_left hne

theorem mem_chain_of_climb (hr : 0 < r) (h : u ∈ e.chain (e.climb r)) : u ∈ e.chain r :=
  (mem_chain_of_pos hr).mpr (.inr h)

theorem mem_chain_trans (huv : u ∈ e.chain v) (hvw : v ∈ e.chain w) : u ∈ e.chain w := by
  induction w using Nat.strongRecOn with
  | ind w ih =>
    rcases Nat.eq_zero_or_pos w with rfl | hw
    · rwa [mem_chain_zero.mp hvw] at huv
    · rcases (mem_chain_of_pos hw).mp hvw with rfl | hvw
      · exact huv
      · exact mem_chain_of_climb hw (ih _ (e.climb_lt hw) hvw)

/-- Of two numbers on a chain the smaller one lies on the chain of the larger one. -/
theorem mem_chain_of_le (hu : u ∈ e.chain w) (hv : v ∈ e.chain w) (huv : u ≤ v) : u ∈ e.chain v := by
  induction w using Nat.strongRecOn with
  | ind w ih =>
    rcases Nat.eq_zero_or_pos w with rfl | hw
    · rw [mem_chain_zero.mp hv]
      exact hu
    · rcases (mem_chain_of_pos hw).mp hv with rfl | hv
      · exact hu
      · have hle := le_of_mem_chain hv
        have hlt := e.climb_lt hw
        exact ih _ hlt (mem_chain_climb hu (by omega)) hv

/-- A vertex is the largest number on its chain, so the chain determines it. -/
theorem eq_of_same_chain (h : ∀ u, u ∈ e.chain a ↔ u ∈ e.chain b) : a = b := by
  have hab := le_of_mem_chain ((h a).mp (e.self_mem_chain a))
  have hba := le_of_mem_chain ((h b).mpr (e.self_mem_chain b))
  exact Nat.le_antisymm hab hba

/-- Two vertices meet at the nearest number on both chains. -/
theorem mem_chain_meet : u ∈ e.chain (e.meet a b) ↔ u ∈ e.chain a ∧ u ∈ e.chain b := by
  fun_induction meet e a b with
  | case1 b => exact (and_self_iff).symm
  | case2 a b hne hlt ih =>
    rw [ih, mem_chain_of_pos (Nat.zero_lt_of_lt hlt)]
    constructor
    · exact fun h => ⟨.inr h.1, h.2⟩
    · rintro ⟨rfl | ha, hb⟩
      · have hle := le_of_mem_chain hb
        omega
      · exact ⟨ha, hb⟩
  | case3 a b hne hlt ih =>
    have hb : 0 < b := by omega
    rw [ih, mem_chain_of_pos hb]
    constructor
    · exact fun h => ⟨h.1, .inr h.2⟩
    · rintro ⟨ha, rfl | hb⟩
      · have hle := le_of_mem_chain ha
        omega
      · exact ⟨ha, hb⟩

/-- What one more predecessor does to the meeting point found so far. -/
def meetNext (e : Estimates) (found : Option Nat) (p : Nat) : Option Nat :=
  if e.isDefined p then
    match found with
    | none => some p
    | some d => some (e.meet p d)
  else found

theorem meetAll_eq_foldl (e : Estimates) (preds : List Nat) :
    e.meetAll preds = preds.foldl e.meetNext none := rfl

theorem isSome_foldl_meetNext (e : Estimates) (preds : List Nat) (found : Option Nat) :
    (preds.foldl e.meetNext found).isSome ↔ found.isSome ∨ ∃ p ∈ preds, e.isDefined p := by
  induction preds generalizing found with
  | nil => simp
  | cons p rest ih =>
    rw [List.foldl_cons, ih]
    cases hp : e.isDefined p <;> cases found <;> simp [meetNext, hp]

theorem mem_chain_foldl_meetNext {preds : List Nat} {found : Option Nat}
    (h : preds.foldl e.meetNext found = some d) :
    u ∈ e.chain d ↔ (∀ a ∈ found, u ∈ e.chain a) ∧ ∀ p ∈ preds, e.isDefined p → u ∈ e.chain p := by
  induction preds generalizing found with
  | nil =>
    obtain rfl : found = some d := h
    simp
  | cons p rest ih =>
    rw [ih h]
    cases hp : e.isDefined p <;> cases found <;>
      simp [meetNext, hp, mem_chain_meet, and_assoc, and_left_comm]

theorem exists_meetAll {preds : List Nat} {p : Nat} (hp : p ∈ preds) (hd : e.isDefined p) :
    ∃ d, e.meetAll preds = some d := by
  rw [meetAll_eq_foldl, ← Option.isSome_iff_exists, isSome_foldl_meetNext]
  exact .inr ⟨p, hp, hd⟩

/-- Predecessors meet at the nearest number on the chains of those that have an estimate. -/
theorem mem_chain_meetAll {preds : List Nat} (h : e.meetAll preds = some d) :
    u ∈ e.chain d ↔ ∀ p ∈ preds, e.isDefined p → u ∈ e.chain p := by
  rw [mem_chain_foldl_meetNext (meetAll_eq_foldl e preds ▸ h)]
  simp

/-- The estimates with a new one for `r`. -/
def assign (e : Estimates) (r d : Nat) : Estimates := e.setIfInBounds r (some d)

@[simp] theorem size_assign (e : Estimates) (r d : Nat) : (e.assign r d).size = e.size :=
  Array.size_setIfInBounds

theorem getElem?_assign_self (hr : r < e.size) : (e.assign r d)[r]? = some (some d) := by
  simp [assign, hr]

theorem getElem?_assign_of_ne (h : v ≠ r) : (e.assign r d)[v]? = e[v]? := by
  simp [assign, Ne.symm h]

theorem isDefined_assign (hr : r < e.size) :
    (e.assign r d).isDefined v = true ↔ v = r ∨ e.isDefined v = true := by
  by_cases h : v = r
  · subst h
    simp [isDefined, getElem?_assign_self hr]
  · simp [isDefined, getElem?_assign_of_ne h, h]

theorem climb_assign_self (hr : r < e.size) (hd : d < r) : (e.assign r d).climb r = d := by
  simp [climb, getElem?_assign_self hr, hd]

theorem climb_assign_of_ne (h : v ≠ r) : (e.assign r d).climb v = e.climb v := by
  simp [climb, getElem?_assign_of_ne h]

theorem assign_same (h : (e[r]?).join = some d) : e.assign r d = e := by
  have hr : e[r]? = some (some d) := Option.join_eq_some_iff.mp h
  apply Array.ext_getElem?
  intro i
  by_cases hi : i = r
  · subst hi
    have hs : i < e.size := (Array.getElem?_eq_some_iff.mp hr).1
    rw [getElem?_assign_self hs, hr]
  · exact getElem?_assign_of_ne hi

/-- A chain that does not lead through a vertex does not notice its new estimate. -/
theorem chain_assign_of_not_mem (h : r ∉ e.chain v) : (e.assign r d).chain v = e.chain v := by
  induction v using Nat.strongRecOn with
  | ind v ih =>
    rcases Nat.eq_zero_or_pos v with rfl | hv
    · rw [chain_zero, chain_zero]
    · have hne : v ≠ r := fun hc => h (hc ▸ e.self_mem_chain v)
      rw [chain_of_pos _ hv, chain_of_pos _ hv, climb_assign_of_ne hne]
      rw [ih _ (e.climb_lt hv) fun hc => h (mem_chain_of_climb hv hc)]

theorem chain_assign_of_lt (h : v < r) : (e.assign r d).chain v = e.chain v := by
  apply chain_assign_of_not_mem
  intro hc
  have hle := le_of_mem_chain hc
  omega

/-- A new estimate changes nothing from its vertex upwards. -/
theorem mem_chain_assign_of_le (h : r ≤ u) : u ∈ (e.assign r d).chain v ↔ u ∈ e.chain v := by
  induction v using Nat.strongRecOn with
  | ind v ih =>
    rcases Nat.eq_zero_or_pos v with rfl | hv
    · rw [chain_zero, chain_zero]
    · rw [mem_chain_of_pos hv, mem_chain_of_pos hv]
      by_cases hne : v = r
      · have new : u ∉ (e.assign r d).chain ((e.assign r d).climb v) := by
          intro hc
          have hle := le_of_mem_chain hc
          have hlt := (e.assign r d).climb_lt hv
          omega
        have old : u ∉ e.chain (e.climb v) := by
          intro hc
          have hle := le_of_mem_chain hc
          have hlt := e.climb_lt hv
          omega
        simp only [new, old]
      · rw [climb_assign_of_ne hne, ih _ (e.climb_lt hv)]

/-- Below its vertex a new estimate leads on along its own chain. -/
theorem mem_chain_assign_of_lt (hr : r < e.size) (hd : d < r) (h : u < r) (hv : r ∈ e.chain v) :
    u ∈ (e.assign r d).chain v ↔ u ∈ e.chain d := by
  have through : r ∈ (e.assign r d).chain v := (mem_chain_assign_of_le (Nat.le_refl r)).mpr hv
  have at_r : u ∈ (e.assign r d).chain r ↔ u ∈ e.chain d := by
    rw [mem_chain_of_pos (Nat.zero_lt_of_lt hd), climb_assign_self hr hd, chain_assign_of_lt hd]
    exact or_iff_right (Nat.ne_of_lt h)
  rw [← at_r]
  constructor
  · exact fun hu => mem_chain_of_le hu through (Nat.le_of_lt h)
  · exact fun hu => mem_chain_trans hu through

end Retention.Estimates
