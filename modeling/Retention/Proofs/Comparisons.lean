import Retention.Comparison
import Retention.Proofs.AcceptedRecords
import Retention.Proofs.LiveAnswers

namespace Retention

namespace RetainedDelta

/-- The same object with the sides exchanged. -/
def swap (d : RetainedDelta) : RetainedDelta := ⟨d.id, d.current, d.baseline⟩

/-- The larger change, or the lower id where the changes are equal. -/
def Before (a b : RetainedDelta) : Prop :=
  b.delta.natAbs < a.delta.natAbs ∨ a.delta.natAbs = b.delta.natAbs ∧ a.id < b.id

variable {a b c : RetainedDelta}

@[simp] theorem delta_swap (d : RetainedDelta) : d.swap.delta = -d.delta := by
  simp [swap, delta]

theorem ahead_iff : ahead a b = true ↔ b.delta.natAbs < a.delta.natAbs ∨
    a.delta.natAbs = b.delta.natAbs ∧ a.id.value.toNat ≤ b.id.value.toNat := decide_eq_true_iff

theorem before_iff : Before a b ↔ b.delta.natAbs < a.delta.natAbs ∨
    a.delta.natAbs = b.delta.natAbs ∧ a.id.value.toNat < b.id.value.toNat := Iff.rfl

@[simp] theorem before_swap : Before a.swap b.swap ↔ Before a b := by
  simp only [Before, delta_swap, Int.natAbs_neg]
  rfl

theorem Before.asymm (h : Before a b) : ¬ Before b a := by
  rw [before_iff] at h ⊢
  omega

theorem Before.ne (h : Before a b) : a ≠ b := by
  intro same
  subst same
  exact h.asymm h

end RetainedDelta

namespace Snapshot

variable {s : Snapshot} {id : ObjectId}

end Snapshot

namespace Comparison

variable {baseline current : Snapshot} {d : RetainedDelta} {id : ObjectId}

section WellFormed

variable (wf : baseline.graph.WellFormed)

include wf

end WellFormed

end Comparison

end Retention
