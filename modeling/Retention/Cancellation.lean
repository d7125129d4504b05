import Retention.Error
import Retention.Progress

namespace Retention

/-- When the token of a load is raised: before it, or while its observer is told of progress. -/
structure CancelPlan where
  /-- Before the load begins. -/
  before : Bool
  /-- As soon as at least this many units are announced, over all phases. -/
  afterUnits : Option Nat
  /-- At the start of this phase, counted from one. -/
  atStart : Option Nat
  /-- At the end of this phase, counted from one. -/
  atDone : Option Nat
  deriving DecidableEq

/-- What has been told so far, and whether the token is raised. -/
structure CancelWatch where
  units : Nat
  starts : Nat
  dones : Nat
  raised : Bool
  deriving DecidableEq

namespace CancelPlan

def never : CancelPlan := ⟨false, none, none, none⟩

def begin (plan : CancelPlan) : CancelWatch := ⟨0, 0, 0, plan.before⟩

/-- The watch after one more notification. -/
def note (plan : CancelPlan) (w : CancelWatch) : Notification → CancelWatch
  | .start _ _ =>
    { w with starts := w.starts + 1, raised := w.raised || plan.atStart == some (w.starts + 1) }
  | .advance units =>
    { w with units := w.units + units, raised := w.raised || plan.afterUnits.any (· ≤ w.units + units) }
  | .done =>
    { w with dones := w.dones + 1, raised := w.raised || plan.atDone == some (w.dones + 1) }

end CancelPlan

/-- Handles on cancellation flags; copies of a handle share its flag. -/
structure TokenTable where
  /-- The flag of each handle. -/
  flags : Array Nat
  /-- Whether each flag is raised. -/
  raised : Array Bool

namespace TokenTable

/-- One handle on one flag that is not raised. -/
def single : TokenTable := ⟨#[0], #[false]⟩

def fresh (t : TokenTable) : TokenTable := ⟨t.flags.push t.raised.size, t.raised.push false⟩

def clone (t : TokenTable) (handle : Nat) : TokenTable := { t with flags := t.flags.push (t.flags.getD handle 0) }

def cancel (t : TokenTable) (handle : Nat) : TokenTable :=
  { t with raised := t.raised.setIfInBounds (t.flags.getD handle 0) true }

def isCancelled (t : TokenTable) (handle : Nat) : Bool := t.raised.getD (t.flags.getD handle 0) false

/-- A raised token makes a poll fail. -/
def check (t : TokenTable) (handle : Nat) : Except LoadError Unit :=
  if t.isCancelled handle then .error .cancelled else .ok ()

end TokenTable

end Retention
