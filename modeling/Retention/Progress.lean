namespace Retention

/-- What a load tells its observer. -/
inductive Notification where
  | start (description : String) (units : Nat)
  | advance (units : Nat)
  | done
  deriving DecidableEq

/-- A phase of a load as far as it was seen. -/
structure Phase where
  description : String
  duration : Nat
  advanced : Nat
  finished : Bool
  deriving DecidableEq

namespace Phase

/-- Phases with the latest one first. -/
def note (seen : List Phase) : Notification → List Phase
  | .start description units => ⟨description, units, 0, false⟩ :: seen
  | .advance units =>
    match seen with
    | [] => []
    | p :: earlier => { p with advanced := p.advanced + units } :: earlier
  | .done =>
    match seen with
    | [] => []
    | p :: earlier => { p with finished := true } :: earlier

def ofNotifications (notifications : List Notification) : List Phase :=
  (notifications.foldl note []).reverse

end Phase

end Retention
