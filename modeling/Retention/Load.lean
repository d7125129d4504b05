import Retention.Cancellation

namespace Retention

/-- How far a load has come: what its observer was told, and the watch over its token. -/
structure LoadState where
  told : Array Notification
  watch : CancelWatch

namespace LoadState

def begin (plan : CancelPlan) : LoadState := ⟨#[], plan.begin⟩

/-- The observer is told, and raises the token when the plan says so. -/
def tell (plan : CancelPlan) (s : LoadState) (n : Notification) : LoadState :=
  ⟨s.told.push n, plan.note s.watch n⟩

end LoadState

/-- A load runs under a plan for its token, tells its observer of its progress, and may fail. What it has
told stays told when it fails. -/
abbrev Load := ReaderT CancelPlan (ExceptT LoadError (StateM LoadState))

namespace Load

variable {α σ : Type}

def notify (n : Notification) : Load Unit := do
  let plan ← read
  modify (·.tell plan n)

def start (description : String) (units : Nat) : Load Unit := notify (.start description units)

def advance (units : Nat) : Load Unit := notify (.advance units)

def done : Load Unit := notify .done

/-- A token that is raised ends the load here. -/
def poll : Load Unit := do
  let s ← get
  if s.watch.raised then throw .cancelled else pure ()

/-- Goes through the items one by one: polls, takes a step that may fail, announces one unit. -/
def each (step : σ → α → Except LoadError σ) (state : σ) (items : List α) : Load σ :=
  items.foldlM (fun s a => do
    poll
    let next ← (step s a : Except LoadError σ)
    advance 1
    pure next) state

/-- Goes on under a plan from where another load has come to. -/
def runFrom (load : Load α) (plan : CancelPlan) (s : LoadState) : Except LoadError α × LoadState :=
  (ReaderT.run load plan).run.run s

end Load

/-- The outcome of a load under the plan, and the notifications its observer gets. -/
def CancelPlan.run {α : Type} (plan : CancelPlan) (load : Load α) : Except LoadError α × List Notification :=
  let (result, last) := load.runFrom plan (.begin plan)
  (result, last.told.toList)

/-- The outcome of a load that nobody cancels, and the notifications its observer gets. -/
def Load.outcome {α : Type} (load : Load α) : Except LoadError α × List Notification := CancelPlan.never.run load

end Retention
