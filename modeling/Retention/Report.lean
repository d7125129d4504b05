import Retention.Comparison

namespace Retention

namespace Report

def statisticsHead : String :=
  "============================ Tabulate Statistics ============================\n"

def statisticsEnd : String :=
  "-------------------------- End Tabulate Statistics --------------------------\n"

/-- Fields of a line are divided by tabs. -/
def line (fields : List String) : String := "\t".intercalate fields ++ "\n"

def number (n : UInt64) : String := toString n.toNat

/-- A class name, or a question mark where none is known. -/
def classText (s : Snapshot) (id : ObjectId) : String :=
  match s.className id with
  | .ok (some name) => name
  | _ => "?"

def idomText : Option Idom → String
  | some (.object d) => d.text
  | _ => "<root>"

def retainerLine (s : Snapshot) (id : ObjectId) : String :=
  match s.lookup id with
  | .ok v =>
    line [id.text, v.node.shape.text, classText s id, number v.node.shallowSize, number v.retainedSize,
      idomText v.idom]
  | .error _ => ""

/-- Totals of a snapshot and its `top` largest retainers. -/
def summary (path : String) (s : Snapshot) (top : Nat) : String :=
  statisticsHead
    ++ line ["path", "objects", "reachable", "roots", "dangling", "retained", "passes"]
    ++ line [path, toString s.nodeCount, toString s.reachableCount, toString s.roots.length,
      toString s.danglingRoots.length, number s.totalRetained, toString s.dominatorPasses]
    ++ statisticsEnd
    ++ line ["id", "kind", "class", "shallow", "retained", "dominator"]
    ++ String.join ((s.topRetainers top).map fun r => retainerLine s r.1)

def dominator (s : Snapshot) (id : ObjectId) : Except QueryError String := do
  match ← s.dominator id with
  | none => pure "<root>\n"
  | some d =>
    let v ← s.lookup d
    pure (line [d.text, v.node.shape.text, number v.retainedSize])

/-- Dominators of the end of the path are starred. -/
def path (s : Snapshot) (id : ObjectId) : Except QueryError String := do
  let steps ← s.path id
  pure (String.join (steps.map fun step =>
    line [(if step.isDominator then "*" else " ") ++ step.id.text, classText s step.id,
      step.label.elim "" RefLabel.text]))

/-- The first `top` children of an object. -/
def children (s : Snapshot) (id : ObjectId) (top : Nat) : Except QueryError String := do
  let ids ← s.children id
  let lines ← (ids.take top).mapM fun c => do
    let v ← s.lookup c
    pure (line [c.text, v.node.shape.text, number v.node.shallowSize, number v.retainedSize])
  pure (line ["id", "kind", "shallow", "retained"] ++ String.join lines)

def retained (s : Snapshot) (id : ObjectId) : Except QueryError String := do
  let size ← s.retainedSize id
  pure (number size ++ "\n")

/-- A difference with its sign, zero counted as a gain. -/
def signed (n : Int) : String := if 0 ≤ n then s!"+{n}" else toString n

/-- Totals of a comparison and its `top` largest changes. -/
def comparison (c : Comparison) (top : Nat) : String :=
  statisticsHead
    ++ line ["baseline", "current", "only_baseline", "only_current"]
    ++ line [number c.totalBaseline, number c.totalCurrent, toString c.onlyInBaseline.length,
      toString c.onlyInCurrent.length]
    ++ statisticsEnd
    ++ line ["id", "baseline", "current", "delta"]
    ++ String.join ((c.deltas.take top).map fun d =>
      line [d.id.text, number d.baseline, number d.current, signed d.delta])

end Report

end Retention
