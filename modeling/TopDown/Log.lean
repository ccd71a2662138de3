import TopDown.Parser
import TopDown.Sentence.Generator

namespace TopDown

inductive Level where
  | debug
  | trace
  | warn
deriving DecidableEq, Repr

def Level.text : Level → String
  | .debug => "DEBUG"
  | .trace => "TRACE"
  | .warn => "WARN"

inductive Event where
  | firstConverged (passes : Nat)
  | followConverged (passes : Nat)
  | conflict (chosen overwritten : Nat)
  | tableBuilt (cells conflicts : Nat)
  | step (number : Nat) (action : Action)
  | accepted (steps : Nat)
  | rejected (number : Nat) (reason : RejectReason)
  | tooDeep (derivation depth : Nat)
  | generated (terminals derivations : Nat)
deriving DecidableEq, Repr

def RejectReason.text : RejectReason → String
  | .mismatch => "Mismatch"
  | .noEntry => "NoEntry"

def Action.text : Action → String
  | .consume => "Match"
  | .expand id => s!"Expand(ProductionId({id}))"
  | .reject reason => "Reject(" ++ reason.text ++ ")"

namespace Event

def level : Event → Level
  | .conflict .. => .warn
  | .step .. => .trace
  | .tooDeep .. => .trace
  | _ => .debug

def text : Event → String
  | .firstConverged passes => s!"first sets converged after {passes} passes"
  | .followConverged passes => s!"follow sets converged after {passes} passes"
  | .conflict chosen overwritten =>
    s!"parse table conflict: production {chosen} replaces production {overwritten}"
  | .tableBuilt cells conflicts =>
    s!"parse table built with {cells} cells and {conflicts} conflicts"
  | .step number action => s!"step {number}: " ++ action.text
  | .accepted steps => s!"input accepted after {steps} steps"
  | .rejected n reason => s!"input rejected at step {n} (" ++ reason.text ++ ")"
  | .tooDeep derivation depth => s!"derivation {derivation} exceeded depth {depth}"
  | .generated terminals derivations =>
    s!"generated {terminals} terminals after {derivations} derivations"

end Event

variable {V T : Type}

def Firsts.events (F : Firsts V T) : List Event := [.firstConverged F.passes]

def Follows.events (F : Follows V T) : List Event := [.followConverged F.passes]

def Table.conflictEvents (t : Table V T) : List Event :=
  t.conflicts.map fun c => .conflict c.chosen c.overwritten

def Table.buildEvents (t : Table V T) : List Event :=
  t.conflictEvents ++ [.tableBuilt t.iter.length t.conflicts.length]

/-- The events of computing the sets and, if it is there, the table of a parser. -/
def Parser.events (p : Parser V T) : List Event :=
  p.first.events ++ p.follow.events ++
    match p.table with
    | some t => t.buildEvents
    | none => []

def Run.events (r : Run V T) : List Event :=
  r.trace.zipIdx.map (fun e => .step (e.2 + 1) e.1.action) ++
    match r.ending with
    | .accepted => [.accepted r.steps]
    | .rejected reason => [.rejected r.steps reason]
    | _ => []

def Generated.events (depth : Nat) (g : Generated T) : List Event :=
  g.tooDeep.map (.tooDeep · depth) ++
    match g.result with
    | .ok w => [.generated w.length g.derivations]
    | .error _ => []

end TopDown
