import TopDown.Analysis.Table

namespace TopDown

inductive RejectReason where
  | mismatch
  | noEntry
deriving DecidableEq, Repr

inductive Action where
  | consume
  | expand (id : Nat)
  | reject (reason : RejectReason)
deriving DecidableEq, Repr

/-- Why the automaton could not take a step at all; an outcome, so that its absence can be stated.
-/
inductive Fault where
  | noInput
  | epsilonOnStack
  | noProduction (id : Nat)
deriving DecidableEq, Repr

/-- How a run ended; `unfinished` says that the limit on the steps was met first. -/
inductive Ending where
  | accepted
  | rejected (reason : RejectReason)
  | fault (f : Fault)
  | unfinished
deriving DecidableEq, Repr

/-- The stack, its top first, and what remains of the input with its end marker. -/
structure Config (V T : Type) where
  stack : List (StackSym V T)
  input : List (Lookahead T)

/-- The automaton in a step: `top` has been popped from `below`, `current` is ahead of `rest`. -/
structure Snapshot (V T : Type) where
  top : StackSym V T
  below : List (StackSym V T)
  current : Lookahead T
  rest : List (Lookahead T)
  action : Action

namespace Snapshot

variable {V T : Type}

def input (s : Snapshot V T) : List (Lookahead T) := s.current :: s.rest

/-- The stack after the top was popped, from the bottom up. -/
def stack (s : Snapshot V T) : List (StackSym V T) := s.below.reverse

/-- The stack as the step found it, from the bottom up. -/
def fullStack (s : Snapshot V T) : List (StackSym V T) := s.stack ++ [s.top]

end Snapshot

/-- The symbols of a body as they are pushed, the first of them on top. -/
def Production.pushed {V T : Type} (p : Production V T) : List (StackSym V T) :=
  p.body.filterMap Sym.toStack?

namespace Config

variable {V T : Type}

def initial (G : Grammar V T) (w : List T) : Config V T where
  stack := [.var G.start, .term .eof]
  input := w.map .term ++ [.eof]

end Config

section Step

variable {V T : Type} [DecidableEq V] [DecidableEq T]

def Table.action (t : Table V T) (top : StackSym V T) (current : Lookahead T) :
    Except Fault Action :=
  match top with
  | .term a => .ok (if a = current then .consume else .reject .mismatch)
  | .var v =>
    match t.get? v current with
    | some id => .ok (.expand id)
    | none => .ok (.reject .noEntry)
  | .eps => .error .epsilonOnStack

/-- The step that is due, or how the run ends before it. An empty stack accepts. -/
def Config.snapshot (t : Table V T) (c : Config V T) : Except Ending (Snapshot V T) :=
  match c.stack, c.input with
  | [], _ => .error .accepted
  | _ :: _, [] => .error (.fault .noInput)
  | top :: below, current :: rest =>
    match t.action top current with
    | .ok action => .ok ⟨top, below, current, rest, action⟩
    | .error f => .error (.fault f)

def Snapshot.next (G : Grammar V T) (s : Snapshot V T) : Except Ending (Config V T) :=
  match s.action with
  | .consume => .ok ⟨s.below, s.rest⟩
  | .expand id =>
    match G.production? id with
    | some p => .ok ⟨p.pushed ++ s.below, s.input⟩
    | none => .error (.fault (.noProduction id))
  | .reject reason => .error (.rejected reason)

end Step

end TopDown
