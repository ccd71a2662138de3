import TopDown.Parser
import TopDown.Text

namespace TopDown

variable {V T : Type} [ToString V] [ToString T]

/-- The texts of the members, each once, in the order of their code points. -/
def ListSet.sortedTexts {α : Type} [ToString α] (s : ListSet α) : List String :=
  (s.toList.map toString).eraseDups.mergeSort fun a b => decide (a ≤ b)

def setLine {α : Type} [ToString α] (v : V) (s : ListSet α) : String :=
  "  " ++ toString v ++ " = \x7b " ++ Text.spaced s.sortedTexts ++ " \x7d"

section

variable [DecidableEq V] [DecidableEq T]

def Parser.setLines (p : Parser V T) : List String :=
  "FIRST" :: p.grammar.vars.map (fun v => setLine v (Family.members p.first.sets v)) ++
    "FOLLOW" :: p.grammar.vars.map (fun v => setLine v (Family.members p.follow.sets v))

end

/-- The text of production `id`, empty where there is none. -/
def Grammar.productionText (G : Grammar V T) (id : Nat) : String :=
  match G.production? id with
  | some p => toString p
  | none => ""

def Cell.text (c : Cell V T) : String :=
  "[" ++ toString c.var ++ ", " ++ toString c.ahead ++ "]"

/-- One line for each filled cell, by variable and then by the text of the lookahead. -/
def Table.cellLines [DecidableEq V] (t : Table V T) (G : Grammar V T) : List String :=
  G.vars.flatMap fun v =>
    let row := t.iter.filter fun e => e.1 = v
    let row := row.mergeSort fun a b => decide (toString a.2.1 ≤ toString b.2.1)
    row.map fun e => "  " ++ Cell.text ⟨v, e.2.1⟩ ++ " " ++ G.productionText e.2.2

def Conflict.line (c : Conflict V T) (G : Grammar V T) : String :=
  "conflict at " ++ c.cell.text ++ ": `" ++ G.productionText c.chosen ++ "` replaced `" ++
    G.productionText c.overwritten ++ "`"

def Table.lines [DecidableEq V] (t : Table V T) (G : Grammar V T) : List String :=
  t.cellLines G ++ t.conflicts.map (·.line G)

def Snapshot.actionText (s : Snapshot V T) (G : Grammar V T) : String :=
  match s.action with
  | .consume => "match " ++ toString s.current
  | .expand id => G.productionText id
  | .reject .mismatch => "error: expected " ++ toString s.top
  | .reject .noEntry => "error: no production"

def Snapshot.line (s : Snapshot V T) (G : Grammar V T) (number : Nat) : String :=
  Text.alignRight 4 (toString number) ++ "  " ++
    Text.alignLeft 24 (Text.spaced s.fullStack) ++ " " ++
    Text.alignLeft 24 (Text.spaced s.input) ++ " " ++ s.actionText G

def Run.traceLines (r : Run V T) (G : Grammar V T) : List String :=
  r.trace.zipIdx.map fun e => e.1.line G (e.2 + 1)

omit [ToString V] [ToString T] in
def Run.verdictText (r : Run V T) : String := if r.isAccepted then "Accepted" else "Rejected"

omit [ToString V] [ToString T] in
def Run.verdictLine (r : Run V T) : String := s!"{r.verdictText} after {r.steps} steps"

end TopDown
