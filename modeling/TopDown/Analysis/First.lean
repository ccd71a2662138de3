import TopDown.Family
import TopDown.Fixpoint
import TopDown.Grammar.Basic

namespace TopDown

structure Firsts (V T : Type) where
  sets : Family V (First T)
  passes : Nat

namespace Firsts

variable {V T : Type} [DecidableEq V] [DecidableEq T]

/-- What can begin a sequence, read from the left past variables that can vanish. An epsilon ends
the reading, and so does a variable that is not known. -/
def leading (sets : Family V (First T)) : List (Sym V T) → ListSet (First T)
  | [] => .singleton .eps
  | .term t :: _ => .singleton (.term t)
  | .eps :: _ => .singleton .eps
  | .var v :: rest =>
    match sets.get? v with
    | none => .empty
    | some s => if .eps ∈ s then (s.filter (· ≠ .eps)).union (leading sets rest) else s

def visit (sets : Family V (First T)) (p : Production V T) : Family V (First T) :=
  Family.add sets p.head (leading sets p.body)

def sweep (G : Grammar V T) (sets : Family V (First T)) : Family V (First T) :=
  G.productions.foldl visit sets

def initial (G : Grammar V T) : Family V (First T) := Dict.ofKeys G.vars .empty

def sizeBound (G : Grammar V T) : Nat := G.vars.length * (G.terminals.length + 1)

def ofGrammar (G : Grammar V T) : Firsts V T :=
  let r := saturate Family.size (sweep G) (sizeBound G) (initial G)
  ⟨r.value, r.passes⟩

def get? (F : Firsts V T) (v : V) : Option (ListSet (First T)) := F.sets.get? v

/-- What can begin `x`; the empty word is among it if all of `x` can vanish. -/
def ofSymbols (F : Firsts V T) (x : List (Sym V T)) : ListSet (First T) := leading F.sets x

def nullable (F : Firsts V T) (v : V) : Bool := .eps ∈ Family.members F.sets v

end Firsts

end TopDown
