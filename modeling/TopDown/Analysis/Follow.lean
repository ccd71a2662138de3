import TopDown.Analysis.First

namespace TopDown

structure Follows (V T : Type) where
  sets : Family V (Lookahead T)
  passes : Nat

namespace Follows

variable {V T : Type} [DecidableEq V] [DecidableEq T]

/-- What follows a variable that stands before `rest` in a body of `head`. -/
def after (first : Firsts V T) (sets : Family V (Lookahead T)) (head : V) (rest : List (Sym V T)) :
    ListSet (Lookahead T) :=
  let f := first.ofSymbols rest
  let terms := ListSet.ofList (f.toList.filterMap First.lookahead?)
  if .eps ∈ f then terms.union (Family.members sets head) else terms

/-- Adds what follows each variable of the end of a body of `head`, from left to right. -/
def visitBody (first : Firsts V T) (head : V) (sets : Family V (Lookahead T)) :
    List (Sym V T) → Family V (Lookahead T)
  | [] => sets
  | .var v :: rest => visitBody first head (Family.add sets v (after first sets head rest)) rest
  | _ :: rest => visitBody first head sets rest

def visit (first : Firsts V T) (sets : Family V (Lookahead T)) (p : Production V T) :
    Family V (Lookahead T) :=
  visitBody first p.head sets p.body

def sweep (G : Grammar V T) (first : Firsts V T) (sets : Family V (Lookahead T)) :
    Family V (Lookahead T) :=
  G.productions.foldl (visit first) sets

def initial (G : Grammar V T) : Family V (Lookahead T) :=
  Family.add (Dict.ofKeys G.vars .empty) G.start (.singleton .eof)

def sizeBound (G : Grammar V T) (first : Firsts V T) : Nat :=
  G.vars.length * (Family.size first.sets + G.terminals.length + 1)

def ofFirsts (G : Grammar V T) (first : Firsts V T) : Follows V T :=
  let r := saturate Family.size (sweep G first) (sizeBound G first) (initial G)
  ⟨r.value, r.passes⟩

def get? (F : Follows V T) (v : V) : Option (ListSet (Lookahead T)) := F.sets.get? v

end Follows

end TopDown
