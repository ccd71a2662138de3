import TopDown.Analysis.Follow

namespace TopDown

structure Cell (V T : Type) where
  var : V
  ahead : Lookahead T
deriving DecidableEq, Repr

structure Conflict (V T : Type) where
  cell : Cell V T
  overwritten : Nat
  chosen : Nat
deriving DecidableEq, Repr

/-- The production to expand for each filled cell, and how cells passed to other productions. -/
structure Table (V T : Type) where
  cells : Dict (Cell V T) Nat
  conflicts : List (Conflict V T)

namespace Table

variable {V T : Type}

def empty : Table V T := ⟨.empty, []⟩

def isLL1 (t : Table V T) : Bool := t.conflicts.isEmpty

def iter (t : Table V T) : List (V × Lookahead T × Nat) :=
  t.cells.entries.map fun e => (e.1.var, e.1.ahead, e.2)

theorem isLL1_iff {t : Table V T} : t.isLL1 = true ↔ t.conflicts = [] := List.isEmpty_iff

variable [DecidableEq V] [DecidableEq T]

/-- The conflict that arises if `id` takes `cell`. -/
def conflict? (t : Table V T) (cell : Cell V T) (id : Nat) : Option (Conflict V T) :=
  match t.cells.get? cell with
  | some old => if old = id then none else some ⟨cell, old, id⟩
  | none => none

def claim (t : Table V T) (id : Nat) (cell : Cell V T) : Table V T :=
  ⟨t.cells.insert cell id, t.conflicts ++ (t.conflict? cell id).toList⟩

/-- The lookaheads at which `p` claims a cell. -/
def claims (first : Firsts V T) (follow : Follows V T) (p : Production V T) :
    List (Lookahead T) :=
  let f := first.ofSymbols p.body
  f.toList.filterMap First.lookahead? ++
    if .eps ∈ f then (Family.members follow.sets p.head).toList else []

def enter (first : Firsts V T) (follow : Follows V T) (t : Table V T) (e : Production V T × Nat) :
    Table V T :=
  (claims first follow e.1).foldl (fun t a => t.claim e.2 ⟨e.1.head, a⟩) t

def ofSets (G : Grammar V T) (first : Firsts V T) (follow : Follows V T) : Table V T :=
  G.numbered.foldl (enter first follow) empty

def get? (t : Table V T) (v : V) (a : Lookahead T) : Option Nat := t.cells.get? ⟨v, a⟩

theorem mem_iter {t : Table V T} {v : V} {a : Lookahead T} {id : Nat} :
    (v, a, id) ∈ t.iter ↔ t.get? v a = some id := by
  rw [get?, ← Dict.mem_entries_iff, iter, List.mem_map]
  constructor
  · rintro ⟨⟨⟨_, _⟩, _⟩, he, same⟩
    cases same
    exact he
  · intro he
    exact ⟨_, he, rfl⟩

theorem get?_claim (t : Table V T) (id : Nat) (cell : Cell V T) (v : V) (a : Lookahead T) :
    (t.claim id cell).get? v a = if ⟨v, a⟩ = cell then some id else t.get? v a :=
  Dict.get?_insert ..

end Table

end TopDown
