import TopDown.Grammar.Basic
import TopDown.Sentence.Source

namespace TopDown

inductive Overflow where
  | truncate
  | retry
deriving DecidableEq, Repr

/-- Bounds on the length of a sentence, the nesting of expansions and the number of derivations. -/
structure Limits where
  min : Nat := 5
  max : Nat := 15
  depth : Nat := 64
  attempts : Nat := 1000
  overflow : Overflow := .truncate
deriving DecidableEq, Repr

namespace Limits

def isVoid (L : Limits) : Bool := L.max = 0 || (L.overflow = .retry && L.max < L.min)

def keep? {T : Type} (L : Limits) (w : List T) : Option (List T) :=
  if w.length < L.min then none
  else if w.length ≤ L.max then some w
  else
    match L.overflow with
    | .truncate => some (w.take L.max)
    | .retry => none

end Limits

inductive Obstacle where
  | tooDeep
  /-- A variable without productions came up. -/
  | noRule
deriving DecidableEq, Repr

inductive GenerateError where
  | invalidLength (min max : Nat)
  | notTerminating (attempts : Nat)
  | noRule
deriving DecidableEq, Repr

def GenerateError.message : GenerateError → String
  | .invalidLength min max => s!"invalid sentence length bounds (min {min}, max {max})"
  | .notTerminating attempts =>
    s!"no derivation terminated within the limits after {attempts} attempts"
  | .noRule => "a variable has no rule associated with it"

/-- The sentence or why there is none, the derivations that went too deep by their numbers, and the
number of the last derivation. -/
structure Generated (T : Type) where
  result : Except GenerateError (List T)
  tooDeep : List Nat
  derivations : Nat

namespace Grammar

variable {V T σ : Type}

/-- Expands the variables of a body from left to right, up to the first that fails. -/
def expandBody (expand : V → σ → Except Obstacle (List T) × σ) :
    List (Sym V T) → σ → Except Obstacle (List T) × σ
  | [], s => (.ok [], s)
  | .eps :: rest, s => expandBody expand rest s
  | .term t :: rest, s =>
    let (r, s) := expandBody expand rest s
    (r.map (t :: ·), s)
  | .var v :: rest, s =>
    match expand v s with
    | (.error e, s) => (.error e, s)
    | (.ok w, s) =>
      let (r, s) := expandBody expand rest s
      (r.map (w ++ ·), s)

variable [DecidableEq V] [Chooser σ]

def expand (G : Grammar V T) : (depth : Nat) → V → σ → Except Obstacle (List T) × σ
  | 0, _, s => (.error .tooDeep, s)
  | depth + 1, v, s =>
    match G.productionsOf v with
    | [] => (.error .noRule, s)
    | e :: es =>
      let (i, s) := Chooser.pick es.length s
      expandBody (G.expand depth) ((e :: es)[i].1.body) s

/-- Tries derivation number `k` and those after it, `left` of them. -/
def generateFrom (G : Grammar V T) (L : Limits) : (left k : Nat) → σ → Generated T × σ
  | 0, k, s => (⟨.error (.notTerminating L.attempts), [], k - 1⟩, s)
  | left + 1, k, s =>
    match G.expand L.depth G.start s with
    | (.error .noRule, s) => (⟨.error .noRule, [], k⟩, s)
    | (.error .tooDeep, s) =>
      let (g, s) := generateFrom G L left (k + 1) s
      ({ g with tooDeep := k :: g.tooDeep }, s)
    | (.ok w, s) =>
      match L.keep? w with
      | some u => (⟨.ok u, [], k⟩, s)
      | none => generateFrom G L left (k + 1) s

def generate (G : Grammar V T) (L : Limits) (s : σ) : Generated T × σ :=
  if L.isVoid then (⟨.error (.invalidLength L.min L.max), [], 0⟩, s)
  else G.generateFrom L L.attempts 1 s

def generateUpTo (G : Grammar V T) (max : Nat) (s : σ) : Generated T × σ :=
  G.generate { max := max } s

end Grammar

end TopDown
