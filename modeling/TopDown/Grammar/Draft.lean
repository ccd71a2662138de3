import TopDown.Grammar.Basic
import TopDown.Text

namespace TopDown

inductive GrammarError (V : Type) where
  | noStart
  | undefined (v : V)
deriving DecidableEq, Repr

def GrammarError.message {V : Type} [Quoted V] : GrammarError V → String
  | .noStart => "start variable not set"
  | .undefined v => "variable " ++ Quoted.quoted v ++ " has no rule associated with it"

/-- The rules given so far, in order, and the start variable set last. -/
structure Draft (V T : Type) where
  start : Option V := none
  rules : List (Production V T) := []
  body_ne_nil : ∀ p ∈ rules, p.body ≠ [] := by simp

namespace Draft

variable {V T : Type}

def empty : Draft V T := {}

def withStart (d : Draft V T) (v : V) : Draft V T := { d with start := some v }

/-- A body as it is stored: the empty body is written with one epsilon. -/
def storedBody (body : List (Sym V T)) : List (Sym V T) :=
  if body.isEmpty then [.eps] else body

theorem storedBody_ne_nil (body : List (Sym V T)) : storedBody body ≠ [] := by
  cases body <;> simp [storedBody]

def addRule (d : Draft V T) (head : V) (body : List (Sym V T)) : Draft V T where
  start := d.start
  rules := d.rules ++ [⟨head, storedBody body⟩]
  body_ne_nil := by
    simp only [List.mem_append, List.mem_singleton]
    rintro p (hp | rfl)
    · exact d.body_ne_nil p hp
    · exact storedBody_ne_nil body

def addRules (d : Draft V T) (head : V) (bodies : List (List (Sym V T))) : Draft V T :=
  bodies.foldl (fun d body => d.addRule head body) d

def bodyVars (d : Draft V T) : List V := d.rules.flatMap Production.bodyVars

variable [DecidableEq V]

def index (d : Draft V T) : RuleIndex V := RuleIndex.ofRules d.rules

/-- The first without a rule of the start variable and the variables in bodies, looked at in order.
-/
def firstUndefined (d : Draft V T) (start : V) : Option V :=
  let known := d.index.keys
  (start :: d.bodyVars).find? (· ∉ known)

/-- The grammar of the draft. Without a start variable it has none, and otherwise the first variable
without a rule is reported. -/
def build (d : Draft V T) : Except (GrammarError V) (Grammar V T) :=
  match d.start with
  | none => .error .noStart
  | some s =>
    match h : d.firstUndefined s with
    | some v => .error (.undefined v)
    | none =>
      have hall : ∀ v ∈ s :: d.bodyVars, v ∈ d.rules.map Production.head := by
        simpa only [firstUndefined, index, RuleIndex.mem_keys_ofRules, List.find?_eq_none,
          decide_eq_true_eq, Classical.not_not] using h
      .ok {
        start := s
        productions := d.rules
        body_ne_nil := d.body_ne_nil
        start_defined := hall s List.mem_cons_self
        closed := fun p hp v hv =>
          hall v (List.mem_cons_of_mem _ (List.mem_flatMap.2 ⟨p, hp, hv⟩)) }

end Draft

end TopDown
