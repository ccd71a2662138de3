namespace TopDown

inductive Sym (V T : Type) where
  | term (t : T)
  | var (v : V)
  | eps
deriving DecidableEq, Repr

/-- What the automaton sees next: a terminal or the end of the input. -/
inductive Lookahead (T : Type) where
  | term (t : T)
  | eof
deriving DecidableEq, Repr

/-- What a FIRST set holds: a terminal that may come first, or the empty word. -/
inductive First (T : Type) where
  | term (t : T)
  | eps
deriving DecidableEq, Repr

/-- Symbols on the automaton's stack, where the end marker counts as a terminal. -/
abbrev StackSym (V T : Type) := Sym V (Lookahead T)

instance {V T : Type} [ToString V] [ToString T] : ToString (Sym V T) where
  toString
    | .term t => toString t
    | .var v => toString v
    | .eps => "ε"

instance {T : Type} [ToString T] : ToString (Lookahead T) where
  toString
    | .term t => toString t
    | .eof => "$"

instance {T : Type} [ToString T] : ToString (First T) where
  toString
    | .term t => toString t
    | .eps => "ε"

namespace Sym

variable {V T : Type}

def isTerm : Sym V T → Bool
  | .term _ => true
  | _ => false

def isVar : Sym V T → Bool
  | .var _ => true
  | _ => false

def isEps : Sym V T → Bool
  | .eps => true
  | _ => false

def var? : Sym V T → Option V
  | .var v => some v
  | _ => none

def term? : Sym V T → Option T
  | .term t => some t
  | _ => none

def toStack? : Sym V T → Option (StackSym V T)
  | .term t => some (.term (.term t))
  | .var v => some (.var v)
  | .eps => none

theorem var?_eq_some_iff {s : Sym V T} {v : V} : s.var? = some v ↔ s = .var v := by
  cases s <;> simp [var?]

theorem term?_eq_some_iff {s : Sym V T} {t : T} : s.term? = some t ↔ s = .term t := by
  cases s <;> simp [term?]

end Sym

namespace First

variable {T : Type}

def lookahead? : First T → Option (Lookahead T)
  | .term t => some (.term t)
  | .eps => none

theorem lookahead?_eq_some_iff {f : First T} {a : Lookahead T} :
    f.lookahead? = some a ↔ ∃ t, f = .term t ∧ a = .term t := by
  cases f <;> simp [lookahead?, eq_comm]

end First

end TopDown
