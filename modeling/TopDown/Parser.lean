import TopDown.Automaton.Run

namespace TopDown

/-- The sets are there from the start, the table once it has been built. -/
structure Parser (V T : Type) where
  grammar : Grammar V T
  first : Firsts V T
  follow : Follows V T
  table : Option (Table V T)

inductive ParseError where
  | tableNotReady
deriving DecidableEq, Repr

def ParseError.message : ParseError → String
  | .tableNotReady => "parse table not ready"

def Grammar.maxBodyLength {V T : Type} (G : Grammar V T) : Nat :=
  G.productions.foldl (fun n p => max n p.body.length) 0

section

variable {V T : Type} [DecidableEq V]

/-- No run on `w` that ends takes more steps than this. While the same symbol is ahead, a variable
is always expanded alike. So no variable comes up within its own expansion, one symbol of the stack
is worth at most `(b + 1) ^ n` expansions for `n` variables and bodies of length `b`, and of each
such nest at most `n * b` symbols are left behind when its first terminal is consumed. -/
def Grammar.stepLimit (G : Grammar V T) (w : List T) : Nat :=
  let n := G.vars.length
  let b := G.maxBodyLength
  let m := w.length + 1
  m * ((2 + m * n * b) * Nat.pow (b + 1) n + 1)

end

namespace Parser

variable {V T : Type}

def isReady (p : Parser V T) : Bool := p.table.isSome

variable [DecidableEq V] [DecidableEq T]

def analyze (G : Grammar V T) : Parser V T :=
  let first := Firsts.ofGrammar G
  ⟨G, first, Follows.ofFirsts G first, none⟩

def tableOf (p : Parser V T) : Table V T := Table.ofSets p.grammar p.first p.follow

def withTable (p : Parser V T) : Parser V T := { p with table := some p.tableOf }

def ofGrammar (G : Grammar V T) : Parser V T := (analyze G).withTable

/-- The run on `w`. A rejected word is no error. -/
def parse (p : Parser V T) (w : List T) : Except ParseError (Run V T) :=
  match p.table with
  | none => .error .tableNotReady
  | some t => .ok (run p.grammar t (p.grammar.stepLimit w) (Config.initial p.grammar w))

end Parser

end TopDown
