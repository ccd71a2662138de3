import TopDown.Grammar.Basic
import TopDown.Text

namespace TopDown

/-- A capital letter of ASCII is a variable and `ε` the empty word; every other character is a
terminal. -/
def Sym.ofChar (c : Char) : Sym Char Char :=
  if c = 'ε' then .eps else if c.isUpper then .var c else .term c

def symbolsOfChars (cs : List Char) : List (Sym Char Char) :=
  (cs.filter fun c => !Text.isBlank c).map Sym.ofChar

def symbolsOfText (text : String) : List (Sym Char Char) := symbolsOfChars text.toList

def sampleRules : List (Char × List Char) :=
  [('S', ['a', 'A', 'D']), ('S', ['b', 'B', 'c']),
   ('A', ['c', 'B', 'd']), ('A', ['b', 'D', 'a']),
   ('B', ['b', 'C', 'd']), ('B', ['ε']),
   ('C', ['c', 'D', 'd']),
   ('D', ['d', 'B']), ('D', ['a', 'C', 'b'])]

def sampleProductions : List (Production Char Char) :=
  sampleRules.map fun r => ⟨r.1, symbolsOfChars r.2⟩

def sampleGrammar : Grammar Char Char where
  start := 'S'
  productions := sampleProductions
  body_ne_nil := by decide
  start_defined := by decide
  closed := by
    have h : ∀ p ∈ sampleProductions,
        p.bodyVars.all (· ∈ sampleProductions.map Production.head) = true := by decide
    intro p hp v hv
    exact of_decide_eq_true (List.all_eq_true.1 (h p hp) v hv)

end TopDown
