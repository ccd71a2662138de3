import TopDown.Dict
import TopDown.ListSet
import TopDown.Symbol

namespace TopDown

/-- One rule: `head` may be replaced by `body`. -/
structure Production (V T : Type) where
  head : V
  body : List (Sym V T)
deriving DecidableEq, Repr

instance {V T : Type} [ToString V] [ToString T] : ToString (Production V T) where
  toString p := p.body.foldl (fun text s => text ++ " " ++ toString s) (toString p.head ++ " ->")

namespace Production

variable {V T : Type}

/-- With repetitions, left to right. -/
def bodyVars (p : Production V T) : List V := p.body.filterMap Sym.var?

def bodyTerms (p : Production V T) : List T := p.body.filterMap Sym.term?

theorem mem_bodyVars {p : Production V T} {v : V} : v ∈ p.bodyVars ↔ Sym.var v ∈ p.body := by
  simp [bodyVars, List.mem_filterMap, Sym.var?_eq_some_iff]

theorem mem_bodyTerms {p : Production V T} {t : T} : t ∈ p.bodyTerms ↔ Sym.term t ∈ p.body := by
  simp [bodyTerms, List.mem_filterMap, Sym.term?_eq_some_iff]

end Production

/-- The numbers of the productions of each variable. -/
abbrev RuleIndex (V : Type) := Dict V (List Nat)

namespace RuleIndex

variable {V T : Type} [DecidableEq V]

def numbers (index : RuleIndex V) (v : V) : List Nat := (index.get? v).getD []

def enter (index : RuleIndex V) (e : Production V T × Nat) : RuleIndex V :=
  index.insert e.1.head (numbers index e.1.head ++ [e.2])

def ofRules (rules : List (Production V T)) : RuleIndex V := rules.zipIdx.foldl enter .empty

theorem keys_enter {index : RuleIndex V} {seen : List V} (known : index.keys = seen.eraseDups)
    (e : Production V T × Nat) : (enter index e).keys = (seen ++ [e.1.head]).eraseDups := by
  simp only [enter, Dict.keys_insert, known, List.mem_eraseDups, eraseDups_concat]

theorem numbers_enter (index : RuleIndex V) (e : Production V T × Nat) (v : V) :
    numbers (enter index e) v = numbers index v ++ if e.1.head = v then [e.2] else [] := by
  unfold numbers enter
  rw [Dict.get?_insert]
  by_cases h : v = e.1.head
  · simp [h, numbers]
  · simp [h, Ne.symm h]

/-- The variables of the index are the heads of the rules, in the order of their first rules. -/
theorem keys_ofRules (rules : List (Production V T)) :
    (ofRules rules).keys = (rules.map Production.head).eraseDups := by
  have general : ∀ (es : List (Production V T × Nat)) (index : RuleIndex V) (seen : List V),
      index.keys = seen.eraseDups →
      (es.foldl enter index).keys = (seen ++ es.map fun e => e.1.head).eraseDups := by
    intro es
    induction es with
    | nil => simp
    | cons e es ih =>
      intro index seen known
      rw [List.foldl_cons, ih _ _ (keys_enter known e), List.append_assoc, List.map_cons,
        List.singleton_append]
  have heads : (rules.zipIdx.map fun e => e.1.head) = rules.map Production.head :=
    List.map_map.symm.trans (congrArg (List.map Production.head) (List.zipIdx_map_fst 0 rules))
  rw [ofRules, general _ _ [] rfl, List.nil_append, heads]

theorem mem_keys_ofRules {rules : List (Production V T)} {v : V} :
    v ∈ (ofRules rules).keys ↔ v ∈ rules.map Production.head := by
  rw [keys_ofRules, List.mem_eraseDups]

theorem numbers_ofRules (rules : List (Production V T)) (v : V) :
    numbers (ofRules rules) v = (rules.zipIdx.filter fun e => e.1.head = v).map Prod.snd := by
  have general : ∀ (es : List (Production V T × Nat)) (index : RuleIndex V),
      numbers (es.foldl enter index) v =
        numbers index v ++ (es.filter fun e => e.1.head = v).map Prod.snd := by
    intro es
    induction es with
    | nil => simp
    | cons e es ih =>
      intro index
      rw [List.foldl_cons, ih, numbers_enter, List.append_assoc, List.filter_cons]
      by_cases h : e.1.head = v <;> simp [h]
  exact general _ .empty

end RuleIndex

end TopDown
