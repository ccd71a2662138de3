import TopDown.Grammar.Production

namespace TopDown

/-- A grammar in which every variable that is used has a production. -/
structure Grammar (V T : Type) where
  start : V
  productions : List (Production V T)
  body_ne_nil : ∀ p ∈ productions, p.body ≠ []
  start_defined : start ∈ productions.map Production.head
  closed : ∀ p ∈ productions, ∀ v ∈ p.bodyVars, v ∈ productions.map Production.head

namespace Grammar

variable {V T : Type}

def production? (G : Grammar V T) (id : Nat) : Option (Production V T) := G.productions[id]?

def numbered (G : Grammar V T) : List (Production V T × Nat) := G.productions.zipIdx

theorem mem_numbered {G : Grammar V T} {p : Production V T} {id : Nat} :
    (p, id) ∈ G.numbered ↔ G.production? id = some p := List.mk_mem_zipIdx_iff_getElem?

theorem mem_productions_of_production? {G : Grammar V T} {p : Production V T} {id : Nat}
    (h : G.production? id = some p) : p ∈ G.productions := List.mem_of_getElem? h

section Variables

variable [DecidableEq V]

def index (G : Grammar V T) : RuleIndex V := .ofRules G.productions

/-- The variables in the order of their first production. -/
def vars (G : Grammar V T) : List V := G.index.keys

def isVariable (G : Grammar V T) (v : V) : Bool := (G.index.get? v).isSome

def productionsOf (G : Grammar V T) (v : V) : List (Production V T × Nat) :=
  (RuleIndex.numbers G.index v).filterMap fun id => (G.production? id).map fun p => (p, id)

theorem vars_eq (G : Grammar V T) : G.vars = (G.productions.map Production.head).eraseDups :=
  RuleIndex.keys_ofRules _

theorem productionsOf_eq_filter (G : Grammar V T) (v : V) :
    G.productionsOf v = G.numbered.filter fun e => e.1.head = v := by
  have found : ∀ es : List (Production V T × Nat), (∀ e ∈ es, G.production? e.2 = some e.1) →
      (es.map Prod.snd).filterMap (fun id => (G.production? id).map fun p => (p, id)) = es := by
    intro es known
    induction es with
    | nil => rfl
    | cons e es ih =>
      obtain ⟨here, rest⟩ := List.forall_mem_cons.1 known
      simp [here, ih rest]
  have listed := RuleIndex.numbers_ofRules G.productions v
  rw [productionsOf, index, listed]
  exact found _ fun e he => mem_numbered.1 (List.mem_filter.1 he).1

theorem nodup_vars (G : Grammar V T) : G.vars.Nodup := G.index.nodup_keys

theorem mem_vars {G : Grammar V T} {v : V} :
    v ∈ G.vars ↔ ∃ p ∈ G.productions, p.head = v := by
  simp [vars_eq]

theorem isVariable_iff {G : Grammar V T} {v : V} : G.isVariable v = true ↔ v ∈ G.vars := by
  rw [vars, Dict.mem_keys_iff, isVariable, Option.isSome_iff_exists]

theorem head_mem_vars {G : Grammar V T} {p : Production V T} (h : p ∈ G.productions) :
    p.head ∈ G.vars := mem_vars.2 ⟨p, h, rfl⟩

theorem start_mem_vars (G : Grammar V T) : G.start ∈ G.vars :=
  mem_vars.2 (List.mem_map.1 G.start_defined)

theorem var_mem_vars {G : Grammar V T} {p : Production V T} (hp : p ∈ G.productions) {v : V}
    (hv : Sym.var v ∈ p.body) : v ∈ G.vars :=
  mem_vars.2 (List.mem_map.1 (G.closed p hp v (Production.mem_bodyVars.2 hv)))

theorem mem_productionsOf {G : Grammar V T} {v : V} {p : Production V T} {id : Nat} :
    (p, id) ∈ G.productionsOf v ↔ G.production? id = some p ∧ p.head = v := by
  simp [productionsOf_eq_filter, mem_numbered]

theorem productionsOf_ne_nil_iff {G : Grammar V T} {v : V} :
    G.productionsOf v ≠ [] ↔ v ∈ G.vars := by
  rw [mem_vars]
  constructor
  · intro h
    obtain ⟨⟨p, id⟩, he⟩ := List.exists_mem_of_ne_nil _ h
    obtain ⟨hid, hv⟩ := mem_productionsOf.1 he
    exact ⟨p, mem_productions_of_production? hid, hv⟩
  · rintro ⟨p, hp, hv⟩
    obtain ⟨id, hid⟩ := List.mem_iff_getElem?.1 hp
    exact List.ne_nil_of_mem (mem_productionsOf.2 ⟨hid, hv⟩)

end Variables

/-- The terminals in the order of their first appearance in a body. -/
def terminals [DecidableEq T] (G : Grammar V T) : List T :=
  (G.productions.flatMap Production.bodyTerms).eraseDups

theorem mem_terminals [DecidableEq T] {G : Grammar V T} {t : T} :
    t ∈ G.terminals ↔ ∃ p ∈ G.productions, Sym.term t ∈ p.body := by
  simp [terminals, Production.mem_bodyTerms]

end Grammar

end TopDown
