import Mathlib.Data.List.Basic
import Mathlib.Data.List.Induction
import TopDown.Grammar.Draft

namespace TopDown

variable {V T : Type}

/-- `ys` has the members of `xs`, each once, in the order in which they first appear. -/
structure FirstAppearances {α : Type} [DecidableEq α] (xs ys : List α) : Prop where
  members : ∀ a, a ∈ ys ↔ a ∈ xs
  order : ys.Pairwise fun a b => xs.idxOf a < xs.idxOf b

theorem firstAppearances_eraseDups {α : Type} [DecidableEq α] (xs : List α) :
    FirstAppearances xs xs.eraseDups := by
  refine ⟨fun a => List.mem_eraseDups, ?_⟩
  induction xs using List.reverseRecOn with
  | nil => exact .nil
  | append_singleton xs x ih =>
    have earlier : ∀ a ∈ xs.eraseDups, (xs ++ [x]).idxOf a = xs.idxOf a :=
      fun a ha => List.idxOf_append_of_mem (List.mem_eraseDups.1 ha)
    have before : xs.eraseDups.Pairwise fun a b => (xs ++ [x]).idxOf a < (xs ++ [x]).idxOf b := by
      refine ih.imp_of_mem fun ha hb lt => ?_
      rwa [earlier _ ha, earlier _ hb]
    rw [eraseDups_concat]
    split
    · exact before
    · rename_i new
      refine List.pairwise_append.2 ⟨before, List.pairwise_singleton _ _, fun a ha b hb => ?_⟩
      have last : (xs ++ [x]).idxOf b = xs.length := by
        rw [List.mem_singleton.1 hb, List.idxOf_append_of_notMem new]
        simp
      have known := List.idxOf_lt_length_of_mem (List.mem_eraseDups.1 ha)
      rw [earlier a ha]
      omega

namespace Draft

/-- A call on a draft. One that hands the draft on does what one that changes it in place does. -/
inductive Call (V T : Type) where
  | setStart (v : V)
  | addRule (head : V) (body : List (Sym V T))
  | addRules (head : V) (bodies : List (List (Sym V T)))

def Call.apply (d : Draft V T) : Call V T → Draft V T
  | .setStart v => d.withStart v
  | .addRule head body => d.addRule head body
  | .addRules head bodies => d.addRules head bodies

def ofCalls (cs : List (Call V T)) : Draft V T := cs.foldl Call.apply empty

def Call.start? : Call V T → Option V
  | .setStart v => some v
  | _ => none

def Call.added : Call V T → List (V × List (Sym V T))
  | .setStart _ => []
  | .addRule head body => [(head, body)]
  | .addRules head bodies => bodies.map fun body => (head, body)

def lastStart? (cs : List (Call V T)) : Option V := (cs.filterMap Call.start?).getLast?

def added (cs : List (Call V T)) : List (V × List (Sym V T)) := cs.flatMap Call.added

def addedHeads (cs : List (Call V T)) : List V := (added cs).map Prod.fst

def addedVars (cs : List (Call V T)) : List V := (added cs).flatMap fun r => r.2.filterMap Sym.var?

/-- The rule as a production, its body written with one epsilon if there is nothing in it. -/
def production (r : V × List (Sym V T)) : Production V T :=
  ⟨r.1, if r.2 = [] then [.eps] else r.2⟩

section Calls

variable {cs : List (Call V T)}

theorem stored_addRule (d : Draft V T) (head : V) (body : List (Sym V T)) :
    (d.addRule head body).rules = d.rules ++ [production (head, body)] := by
  cases body <;> simp [addRule, storedBody, production]

theorem start_addRules (d : Draft V T) (head : V) (bodies : List (List (Sym V T))) :
    (d.addRules head bodies).start = d.start := by
  induction bodies generalizing d with
  | nil => rfl
  | cons body bodies ih => exact ih (d.addRule head body)

theorem rules_addRules (d : Draft V T) (head : V) (bodies : List (List (Sym V T))) :
    (d.addRules head bodies).rules =
      d.rules ++ (bodies.map fun body => (head, body)).map production := by
  induction bodies generalizing d with
  | nil => simp [addRules]
  | cons body bodies ih =>
    have rest := ih (d.addRule head body)
    rw [stored_addRule] at rest
    simpa [addRules] using rest

theorem apply_spec (d : Draft V T) (c : Call V T) : (c.apply d).start = c.start?.or d.start ∧
    (c.apply d).rules = d.rules ++ c.added.map production := by
  cases c with
  | setStart v => exact ⟨rfl, (List.append_nil _).symm⟩
  | addRule head body => exact ⟨rfl, stored_addRule d head body⟩
  | addRules head bodies => exact ⟨start_addRules d head bodies, rules_addRules d head bodies⟩

theorem ofCalls_spec (cs : List (Call V T)) : (ofCalls cs).start = lastStart? cs ∧
    (ofCalls cs).rules = (added cs).map production := by
  induction cs using List.reverseRecOn with
  | nil => exact ⟨rfl, rfl⟩
  | append_singleton cs c ih =>
    have last : ofCalls (cs ++ [c]) = c.apply (ofCalls cs) := List.foldl_append
    obtain ⟨start, rules⟩ := apply_spec (ofCalls cs) c
    rw [last, start, rules, ih.1, ih.2]
    constructor
    · cases h : c.start? <;> simp [lastStart?, h]
    · simp [added]

theorem lastStart?_eq_none_iff : lastStart? cs = none ↔ ∀ v, .setStart v ∉ cs := by
  rw [lastStart?, List.getLast?_eq_none_iff, List.filterMap_eq_nil_iff]
  constructor
  · exact fun unset v set => nomatch unset _ set
  · intro unset c hc
    cases c with
    | setStart v => exact absurd hc (unset v)
    | addRule head body => rfl
    | addRules head bodies => rfl

end Calls

section Building

variable [DecidableEq V] {d : Draft V T} {s v : V}

theorem build_eq_noStart_iff : d.build = .error .noStart ↔ d.start = none := by
  unfold build
  split
  · simp [*]
  · split <;> simp [*]

theorem build_eq_undefined_iff :
    d.build = .error (.undefined v) ↔ ∃ s, d.start = some s ∧ d.firstUndefined s = some v := by
  unfold build
  split
  · simp [*]
  · split <;> simp [*]

theorem exists_build (hs : d.start = some s) (closed : d.firstUndefined s = none) :
    ∃ G, d.build = .ok G ∧ G.start = s ∧ G.productions = d.rules := by
  unfold build
  split
  · rename_i missing
    cases missing.symm.trans hs
  · rename_i s' set
    cases set.symm.trans hs
    split
    · rename_i found
      cases found.symm.trans closed
    · exact ⟨_, rfl, rfl, rfl⟩

theorem firstUndefined_eq_some_iff : d.firstUndefined s = some v ↔
    ∃ before after, s :: d.bodyVars = before ++ v :: after ∧
      (∀ u ∈ before, u ∈ d.rules.map Production.head) ∧ v ∉ d.rules.map Production.head := by
  simp only [firstUndefined, index, RuleIndex.mem_keys_ofRules, List.find?_eq_some_iff_append,
    decide_eq_true_eq, Bool.not_eq_true', decide_eq_false_iff_not, Classical.not_not]
  constructor
  · rintro ⟨missing, before, after, split, known⟩
    exact ⟨before, after, split, known, missing⟩
  · rintro ⟨before, after, split, known, missing⟩
    exact ⟨missing, before, after, split, known⟩

theorem firstUndefined_eq_none_iff : d.firstUndefined s = none ↔
    ∀ u ∈ s :: d.bodyVars, u ∈ d.rules.map Production.head := by
  simp only [firstUndefined, index, RuleIndex.mem_keys_ofRules, List.find?_eq_none,
    decide_eq_true_eq, Classical.not_not]

end Building

end Draft

/-- What a grammar with the start variable `s` shows of its rules, and the agreement of its tables
with them. -/
structure Grammar.Presents [DecidableEq V] [DecidableEq T] (G : Grammar V T) (s : V)
    (rules : List (V × List (Sym V T))) : Prop where
  start : G.start = s
  productions : G.productions = rules.map Draft.production
  vars : FirstAppearances (rules.map Prod.fst) G.vars
  terminals : FirstAppearances (rules.flatMap fun r => r.2.filterMap Sym.term?) G.terminals
  listed : ∀ v p id, (p, id) ∈ G.productionsOf v ↔ G.production? id = some p ∧ p.head = v
  increasing : ∀ v, ((G.productionsOf v).map Prod.snd).Pairwise (· < ·)
  nonempty : ∀ v, G.productionsOf v ≠ [] ↔ G.isVariable v = true
  owned : ∀ id < G.productions.length, ∃! v, id ∈ (G.productionsOf v).map Prod.snd
  indexed : G.index.entries = G.vars.map fun v => (v, (G.productionsOf v).map Prod.snd)
  numbered : ∀ v, RuleIndex.numbers G.index v = (G.productionsOf v).map Prod.snd

namespace Grammar

variable [DecidableEq V] {G : Grammar V T} {v : V} {id : Nat}

theorem increasing_productionsOf (G : Grammar V T) (v : V) :
    ((G.productionsOf v).map Prod.snd).Pairwise (· < ·) := by
  have all : (G.numbered.map Prod.snd).Pairwise (· < ·) := by
    rw [numbered, List.zipIdx_map_snd]
    exact List.pairwise_lt_range'
  rw [productionsOf_eq_filter]
  exact all.sublist (List.filter_sublist.map _)

theorem mem_ids_productionsOf : id ∈ (G.productionsOf v).map Prod.snd ↔
    ∃ p, G.production? id = some p ∧ p.head = v := by
  simp [List.mem_map, mem_productionsOf]

theorem numbers_index (G : Grammar V T) (v : V) :
    RuleIndex.numbers G.index v = (G.productionsOf v).map Prod.snd := by
  rw [productionsOf_eq_filter]
  exact RuleIndex.numbers_ofRules G.productions v

theorem entries_index (G : Grammar V T) :
    G.index.entries = G.vars.map fun v => (v, (G.productionsOf v).map Prod.snd) := by
  simp only [← numbers_index]
  exact Dict.entries_eq_map_keys G.index []

theorem existsUnique_owner (h : id < G.productions.length) :
    ∃! v, id ∈ (G.productionsOf v).map Prod.snd := by
  have found : G.production? id = some G.productions[id] := List.getElem?_eq_getElem h
  refine ⟨G.productions[id].head, mem_ids_productionsOf.2 ⟨_, found, rfl⟩, fun v owns => ?_⟩
  obtain ⟨p, hp, rfl⟩ := mem_ids_productionsOf.1 owns
  cases found.symm.trans hp
  rfl

end Grammar

namespace Draft

theorem bodyVars_production (r : V × List (Sym V T)) :
    (production r).bodyVars = r.2.filterMap Sym.var? := by
  unfold production Production.bodyVars
  split <;> simp [*, Sym.var?]

theorem bodyTerms_production (r : V × List (Sym V T)) :
    (production r).bodyTerms = r.2.filterMap Sym.term? := by
  unfold production Production.bodyTerms
  split <;> simp [*, Sym.term?]

theorem presents_of_rules [DecidableEq V] [DecidableEq T] {G : Grammar V T} {s : V}
    {rules : List (V × List (Sym V T))} (start : G.start = s)
    (stored : G.productions = rules.map production) : G.Presents s rules where
  start := start
  productions := stored
  vars := by
    have heads : G.productions.map Production.head = rules.map Prod.fst := by
      rw [stored, List.map_map]
      rfl
    rw [Grammar.vars_eq, heads]
    exact firstAppearances_eraseDups _
  terminals := by
    have terms : G.productions.flatMap Production.bodyTerms =
        rules.flatMap fun r => r.2.filterMap Sym.term? := by
      simp only [stored, List.flatMap_map, bodyTerms_production]
    exact terms ▸ firstAppearances_eraseDups _
  listed _ _ _ := Grammar.mem_productionsOf
  increasing := G.increasing_productionsOf
  nonempty _ := Grammar.productionsOf_ne_nil_iff.trans Grammar.isVariable_iff.symm
  owned _ := Grammar.existsUnique_owner
  indexed := G.entries_index
  numbered := G.numbers_index

variable [DecidableEq V] [DecidableEq T]

/-- Every draft, by the calls behind it: without a start variable it fails; else the first variable
that has no rule is reported, the start variable before those in bodies; and else it is the grammar
that presents the rules. -/
theorem build_exact (cs : List (Call V T)) :
    ((ofCalls cs).build = .error .noStart ↔ ∀ v, .setStart v ∉ cs) ∧
      (∀ v, (ofCalls cs).build = .error (.undefined v) ↔
        ∃ s before after, lastStart? cs = some s ∧ s :: addedVars cs = before ++ v :: after ∧
          (∀ u ∈ before, u ∈ addedHeads cs) ∧ v ∉ addedHeads cs) ∧
      ∀ s, lastStart? cs = some s → (∀ u ∈ s :: addedVars cs, u ∈ addedHeads cs) →
        ∃ G, (ofCalls cs).build = .ok G ∧ G.Presents s (added cs) := by
  obtain ⟨start, rules⟩ := ofCalls_spec cs
  have heads : (ofCalls cs).rules.map Production.head = addedHeads cs := by
    rw [rules, List.map_map]
    rfl
  have used : (ofCalls cs).bodyVars = addedVars cs := by
    simp only [bodyVars, rules, List.flatMap_map, bodyVars_production, addedVars]
  refine ⟨?_, fun v => ?_, fun s last closed => ?_⟩
  · rw [build_eq_noStart_iff, start, lastStart?_eq_none_iff]
  · simp only [build_eq_undefined_iff, firstUndefined_eq_some_iff, start, heads, used,
      exists_and_left]
  · have defined : (ofCalls cs).firstUndefined s = none :=
      firstUndefined_eq_none_iff.2 (by rwa [heads, used])
    obtain ⟨G, built, starts, stored⟩ := exists_build (start.trans last) defined
    exact ⟨G, built, presents_of_rules starts (stored.trans rules)⟩

def scatteredCalls : List (Call Char Char) :=
  [.setStart 'A', .addRule 'S' [.term 'a', .var 'A', .var 'B'], .addRules 'A' [[.term 'b'], []],
    .setStart 'S', .addRule 'S' [.eps]]

theorem scattered_built :
    (ofCalls scatteredCalls).build = .error (.undefined 'B') ∧
      ∃ G, (ofCalls (scatteredCalls ++ [.addRule 'B' []])).build = .ok G ∧
        G.Presents 'S' [('S', [.term 'a', .var 'A', .var 'B']), ('A', [.term 'b']), ('A', []),
          ('S', [.eps]), ('B', [])] := by
  have known : ∀ (cs : List (Call Char Char)) (xs : List Char),
      xs.all (· ∈ addedHeads cs) = true → ∀ u ∈ xs, u ∈ addedHeads cs :=
    fun cs xs all u hu => of_decide_eq_true (List.all_eq_true.1 all u hu)
  refine ⟨((build_exact scatteredCalls).2.1 'B').2 ?_, ?_⟩
  · exact ⟨'S', ['S', 'A'], [], rfl, rfl, known _ _ (by decide), by decide⟩
  · exact (build_exact (scatteredCalls ++ [.addRule 'B' []])).2.2 'S' rfl (known _ _ (by decide))

end Draft

end TopDown
