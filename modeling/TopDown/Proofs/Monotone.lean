import Mathlib.Data.List.NodupEquivFin
import TopDown.Parser
import TopDown.Proofs.Table

namespace TopDown

variable {V T : Type}

namespace Family

variable {κ α : Type} [DecidableEq κ]

/-- Both families have a set for each of `ks`, and all that is in the first is in the second. -/
def LeAt (ks : List κ) (F F' : Family κ α) : Prop :=
  ∀ k ∈ ks, ∃ s s', F.get? k = some s ∧ F'.get? k = some s' ∧ ∀ x ∈ s, x ∈ s'

/-- The families have sets for the same keys, with the same members. -/
def Agree (F F' : Family κ α) : Prop :=
  ∀ k, Option.Rel (fun s s' => ∀ x, x ∈ s ↔ x ∈ s') (F.get? k) (F'.get? k)

variable {F F' : Family κ α} {ks ks' : List κ}

theorem leAt_of_members (keys : F.keys = ks) (keys' : F'.keys = ks') (known : ∀ k ∈ ks, k ∈ ks')
    (le : ∀ k x, x ∈ members F k → x ∈ members F' k) : LeAt ks F F' := by
  intro k hk
  have here : k ∈ F.keys := keys ▸ hk
  have there : k ∈ F'.keys := keys' ▸ known k hk
  exact ⟨_, _, get?_of_mem_keys here, get?_of_mem_keys there, le k⟩

theorem get?_eq_none_of_notMem_keys {k : κ} (h : k ∉ F.keys) : F.get? k = none := by
  rw [Option.eq_none_iff_forall_ne_some]
  intro s hs
  exact h (Dict.mem_keys_iff.2 ⟨s, hs⟩)

theorem agree_of_members (keys : ∀ k, k ∈ F.keys ↔ k ∈ F'.keys)
    (same : ∀ k x, x ∈ members F k ↔ x ∈ members F' k) : Agree F F' := by
  intro k
  by_cases hk : k ∈ F.keys
  · rw [get?_of_mem_keys hk, get?_of_mem_keys ((keys k).1 hk)]
    exact .some (same k)
  · rw [get?_eq_none_of_notMem_keys hk, get?_eq_none_of_notMem_keys (mt (keys k).2 hk)]
    exact .none

end Family

theorem duplicate_iff_getElem? {α : Type} {xs : List α} {x : α} :
    xs.Duplicate x ↔ ∃ i j : Nat, i ≠ j ∧ xs[i]? = some x ∧ xs[j]? = some x := by
  rw [List.duplicate_iff_exists_distinct_get]
  constructor
  · rintro ⟨i, j, lt, hi, hj⟩
    refine ⟨i, j, Nat.ne_of_lt lt, ?_, ?_⟩
    · rw [hi, List.get_eq_getElem, List.getElem?_eq_getElem]
    · rw [hj, List.get_eq_getElem, List.getElem?_eq_getElem]
  · rintro ⟨i, j, ne, hi, hj⟩
    obtain ⟨lti, hi⟩ := List.getElem?_eq_some_iff.1 hi
    obtain ⟨ltj, hj⟩ := List.getElem?_eq_some_iff.1 hj
    rcases Nat.lt_or_gt_of_ne ne with lt | lt
    · exact ⟨⟨i, lti⟩, ⟨j, ltj⟩, lt, hi.symm, hj.symm⟩
    · exact ⟨⟨j, ltj⟩, ⟨i, lti⟩, lt, hj.symm, hi.symm⟩

section Rules

variable {G G' : Grammar V T}

theorem Grammar.Derives.of_subset {read : List (Sym V T) → List (Sym V T)}
    (sub : G.productions ⊆ G'.productions) {x y : List (Sym V T)} (h : G.Derives read x y) :
    G'.Derives read x y := by
  refine Relation.ReflTransGen.mono ?_ x y h
  rintro u v ⟨p, hp, rewritten⟩
  exact ⟨p, sub hp, rewritten⟩

theorem Grammar.Begins.of_subset {read : List (Sym V T) → List (Sym V T)}
    (sub : G.productions ⊆ G'.productions) {x : List (Sym V T)} {f : First T}
    (h : G.Begins read x f) : G'.Begins read x f := by
  cases f with
  | term t =>
    obtain ⟨β, hβ⟩ := h
    exact ⟨β, hβ.of_subset sub⟩
  | eps => exact Grammar.Derives.of_subset sub h

/-- Two numbers of `G` have two numbers of `G'` for their rules, also if it is one rule twice. -/
theorem Grammar.exists_distinct (sub : G.productions.Subperm G'.productions) {i j : Nat}
    (hij : i ≠ j) {p q : Production V T} (hp : G.production? i = some p)
    (hq : G.production? j = some q) :
    ∃ i' j', i' ≠ j' ∧ G'.production? i' = some p ∧ G'.production? j' = some q := by
  by_cases same : p = q
  · subst same
    classical
    have twice : G.productions.Duplicate p := duplicate_iff_getElem?.2 ⟨i, j, hij, hp, hq⟩
    rw [List.duplicate_iff_two_le_count] at twice
    have := sub.count_le p
    exact duplicate_iff_getElem?.1 (List.duplicate_iff_two_le_count.2 (Nat.le_trans twice this))
  · obtain ⟨i', hp'⟩ := exists_production? (sub.subset (mem_productions_of_production? hp))
    obtain ⟨j', hq'⟩ := exists_production? (sub.subset (mem_productions_of_production? hq))
    refine ⟨i', j', ?_, hp', hq'⟩
    rintro rfl
    exact same (Option.some.inj (hp'.symm.trans hq'))

variable [DecidableEq V]

theorem Grammar.vars_mono (sub : G.productions ⊆ G'.productions) : ∀ v ∈ G.vars, v ∈ G'.vars := by
  intro v hv
  obtain ⟨p, hp, rfl⟩ := Grammar.mem_vars.1 hv
  exact Grammar.head_mem_vars (sub hp)

variable [DecidableEq T]

theorem Firsts.ofSymbols_mono (sub : G.productions ⊆ G'.productions) {x : List (Sym V T)}
    {f : First T} (h : f ∈ (ofGrammar G).ofSymbols x) : f ∈ (ofGrammar G').ofSymbols x :=
  mem_ofSymbols_iff.2 ((mem_ofSymbols_iff.1 h).of_subset sub)

theorem Firsts.members_mono (sub : G.productions ⊆ G'.productions) (v : V) (f : First T)
    (h : f ∈ Family.members (ofGrammar G).sets v) : f ∈ Family.members (ofGrammar G').sets v :=
  mem_members_iff.2 ((mem_members_iff.1 h).of_subset sub)

theorem Firsts.Ahead.of_subset (sub : G.productions ⊆ G'.productions)
    {next next' : Lookahead T → Prop} (later : ∀ a, next a → next' a) {x : List (Sym V T)}
    {a : Lookahead T} (h : (ofGrammar G).Ahead next x a) : (ofGrammar G').Ahead next' x a :=
  h.imp (fun _ => ofSymbols_mono sub) later

theorem Follows.members_mono (start : G.start = G'.start) (sub : G.productions ⊆ G'.productions)
    (v : V) (a : Lookahead T)
    (h : a ∈ Family.members (ofFirsts G (Firsts.ofGrammar G)).sets v) :
    a ∈ Family.members (ofFirsts G' (Firsts.ofGrammar G')).sets v := by
  have larger := ofFirsts_solves G' (Firsts.ofGrammar G')
  have solves : Solves G (Firsts.ofGrammar G) (Says (ofFirsts G' (Firsts.ofGrammar G')).sets) := by
    refine ⟨start ▸ larger.eof, ?_⟩
    intro p hp
    rw [Firsts.covers_iff]
    intro α v β hbody a ha
    have behind := Firsts.covers_iff.1 (larger.bodies p (sub hp)) α v β hbody
    exact behind a (ha.of_subset sub fun _ h => h)
  exact ofFirsts_least solves h

theorem Table.claims_mono (start : G.start = G'.start) (sub : G.productions ⊆ G'.productions)
    {p : Production V T} {a : Lookahead T}
    (h : a ∈ claims (Parser.ofGrammar G).first (Parser.ofGrammar G).follow p) :
    a ∈ claims (Parser.ofGrammar G').first (Parser.ofGrammar G').follow p := by
  rw [mem_claims] at h ⊢
  exact h.of_subset sub (Follows.members_mono start sub p.head)

theorem Table.filled_iff {first : Firsts V T} {follow : Follows V T} {v : V} {a : Lookahead T} :
    (ofSets G first follow).get? v a ≠ none ↔ ∃ id, Claimant G first follow v a id := by
  rw [Ne, get?_eq_none_iff, Classical.not_forall_not]

theorem Table.filled_mono (start : G.start = G'.start) (sub : G.productions ⊆ G'.productions)
    {v : V} {a : Lookahead T} (h : (Parser.ofGrammar G).tableOf.get? v a ≠ none) :
    (Parser.ofGrammar G').tableOf.get? v a ≠ none := by
  obtain ⟨id, claimant⟩ := filled_iff.1 h
  obtain ⟨p, hp, head, ha⟩ := claimant_iff.1 claimant
  obtain ⟨id', hp'⟩ := Grammar.exists_production? (sub (Grammar.mem_productions_of_production? hp))
  exact filled_iff.2 ⟨id', claimant_iff.2 ⟨p, hp', head, claims_mono start sub ha⟩⟩

theorem Table.isLL1_antitone (start : G.start = G'.start)
    (sub : G.productions.Subperm G'.productions)
    (h : (Parser.ofGrammar G').tableOf.isLL1 = true) : (Parser.ofGrammar G).tableOf.isLL1 = true := by
  rw [Parser.tableOf, ofSets_isLL1_iff] at h ⊢
  intro v a i j hi hj
  by_contra hij
  obtain ⟨p, hp, headp, hpa⟩ := claimant_iff.1 hi
  obtain ⟨q, hq, headq, hqa⟩ := claimant_iff.1 hj
  obtain ⟨i', j', distinct, hp', hq'⟩ := Grammar.exists_distinct sub hij hp hq
  exact distinct (h v a i' j'
    (claimant_iff.2 ⟨p, hp', headp, claims_mono start sub.subset hpa⟩)
    (claimant_iff.2 ⟨q, hq', headq, claims_mono start sub.subset hqa⟩))

/-- If the rules of `G`, as often as they are given, are all among those of `G'`, then the sets of
`G'` have all that those of `G` have, all cells that `G` fills are filled, and a conflict stays a
conflict. The order of the rules makes no difference to any of this. -/
theorem analysis_mono (G G' : Grammar V T) (start : G.start = G'.start) :
    (G.productions.Subperm G'.productions →
      Family.LeAt G.vars (Parser.ofGrammar G).first.sets (Parser.ofGrammar G').first.sets ∧
      Family.LeAt G.vars (Parser.ofGrammar G).follow.sets (Parser.ofGrammar G').follow.sets ∧
      (∀ v a, (Parser.ofGrammar G).tableOf.get? v a ≠ none →
        (Parser.ofGrammar G').tableOf.get? v a ≠ none) ∧
      ((Parser.ofGrammar G).tableOf.conflicts ≠ [] →
        (Parser.ofGrammar G').tableOf.conflicts ≠ [])) ∧
    (G.productions.Perm G'.productions →
      Family.Agree (Parser.ofGrammar G).first.sets (Parser.ofGrammar G').first.sets ∧
      Family.Agree (Parser.ofGrammar G).follow.sets (Parser.ofGrammar G').follow.sets ∧
      (∀ v a, (Parser.ofGrammar G).tableOf.get? v a ≠ none ↔
        (Parser.ofGrammar G').tableOf.get? v a ≠ none) ∧
      (Parser.ofGrammar G).tableOf.isLL1 = (Parser.ofGrammar G').tableOf.isLL1) := by
  have firstKeys : ∀ G : Grammar V T, (Parser.ofGrammar G).first.sets.keys = G.vars :=
    Firsts.ofGrammar_keys
  have followKeys : ∀ G : Grammar V T, (Parser.ofGrammar G).follow.sets.keys = G.vars :=
    fun G => Follows.ofFirsts_keys G _
  constructor
  · intro sub
    have known := Grammar.vars_mono sub.subset
    refine ⟨?_, ?_, fun v a => Table.filled_mono start sub.subset, ?_⟩
    · exact Family.leAt_of_members (firstKeys G) (firstKeys G') known
        (Firsts.members_mono sub.subset)
    · exact Family.leAt_of_members (followKeys G) (followKeys G') known
        (Follows.members_mono start sub.subset)
    · intro conflict peaceful
      exact conflict (Table.isLL1_iff.1
        (Table.isLL1_antitone start sub (Table.isLL1_iff.2 peaceful)))
  · intro perm
    have sub := perm.subset
    have sub' := perm.symm.subset
    have vars : ∀ v, v ∈ G.vars ↔ v ∈ G'.vars :=
      fun v => ⟨Grammar.vars_mono sub v, Grammar.vars_mono sub' v⟩
    refine ⟨?_, ?_, ?_, ?_⟩
    · apply Family.agree_of_members
      · simpa only [firstKeys] using vars
      · exact fun v f => ⟨Firsts.members_mono sub v f, Firsts.members_mono sub' v f⟩
    · apply Family.agree_of_members
      · simpa only [followKeys] using vars
      · intro v a
        exact ⟨Follows.members_mono start sub v a, Follows.members_mono start.symm sub' v a⟩
    · intro v a
      exact ⟨Table.filled_mono start sub, Table.filled_mono start.symm sub'⟩
    · rw [Bool.eq_iff_iff]
      constructor
      · exact Table.isLL1_antitone start.symm perm.symm.subperm
      · exact Table.isLL1_antitone start perm.subperm

end Rules

def doubledGrammar : Grammar Char Char where
  start := 'S'
  productions := [⟨'S', [.var 'B', .term 'a']⟩, ⟨'B', [.eps]⟩, ⟨'B', [.eps]⟩]
  body_ne_nil := by decide
  start_defined := by decide
  closed := by simp +contextual [Production.bodyVars, Sym.var?]

/-- The same rules from the end to the beginning, with two more. -/
def enlargedGrammar : Grammar Char Char where
  start := 'S'
  productions := [⟨'B', [.eps]⟩, ⟨'B', [.term 'b', .var 'C']⟩, ⟨'B', [.eps]⟩,
    ⟨'S', [.var 'B', .term 'a']⟩, ⟨'C', [.eps]⟩]
  body_ne_nil := by decide
  start_defined := by decide
  closed := by simp +contextual [Production.bodyVars, Sym.var?]

def reorderedGrammar : Grammar Char Char where
  start := 'S'
  productions := [⟨'B', [.eps]⟩, ⟨'S', [.var 'B', .term 'a']⟩, ⟨'B', [.eps]⟩]
  body_ne_nil := by decide
  start_defined := by decide
  closed := by simp +contextual [Production.bodyVars, Sym.var?]

/-- The rule that is given twice is in conflict with itself, also among more rules and in another
order, and the cell that it has before `a` stays filled. -/
theorem doubled_conflict_stays :
    doubledGrammar.productions.Subperm enlargedGrammar.productions ∧
    doubledGrammar.productions.Perm reorderedGrammar.productions ∧
    (Parser.ofGrammar doubledGrammar).tableOf.conflicts ≠ [] ∧
    (Parser.ofGrammar enlargedGrammar).tableOf.conflicts ≠ [] ∧
    (Parser.ofGrammar enlargedGrammar).tableOf.get? 'B' (.term 'a') ≠ none ∧
    (Parser.ofGrammar reorderedGrammar).tableOf.isLL1 = false := by
  have sub : doubledGrammar.productions.Subperm enlargedGrammar.productions := by decide
  have perm : doubledGrammar.productions.Perm reorderedGrammar.productions := by decide
  have conflict : (Parser.ofGrammar doubledGrammar).tableOf.conflicts ≠ [] := by decide
  have mixed : (Parser.ofGrammar doubledGrammar).tableOf.isLL1 = false := by decide
  obtain ⟨_, _, filled, conflicts⟩ := (analysis_mono doubledGrammar enlargedGrammar rfl).1 sub
  obtain ⟨_, _, _, same⟩ := (analysis_mono doubledGrammar reorderedGrammar rfl).2 perm
  exact ⟨sub, perm, conflict, conflicts conflict, filled 'B' (.term 'a') (by decide),
    same.symm.trans mixed⟩

end TopDown
