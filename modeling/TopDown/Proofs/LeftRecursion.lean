import TopDown.Proofs.Recognition

namespace TopDown

variable {V T : Type}

theorem Grammar.exists_leads_to_front {G : Grammar V T} {A : V} {s : Sym V T} {γ : List (Sym V T)}
    (h : Relation.TransGen (G.Rewrites erase) [.var A] (s :: γ)) :
    ∃ id ids γ', G.Leads [.var A] (id :: ids) [] (s :: γ') := by
  obtain ⟨y, first, rest⟩ := Relation.TransGen.head'_iff.1 h
  rcases first.head_or_tail with ⟨id, p, β, hid, hx, rfl⟩ | ⟨_, x', _, hx, _, _, _, α, β, inner, _⟩
  · obtain ⟨rfl, rfl⟩ : A = p.head ∧ β = [] := by simpa [eq_comm] using hx
    obtain ⟨ids, y, leads, front⟩ := exists_leads (w := []) (y := s :: γ) rest
    obtain ⟨γ', rfl⟩ := List.head?_eq_some_iff.1 front
    exact ⟨id, ids, γ', .apply hid leads⟩
  · -- behind the only symbol there is nothing to rewrite
    obtain ⟨_, rfl⟩ := List.cons.inj hx
    simp at inner

variable [DecidableEq V] [DecidableEq T] {G : Grammar V T}

/-- Without conflicts, what is left-recursive nests within itself on every terminal that it can
begin with. -/
theorem nests_of_leftRecursion (last : G.EpsilonLast)
    (ll1 : (Parser.ofGrammar G).tableOf.isLL1 = true) {A : V} {γ : List (Sym V T)} {t : T}
    (ht : .term t ∈ Family.members (Firsts.ofGrammar G).sets A)
    (loop : Relation.TransGen (G.Rewrites erase) [.var A] (.var A :: γ)) :
    Nests G (Parser.ofGrammar G).tableOf [t] A A := by
  obtain ⟨id, ids, γ', leads⟩ := Grammar.exists_leads_to_front loop
  have ahead : (Firsts.ofGrammar G).Ahead (Follows.Says (Parser.ofGrammar G).follow.sets A)
      (.var A :: γ') (.ofWord [t]) :=
    Or.inl ⟨t, rfl, Firsts.mem_leading_var.2 (Or.inl ⟨by simp, ht⟩)⟩
  refine ⟨ids.length, γ', fun z => ?_⟩
  obtain ⟨ss, path, _, count⟩ := path_from_var last ll1 leads ahead z
  exact ⟨ss, path, by simpa using count⟩

/-- Where bodies end with their epsilons, left recursion is always reported: if a variable that can
begin with a terminal derives a form with itself in front, the table has a conflict. -/
theorem conflict_of_leftRecursion (G : Grammar V T) (last : G.EpsilonLast) {A : V}
    {s : ListSet (First T)} {t : T} (found : (Firsts.ofGrammar G).get? A = some s)
    (ht : .term t ∈ s) {γ : List (Sym V T)}
    (loop : Relation.TransGen (G.Rewrites erase) [.var A] (.var A :: γ)) :
    (Parser.ofGrammar G).tableOf.conflicts ≠ [] ∧
      (Parser.ofGrammar G).tableOf.isLL1 = false := by
  have mixed : (Parser.ofGrammar G).tableOf.isLL1 ≠ true := by
    intro ll1
    have member : .term t ∈ Family.members (Firsts.ofGrammar G).sets A :=
      Family.mem_members_iff.2 ⟨s, found, ht⟩
    have nests := nests_of_leftRecursion last ll1 member loop
    have ends := ends_live last ll1 (x := [.var A]) (by simp) [t]
    exact not_ends_of_nests nests [] ends
  exact ⟨fun none => mixed (Table.isLL1_iff.2 none), Bool.eq_false_iff.2 mixed⟩

def hiddenRecursionGrammar : Grammar Char Char where
  start := 'S'
  productions := [⟨'S', [.var 'B', .var 'S', .term 'a']⟩, ⟨'S', [.term 'b']⟩, ⟨'B', [.eps]⟩,
    ⟨'B', [.term 'c']⟩]
  body_ne_nil := by decide
  start_defined := by decide
  closed := by simp +contextual [Production.bodyVars, Sym.var?, eq_comm]

/-- No body of the grammar begins with its own head, and still `S` comes back in front of `a`. -/
theorem hidden_recursion_reported : hiddenRecursionGrammar.EpsilonLast ∧
    (∃ s, (Firsts.ofGrammar hiddenRecursionGrammar).get? 'S' = some s ∧ .term 'b' ∈ s) ∧
    Relation.TransGen (hiddenRecursionGrammar.Rewrites erase) [.var 'S'] [.var 'S', .term 'a'] ∧
    (Parser.ofGrammar hiddenRecursionGrammar).tableOf.conflicts ≠ [] := by
  have last : hiddenRecursionGrammar.EpsilonLast := by decide
  have first : ∃ s, (Firsts.ofGrammar hiddenRecursionGrammar).get? 'S' = some s ∧ .term 'b' ∈ s :=
    ⟨_, rfl, by decide⟩
  have loop : Relation.TransGen (hiddenRecursionGrammar.Rewrites erase) [.var 'S']
      [.var 'S', .term 'a'] := by
    have body : hiddenRecursionGrammar.Rewrites erase [.var 'S']
        [.var 'B', .var 'S', .term 'a'] :=
      ⟨_, List.mem_cons_self, [], [], rfl, rfl⟩
    have vanish : hiddenRecursionGrammar.Rewrites erase [.var 'B', .var 'S', .term 'a']
        [.var 'S', .term 'a'] :=
      ⟨⟨'B', [.eps]⟩, by decide, [], [.var 'S', .term 'a'], rfl, rfl⟩
    exact .tail (.single body) vanish
  obtain ⟨s, found, hs⟩ := first
  exact ⟨last, ⟨s, found, hs⟩, loop,
    (conflict_of_leftRecursion hiddenRecursionGrammar last found hs loop).1⟩

end TopDown
