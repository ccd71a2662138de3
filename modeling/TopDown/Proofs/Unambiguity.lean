import TopDown.Proofs.Recognition

namespace TopDown

variable {V T : Type} [DecidableEq V] [DecidableEq T]

theorem expansions_of_derivesLeft {G : Grammar V T} (last : G.EpsilonLast)
    (ll1 : (Parser.ofGrammar G).tableOf.isLL1 = true) {w : List T} {ids : List Nat}
    (h : G.DerivesLeft ids [.var G.start] (Sym.ofWord w)) :
    (run G (Parser.ofGrammar G).tableOf (G.stepLimit w) (Config.initial G w)).expansions = ids := by
  obtain ⟨n, accepted, expands⟩ := run_of_leads last ll1 h.leads
  have ended : (run G (Parser.ofGrammar G).tableOf n (Config.initial G w)).ending ≠ .unfinished := by
    simp [accepted]
  rw [run_eq_of_ended (parse_ended last ll1 w) ended]
  exact expands

/-- Where bodies end with their epsilons, a table without conflicts leaves no word two leftmost
derivations, and the parse of a word expands the derivation that it has. -/
theorem derivesLeft_unique (G : Grammar V T) (last : G.EpsilonLast) (w : List T) :
    ((Parser.ofGrammar G).tableOf.isLL1 = true →
      (∀ ids ids', G.DerivesLeft ids [.var G.start] (Sym.ofWord w) →
        G.DerivesLeft ids' [.var G.start] (Sym.ofWord w) → ids = ids') ∧
      ∃ r, (Parser.ofGrammar G).parse w = .ok r ∧
        ∀ ids, G.DerivesLeft ids [.var G.start] (Sym.ofWord w) → r.expansions = ids) ∧
    ∀ ids ids', G.DerivesLeft ids [.var G.start] (Sym.ofWord w) →
      G.DerivesLeft ids' [.var G.start] (Sym.ofWord w) → ids ≠ ids' →
      (Parser.ofGrammar G).tableOf.conflicts ≠ [] := by
  have unique : (Parser.ofGrammar G).tableOf.isLL1 = true → ∀ ids ids',
      G.DerivesLeft ids [.var G.start] (Sym.ofWord w) →
      G.DerivesLeft ids' [.var G.start] (Sym.ofWord w) → ids = ids' := by
    intro ll1 ids ids' h h'
    exact (expansions_of_derivesLeft last ll1 h).symm.trans (expansions_of_derivesLeft last ll1 h')
  constructor
  · intro ll1
    refine ⟨unique ll1, _, Parser.parse_ofGrammar G w, ?_⟩
    intro ids h
    exact expansions_of_derivesLeft last ll1 h
  · intro ids ids' h h' different peaceful
    exact different (unique (Table.isLL1_iff.2 peaceful) ids ids' h h')

def repeatedGrammar : Grammar Char Char where
  start := 'S'
  productions := [⟨'S', [.term 'a']⟩, ⟨'S', [.term 'a']⟩]
  body_ne_nil := by decide
  start_defined := by decide
  closed := by simp [Production.bodyVars, Sym.var?]

theorem sample_unique : sampleGrammar.EpsilonLast ∧
    (Parser.ofGrammar sampleGrammar).tableOf.isLL1 = true ∧
    sampleGrammar.DerivesLeft [1, 5] [.var 'S'] (Sym.ofWord ['b', 'c']) ∧
    (∀ ids, sampleGrammar.DerivesLeft ids [.var 'S'] (Sym.ofWord ['b', 'c']) → ids = [1, 5]) ∧
    repeatedGrammar.EpsilonLast ∧
    repeatedGrammar.DerivesLeft [0] [.var 'S'] (Sym.ofWord ['a']) ∧
    repeatedGrammar.DerivesLeft [1] [.var 'S'] (Sym.ofWord ['a']) ∧
    (Parser.ofGrammar repeatedGrammar).tableOf.conflicts ≠ [] := by
  have last : sampleGrammar.EpsilonLast := by decide
  have ll1 : (Parser.ofGrammar sampleGrammar).tableOf.isLL1 = true := by decide
  have derived : sampleGrammar.DerivesLeft [1, 5] [.var 'S'] (Sym.ofWord ['b', 'c']) :=
    .step ⟨_, rfl, [], [], rfl, rfl⟩ (.step ⟨_, rfl, ['b'], [.term 'c'], rfl, rfl⟩ (.refl _))
  have last' : repeatedGrammar.EpsilonLast := by decide
  have first : repeatedGrammar.DerivesLeft [0] [.var 'S'] (Sym.ofWord ['a']) :=
    .step ⟨_, rfl, [], [], rfl, rfl⟩ (.refl _)
  have second : repeatedGrammar.DerivesLeft [1] [.var 'S'] (Sym.ofWord ['a']) :=
    .step ⟨_, rfl, [], [], rfl, rfl⟩ (.refl _)
  have unique := ((derivesLeft_unique sampleGrammar last ['b', 'c']).1 ll1).1
  have conflict := (derivesLeft_unique repeatedGrammar last' ['a']).2 [0] [1] first second
  exact ⟨last, ll1, derived, fun ids h => unique ids [1, 5] h derived, last', first, second,
    conflict (by decide)⟩

end TopDown
