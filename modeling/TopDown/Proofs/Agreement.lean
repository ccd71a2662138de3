import TopDown.Proofs.Recognition
import TopDown.Proofs.Sentence

namespace TopDown

variable {V T σ : Type}

section Trees

variable {G : Grammar V T}

theorem derives_yieldAll {cs : List (Tree V T)}
    (h : ∀ c ∈ cs, G.Derives erase [c.root] (Sym.ofWord c.yield)) :
    G.Derives erase (cs.map Tree.root) (Sym.ofWord (Tree.yieldAll cs)) := by
  induction cs with
  | nil => exact .refl
  | cons c cs ih =>
    have front := (h c List.mem_cons_self).append_right (cs.map Tree.root)
    have back := (ih fun d hd => h d (List.mem_cons_of_mem c hd)).append_left (Sym.ofWord c.yield)
    rw [Tree.yieldAll, Sym.ofWord_append]
    exact front.trans back

theorem Tree.IsValid.derives {t : Tree V T} (h : t.IsValid G) :
    G.Derives erase [t.root] (Sym.ofWord t.yield) := by
  induction h with
  | leaf a => exact .refl
  | node hp roots _ ih =>
    have children := derives_yieldAll ih
    rw [roots] at children
    exact (Grammar.derives_body hp).trans children

theorem Grammar.HasTree.generates {n : Nat} {w : List T} (h : G.HasTree n G.start w) :
    G.Generates w := by
  obtain ⟨t, valid, root, _, rfl⟩ := h
  rw [Grammar.Generates, ← root]
  exact valid.derives

end Trees

variable [DecidableEq V] [DecidableEq T] [Chooser σ]

omit [DecidableEq T] in
theorem generates_of_generate {G : Grammar V T} {L : Limits} (whole : L.overflow = .retry) {s : σ}
    {w : List T} (h : (G.generate L s).1.result = .ok w) : G.Generates w := by
  rcases Grammar.generate_cases G L s with ⟨_, hg⟩ | ⟨_, j, tried⟩
  · rw [hg] at h
    cases h
  · rcases tried.ending with ⟨_, _, hr⟩ | ⟨_, _, v, u, made, kept, hr⟩
    · cases hr.symm.trans h
    · cases hr.symm.trans h
      rcases (Limits.keep?_eq_some_iff.1 kept).2 with ⟨rfl, _⟩ | ⟨cut, _⟩
      · exact (Grammar.hasTree_of_expand made).generates
      · cases whole.symm.trans cut

/-- Where bodies end with their epsilons, a parser without conflicts accepts every sentence that the
generator makes without cutting it short. -/
theorem parse_generated (G : Grammar V T) (last : G.EpsilonLast)
    (ll1 : (Parser.ofGrammar G).tableOf.isLL1 = true) (L : Limits) (whole : L.overflow = .retry)
    (s : σ) (w : List T) (h : (G.generate L s).1.result = .ok w) :
    ∃ r, (Parser.ofGrammar G).parse w = .ok r ∧ r.isAccepted = true :=
  ⟨_, Parser.parse_ofGrammar G w,
    (accepted_iff_generates last ll1 (parse_ended last ll1 w)).2 (generates_of_generate whole h)⟩

theorem sample_agreement : sampleGrammar.EpsilonLast ∧
    (Parser.ofGrammar sampleGrammar).tableOf.isLL1 = true ∧
    (sampleGrammar.generate { min := 2, max := 2, overflow := .retry }
      (Source.ofSeed 0 [0x8000000000000000, 0x8000000000000000])).1.result = .ok ['b', 'c'] ∧
    ∃ r, (Parser.ofGrammar sampleGrammar).parse ['b', 'c'] = .ok r ∧ r.isAccepted = true := by
  have last : sampleGrammar.EpsilonLast := by decide
  have ll1 : (Parser.ofGrammar sampleGrammar).tableOf.isLL1 = true := by decide
  have made : (sampleGrammar.generate { min := 2, max := 2, overflow := .retry }
      (Source.ofSeed 0 [0x8000000000000000, 0x8000000000000000])).1.result = .ok ['b', 'c'] := by rfl
  exact ⟨last, ll1, made, parse_generated sampleGrammar last ll1 _ rfl _ _ made⟩

def innerEpsilonGrammar : Grammar Char Char where
  start := 'S'
  productions := [⟨'S', [.eps, .term 'a']⟩]
  body_ne_nil := by decide
  start_defined := by decide
  closed := by simp [Production.bodyVars, Sym.var?]

/-- The generator and the stack skip the epsilon, but for the table the body ends there. So the
grammar has no conflict and the sentence `a`, and the parser rejects it. -/
theorem rejected_behind_epsilon : ¬ ∀ G : Grammar Char Char,
    (Parser.ofGrammar G).tableOf.isLL1 = true → ∀ L : Limits, L.overflow = .retry →
    ∀ (s : Source) (w : List Char), (G.generate L s).1.result = .ok w →
      ∃ r, (Parser.ofGrammar G).parse w = .ok r ∧ r.isAccepted = true := by
  intro agree
  have ll1 : (Parser.ofGrammar innerEpsilonGrammar).tableOf.isLL1 = true := by decide
  have made : (innerEpsilonGrammar.generate { min := 1, max := 1, overflow := .retry }
      (Source.ofSeed 0 [0])).1.result = .ok ['a'] := by rfl
  obtain ⟨r, parsed, accepted⟩ := agree innerEpsilonGrammar ll1 _ rfl _ _ made
  rw [Parser.parse_ofGrammar] at parsed
  cases parsed
  exact absurd accepted (by decide)

end TopDown
