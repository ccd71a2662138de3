import TopDown.Proofs.Limit

/-! A body that does not vanish is expanded only where its first terminal is ahead. The step behind
the expansion consumes this terminal, and it can pay for the variables that the body has brought. -/
namespace TopDown

variable {V T : Type}

/-- Every body consists of epsilons or has a terminal in front, and none has more than `k`
variables. -/
structure Grammar.TerminalLed (G : Grammar V T) (k : Nat) : Prop where
  front : ∀ p ∈ G.productions, (∀ s ∈ p.body, s = .eps) ∨ ∃ a rest, p.body = .term a :: rest
  few : ∀ p ∈ G.productions, p.bodyVars.length ≤ k

theorem any_head_isTerm_iff {x : List (Sym V T)} :
    x.head?.any Sym.isTerm = true ↔ ∃ a rest, x = .term a :: rest := by
  cases x with
  | nil => simp
  | cons s x => cases s <;> simp [Sym.isTerm]

instance [DecidableEq V] [DecidableEq T] (G : Grammar V T) (k : Nat) :
    Decidable (G.TerminalLed k) :=
  decidable_of_iff
    ((∀ p ∈ G.productions, (∀ s ∈ p.body, s = .eps) ∨ p.body.head?.any Sym.isTerm = true) ∧
      ∀ p ∈ G.productions, p.bodyVars.length ≤ k)
    ⟨fun h => ⟨fun p hp => (h.1 p hp).imp_right any_head_isTerm_iff.1, h.2⟩,
      fun h => ⟨fun p hp => (h.front p hp).imp_right any_head_isTerm_iff.2, h.few⟩⟩

def countVars (x : List (Sym V T)) : Nat := (x.filterMap Sym.var?).length

/-- Steps that are enough from the form `x` before `w`: one for each variable of the form and one to
stop; each terminal pays for its match and for `k` variables more. -/
def budget (k : Nat) (x : List (Sym V T)) (w : List T) : Nat :=
  (k + 1) * w.length + countVars x + 1

@[simp] theorem countVars_term (a : T) (x : List (Sym V T)) :
    countVars (.term a :: x) = countVars x := rfl

@[simp] theorem countVars_var (v : V) (x : List (Sym V T)) :
    countVars (.var v :: x) = countVars x + 1 := rfl

@[simp] theorem countVars_eps (x : List (Sym V T)) : countVars (.eps :: x) = countVars x := rfl

theorem countVars_append (x y : List (Sym V T)) :
    countVars (x ++ y) = countVars x + countVars y := by
  simp [countVars]

theorem countVars_erase (body : List (Sym V T)) : countVars (erase body) = countVars body := by
  induction body with
  | nil => rfl
  | cons s body ih =>
    cases s with
    | term a => simpa using ih
    | var v => simpa using ih
    | eps => simpa using ih

variable [DecidableEq V] [DecidableEq T]

section Steps

variable {G : Grammar V T} {k : Nat} {x : List (Sym V T)} {w : List T}

theorem ahead_of_cell {id : Nat} {p : Production V T} {a : T} {rest : List (Sym V T)}
    (cell : (Parser.ofGrammar G).tableOf.get? p.head (.ofWord w) = some id)
    (hid : G.production? id = some p) (body : p.body = .term a :: rest) : ∃ v, w = a :: v := by
  obtain ⟨q, hq, _, claim⟩ := Table.exists_claimant cell
  obtain rfl : q = p := Option.some.inj (hq.symm.trans hid)
  rw [Table.mem_claims, body, Firsts.ahead_term] at claim
  cases w with
  | nil => cases claim
  | cons b v =>
    cases claim
    exact ⟨v, rfl⟩

/-- An expansion costs no more than it takes from the budget, if the match behind it is taken into
account. -/
theorem expansion_paid (led : G.TerminalLed k) {id : Nat} {p : Production V T}
    (clean : Sym.eps ∉ x) (cell : (Parser.ofGrammar G).tableOf.get? p.head (.ofWord w) = some id)
    (hid : G.production? id = some p) :
    ∃ ss y v, Path G (Parser.ofGrammar G).tableOf ss (.live (.var p.head :: x) w) (.live y v) ∧
      Sym.eps ∉ y ∧ 0 < ss.length ∧ ss.length + budget k y v ≤ budget k (.var p.head :: x) w := by
  have hp := Grammar.mem_productions_of_production? hid
  obtain ⟨ss, path, one⟩ := expands_head cell hid x
  rcases led.front p hp with vanishes | ⟨a, rest, body⟩
  · have none : erase p.body = [] :=
      List.filter_eq_nil_iff.2 fun s hs => by simp [vanishes s hs, Sym.isEps]
    rw [none, List.nil_append] at path
    refine ⟨ss, x, w, path, clean, by omega, ?_⟩
    unfold budget
    rw [countVars_var]
    omega
  · obtain ⟨v, rfl⟩ := ahead_of_cell cell hid body
    have few := led.few p hp
    rw [body, erase_term, List.cons_append] at path
    obtain ⟨s, last⟩ := path_of_match G (Parser.ofGrammar G).tableOf a (erase rest ++ x) v
    refine ⟨ss ++ [s], erase rest ++ x, v, path.append last, ?_, ?_, ?_⟩
    · rw [List.mem_append, not_or]
      exact ⟨eps_not_mem_erase rest, clean⟩
    · simp
    · have brought : countVars rest ≤ k := by
        rw [Production.bodyVars, body] at few
        exact few
      unfold budget
      rw [List.length_append, List.length_singleton, one, countVars_append, countVars_erase,
        countVars_var, List.length_cons, Nat.mul_succ]
      omega

/-- Every stretch of a run is paid for, or it stops at once. -/
theorem stretch_paid (led : G.TerminalLed k) (clean : Sym.eps ∉ x) (w : List T) :
    (run G (Parser.ofGrammar G).tableOf 1 (.live x w)).ending ≠ .unfinished ∨
    ∃ ss y v, Path G (Parser.ofGrammar G).tableOf ss (.live x w) (.live y v) ∧ Sym.eps ∉ y ∧
      0 < ss.length ∧ ss.length + budget k y v ≤ budget k x w := by
  have sound := Parser.tableOf_sound G
  by_cases stop : x = [] ∨ Stuck (Parser.ofGrammar G).tableOf w x
  · rcases match_or_end sound clean stop with ⟨a, y, v, rfl, rfl⟩ | ended
    · obtain ⟨s, path⟩ := path_of_match G (Parser.ofGrammar G).tableOf a y v
      refine Or.inr ⟨[s], y, v, path, List.not_mem_of_not_mem_cons clean, ?_, ?_⟩
      · simp
      · unfold budget
        rw [List.length_singleton, countVars_term, List.length_cons, Nat.mul_succ]
        omega
    · exact Or.inl ended
  · rcases form_cases (w := w) sound clean with empty | stuck | ⟨id, p, y, rfl, cell, hid⟩
    · exact absurd (Or.inl empty) stop
    · exact absurd (Or.inr stuck) stop
    · exact Or.inr (expansion_paid led (List.not_mem_of_not_mem_cons clean) cell hid)

theorem ended_of_budget (led : G.TerminalLed k) (clean : Sym.eps ∉ x) (w : List T) :
    (run G (Parser.ofGrammar G).tableOf (budget k x w) (.live x w)).ending ≠ .unfinished := by
  induction total : budget k x w using Nat.strongRecOn generalizing x w with
  | ind _ ih =>
    subst total
    rcases stretch_paid led clean w with ended | ⟨ss, y, v, path, cleanY, moves, paid⟩
    · refine ended_of_path (.nil _) ended ?_
      rw [List.length_nil, Nat.zero_add]
      exact Nat.le_add_left ..
    · exact ended_of_path path (ih _ (by omega) cleanY v rfl) paid

end Steps

/-- Where every body consists of epsilons or begins with a terminal, and none has more than `k`
variables, the parser stops on every word, within `k + 1` steps for each terminal and two more. The
sample grammar is of this kind, with at most two variables. -/
theorem parse_linear :
    (∀ (G : Grammar V T) (k : Nat), G.TerminalLed k → ∀ w : List T, ∃ r,
      (Parser.ofGrammar G).parse w = .ok r ∧
      (r.ending = .accepted ∨ ∃ reason, r.ending = .rejected reason) ∧
      r.steps ≤ (k + 1) * w.length + 2 ∧
      ∀ limit, (k + 1) * w.length + 2 ≤ limit →
        run G (Parser.ofGrammar G).tableOf limit (Config.initial G w) = r) ∧
    sampleGrammar.TerminalLed 2 := by
  refine ⟨?_, by decide⟩
  intro G k led w
  have start : Sym.eps ∉ [Sym.var (T := T) G.start] := by simp
  have ended := ended_of_budget led start w
  rw [← Config.initial_eq_live] at ended
  have enough : budget k [.var G.start] w = (k + 1) * w.length + 2 := rfl
  rw [enough] at ended
  refine ⟨_, parse_eq_of_ended ended, ?_, length_trace_le G _ _ _, ?_⟩
  · exact verdict_of_ended (Parser.tableOf_sound G) start ended
  · intro limit later
    exact run_eq_of_le ended later

/-- Each terminal can bring two variables, and the rules are in conflict wherever it is ahead. -/
def branchingGrammar : Grammar Char Char where
  start := 'S'
  productions := [⟨'S', [.eps]⟩, ⟨'S', [.term 'a']⟩, ⟨'S', [.term 'a', .var 'S', .var 'S']⟩]
  body_ne_nil := by decide
  start_defined := by decide
  closed := by simp +contextual [Production.bodyVars, Sym.var?]

/-- The bound holds for the sample grammar on every word, and is met by a grammar whose rules are in
conflict. -/
theorem branching_steps :
    (∀ w, ∃ r, (Parser.ofGrammar sampleGrammar).parse w = .ok r ∧ r.steps ≤ 3 * w.length + 2) ∧
    branchingGrammar.TerminalLed 2 ∧ (Parser.ofGrammar branchingGrammar).tableOf.conflicts ≠ [] ∧
    ∃ r, (Parser.ofGrammar branchingGrammar).parse ['a', 'a'] = .ok r ∧ r.ending = .accepted ∧
      r.steps = 3 * 2 + 2 := by
  obtain ⟨linear, led⟩ := parse_linear (V := Char) (T := Char)
  have branching : branchingGrammar.TerminalLed 2 := by decide
  refine ⟨?_, branching, by decide, ?_⟩
  · intro w
    obtain ⟨r, parsed, _, bound, _⟩ := linear sampleGrammar 2 led w
    exact ⟨r, parsed, bound⟩
  · obtain ⟨r, parsed, _, _, stable⟩ := linear branchingGrammar 2 branching ['a', 'a']
    have known := stable 8 (by decide)
    exact ⟨r, parsed, known ▸ by decide, known ▸ by decide⟩

end TopDown
