import TopDown.Grammar.Sample
import TopDown.Proofs.Limit

namespace TopDown

variable {V T : Type}

namespace Run

def upTo (r : Run V T) (i : Nat) : Run V T := ⟨r.trace.take i, .unfinished⟩

def matched (r : Run V T) : List T := TopDown.matched r.trace

theorem expansions_eq (r : Run V T) : r.expansions = expanded r.trace := rfl

end Run

theorem Snapshot.reverse_fullStack (s : Snapshot V T) : s.fullStack.reverse = s.top :: s.below := by
  simp [fullStack, stack]

variable [DecidableEq V] [DecidableEq T]

section Derivations

variable {G : Grammar V T} {t : Table V T}

theorem derivesLeft_before (sound : t.Sound G) {w : List T} {n i : Nat} {s : Snapshot V T}
    (h : (run G t n (Config.initial G w)).trace[i]? = some s) :
    G.DerivesLeft (expanded ((run G t n (Config.initial G w)).trace.take i)) [.var G.start]
      (Sym.ofWord (matched ((run G t n (Config.initial G w)).trace.take i)) ++
        unmarked s.fullStack.reverse) := by
  rw [Config.initial_eq_live] at h ⊢
  obtain ⟨y, v, hy, hs, _, _, leads⟩ := live_of_trace sound (by simp) h
  rw [Snapshot.reverse_fullStack, ← (of_snapshot hs).1, Config.unmarked_live hy]
  exact leads.derivesLeft

theorem derivesLeft_of_accepted (sound : t.Sound G) {w : List T} {n : Nat}
    (accepted : (run G t n (Config.initial G w)).isAccepted = true) :
    G.DerivesLeft (run G t n (Config.initial G w)).expansions [.var G.start] (Sym.ofWord w) ∧
      (run G t n (Config.initial G w)).steps =
        w.length + 1 + (run G t n (Config.initial G w)).expansions.length := by
  rw [Config.initial_eq_live] at accepted ⊢
  have start : Sym.eps ∉ [Sym.var (T := T) G.start] := by simp
  obtain ⟨ss, d, path, stop⟩ := run_live sound start w n
  rcases stop with ⟨rfl, hr⟩ | ⟨_, hr⟩ | ⟨_, _, _, _, hr⟩
  · rw [hr, Run.expansions_eq, Run.steps]
    rcases path.leads sound start with ⟨y, v, _, hd, _⟩ | ⟨_, _, leads, count⟩
    · exact absurd hd.symm (Config.live_ne_done y v)
    · have derivation := leads.derivesLeft
      rw [List.append_nil] at derivation
      exact ⟨derivation, count⟩
  · simp [hr, Run.isAccepted] at accepted
  · simp [hr, Run.isAccepted] at accepted

end Derivations

/-- The trace is a leftmost derivation, whatever conflicts the table has: at every step of a run
under any limit, and so of a parse that ends; an accepting run has derived the word that it was
given. -/
theorem trace_leftmost (G : Grammar V T) (w : List T) :
    ∀ limit r, r = run G (Parser.ofGrammar G).tableOf limit (Config.initial G w) →
      (r.ending ≠ .unfinished → (Parser.ofGrammar G).parse w = .ok r) ∧
      (∀ i s, r.trace[i]? = some s →
        G.DerivesLeft (r.upTo i).expansions [.var G.start]
          (Sym.ofWord (r.upTo i).matched ++ unmarked s.fullStack.reverse)) ∧
      (r.isAccepted = true → G.DerivesLeft r.expansions [.var G.start] (Sym.ofWord w) ∧
        r.steps = w.length + 1 + r.expansions.length) := by
  rintro limit r rfl
  have sound := Parser.tableOf_sound G
  exact ⟨parse_eq_of_ended, fun i s h => derivesLeft_before sound h, derivesLeft_of_accepted sound⟩

theorem sample_trace : ∃ r s,
    r = run sampleGrammar (Parser.ofGrammar sampleGrammar).tableOf 9
      (Config.initial sampleGrammar ['b', 'c']) ∧
    r.trace[2]? = some s ∧ s.top = .var 'B' ∧ r.isAccepted = true ∧
    sampleGrammar.DerivesLeft [1] [.var 'S'] (Sym.ofWord ['b'] ++ [.var 'B', .term 'c']) ∧
    sampleGrammar.DerivesLeft [1, 5] [.var 'S'] (Sym.ofWord ['b', 'c']) := by
  obtain ⟨_, before, whole⟩ := trace_leftmost sampleGrammar ['b', 'c'] 9 _ rfl
  have accepted := whole (by decide)
  refine ⟨_, _, rfl, rfl, by decide, by decide, ?_, ?_⟩
  · exact before 2 _ rfl
  · exact accepted.1

end TopDown
