import TopDown.Proofs.Trace

namespace TopDown

variable {V T : Type}

theorem eof_not_mem_pushed (x : List (Sym V T)) : .term .eof ∉ x.filterMap Sym.toStack? := by
  rw [List.mem_filterMap]
  rintro ⟨s, _, hs⟩
  cases s <;> cases hs

theorem eps_not_mem_pushed (x : List (Sym V T)) : .eps ∉ x.filterMap Sym.toStack? := by
  rw [List.mem_filterMap]
  rintro ⟨s, _, hs⟩
  cases s <;> cases hs

variable [DecidableEq V] [DecidableEq T]

section Markers

variable {t : Table V T} {x : List (Sym V T)} {w : List T} {s : Snapshot V T}

theorem fullStack_of_live (h : (Config.live x w).snapshot t = .ok s) :
    s.fullStack = .term .eof :: (x.filterMap Sym.toStack?).reverse := by
  have stack : s.fullStack.reverse = (Config.live x w).stack := by
    rw [Snapshot.reverse_fullStack]
    exact (of_snapshot h).1.symm
  rw [← List.reverse_reverse s.fullStack, stack]
  simp [Config.live]

/-- The end marker comes to the top only when the form above it is gone. -/
theorem nil_of_top_eof (hx : Sym.eps ∉ x) (h : (Config.live x w).snapshot t = .ok s)
    (top : s.top = .term .eof) : x = [] := by
  obtain ⟨stack, _⟩ := of_snapshot h
  rw [top] at stack
  cases x with
  | nil => rfl
  | cons a x =>
    cases a with
    | term a => cases (List.cons.inj stack).1
    | var v => cases (List.cons.inj stack).1
    | eps => exact absurd List.mem_cons_self hx

end Markers

section Runs

variable {G : Grammar V T} {t : Table V T} {x : List (Sym V T)} {w : List T} {n i : Nat}
  {s : Snapshot V T}

theorem run_done (G : Grammar V T) (t : Table V T) (n : Nat) :
    run G t n .done = ⟨[], .accepted⟩ := by
  cases n <;> rfl

theorem run_ne_fault (sound : t.Sound G) (hx : Sym.eps ∉ x) (f : Fault) :
    (run G t n (.live x w)).ending ≠ .fault f := by
  obtain ⟨ss, d, _, stop⟩ := run_live sound hx w n
  rcases stop with ⟨_, hr⟩ | ⟨_, hr⟩ | ⟨_, _, _, _, hr⟩
  · simp [hr]
  · simp [hr]
  · simp [hr]

theorem next_of_match_eof (sound : t.Sound G) (hx : Sym.eps ∉ x)
    (h : (Config.live x w).snapshot t = .ok s) (top : s.top = .term .eof)
    (consumes : s.action = .consume) : w = [] ∧ s.next G = .ok .done := by
  obtain rfl := nil_of_top_eof hx h top
  obtain ⟨d, hd⟩ : ∃ d, s.next G = .ok d :=
    ⟨⟨s.below, s.rest⟩, by simp only [Snapshot.next, consumes]⟩
  have turn := turn_of_step sound hx h hd
  generalize s.expanded? = id? at turn
  generalize s.matched? = a? at turn
  cases turn with
  | finish => exact ⟨rfl, hd⟩

theorem accepted_of_match_eof (sound : t.Sound G) (hx : Sym.eps ∉ x)
    (h : (run G t n (.live x w)).trace[i]? = some s) (top : s.top = .term .eof)
    (consumes : s.action = .consume) :
    i + 1 = (run G t n (.live x w)).steps ∧ (run G t n (.live x w)).isAccepted = true ∧
      matched ((run G t n (.live x w)).trace.take i) = w := by
  obtain ⟨y, v, hy, hs, _, hw, _⟩ := live_of_trace sound hx h
  obtain ⟨rfl, next⟩ := next_of_match_eof sound hy hs top consumes
  rcases trace_cases h with ⟨d, k, hd, hr⟩ | ⟨r, hd, _⟩
  · cases Except.ok.inj (next.symm.trans hd)
    rw [run_done] at hr
    have last := List.drop_eq_nil_iff.1 (congrArg Run.trace hr).symm
    have before := (List.getElem?_eq_some_iff.1 h).1
    refine ⟨Nat.le_antisymm before last, ?_, ?_⟩
    · exact decide_eq_true (congrArg Run.ending hr).symm
    · exact (hw.trans (List.append_nil _)).symm
  · cases next.symm.trans hd

end Runs

/-- No run meets a fault, whatever conflicts the table has. The end marker stays at the bottom of
the stack and at the end of the input, and is matched only in the last step of a run that accepts.
-/
theorem run_safe (G : Grammar V T) (w : List T) :
    (∀ v a id, (Parser.ofGrammar G).tableOf.get? v a = some id →
      ∃ p, G.production? id = some p ∧ p.head = v) ∧
    ∀ limit r, r = run G (Parser.ofGrammar G).tableOf limit (Config.initial G w) →
      (r.ending ≠ .unfinished → (Parser.ofGrammar G).parse w = .ok r) ∧
      (∀ f, r.ending ≠ .fault f) ∧
      ∀ i s, r.trace[i]? = some s →
        (∃ above, s.fullStack = .term .eof :: above ∧ .term .eof ∉ above ∧ .eps ∉ above) ∧
        (∃ rest, w = (r.upTo i).matched ++ rest ∧ s.input = rest.map .term ++ [.eof]) ∧
        (s.top = .term .eof → s.action = .consume →
          i + 1 = r.steps ∧ r.isAccepted = true ∧ (r.upTo i).matched = w) := by
  have sound := Parser.tableOf_sound G
  have start : Sym.eps ∉ [Sym.var (T := T) G.start] := by simp
  refine ⟨sound, ?_⟩
  rintro limit r rfl
  refine ⟨parse_eq_of_ended, ?_⟩
  rw [Config.initial_eq_live]
  refine ⟨run_ne_fault sound start, ?_⟩
  intro i s h
  obtain ⟨y, v, _, hs, _, hw, _⟩ := live_of_trace sound start h
  refine ⟨⟨_, fullStack_of_live hs, ?_, ?_⟩, ⟨v, hw, (of_snapshot hs).2.1.symm⟩, ?_⟩
  · rw [List.mem_reverse]
    exact eof_not_mem_pushed y
  · rw [List.mem_reverse]
    exact eps_not_mem_pushed y
  · exact accepted_of_match_eof sound start h

/-- A grammar whose only terminal prints like the end marker. -/
def dollarGrammar : Grammar Char Char where
  start := 'S'
  productions := [⟨'S', [.term '$']⟩]
  body_ne_nil := by decide
  start_defined := by decide
  closed := by simp [Production.bodyVars, Sym.var?]

/-- The first match is of the terminal, and the end marker is matched in the last step. -/
theorem dollar_before_eof : ∃ r s,
    r = run dollarGrammar (Parser.ofGrammar dollarGrammar).tableOf 3
      (Config.initial dollarGrammar ['$']) ∧
    r.trace.map (fun s => (toString s.top, s.action)) =
      [("S", .expand 0), ("$", .consume), ("$", .consume)] ∧
    r.trace[2]? = some s ∧ s.top = .term .eof ∧ s.action = .consume ∧
    3 = r.steps ∧ r.isAccepted = true ∧ (r.upTo 2).matched = ['$'] := by
  obtain ⟨_, _, steps⟩ := (run_safe dollarGrammar ['$']).2 3 _ rfl
  have last := (steps 2 _ rfl).2.2 rfl rfl
  exact ⟨_, _, rfl, by decide, rfl, rfl, rfl, last⟩

end TopDown
