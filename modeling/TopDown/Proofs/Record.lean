import TopDown.Proofs.Safety

namespace TopDown

variable {V T : Type} [DecidableEq V] [DecidableEq T]

structure Snapshot.Due (t : Table V T) (s : Snapshot V T) : Prop where
  ahead : s.input.head? = some s.current
  consume : s.action = .consume ↔ s.top = .term s.current
  mismatch : s.action = .reject .mismatch ↔ ∃ a, s.top = .term a ∧ a ≠ s.current
  expand : ∀ id, s.action = .expand id ↔ ∃ v, s.top = .var v ∧ t.get? v s.current = some id
  noEntry : s.action = .reject .noEntry ↔ ∃ v, s.top = .var v ∧ t.get? v s.current = none

/-- The step `d` finds what the action of `c` has left: a match takes the top and the symbol ahead,
an expansion puts the body of its production in the place of the top. -/
structure Snapshot.Precedes (G : Grammar V T) (c d : Snapshot V T) : Prop where
  consume : c.action = .consume → d.fullStack = c.stack ∧ d.input = c.input.tail
  expand : ∀ id, c.action = .expand id → ∃ p, G.production? id = some p ∧
    d.fullStack = c.stack ++ ((erase p.body).filterMap Sym.toStack?).reverse ∧ d.input = c.input

section Steps

variable {G : Grammar V T} {t : Table V T} {c : Config V T} {s s' : Snapshot V T}
  {n i : Nat}

theorem due_of_snapshot (h : c.snapshot t = .ok s) : s.Due t := by
  obtain ⟨_, _, action⟩ := of_snapshot h
  cases top : s.top with
  | term a =>
    rw [top] at action
    have due : (if a = s.current then .consume else .reject .mismatch) = s.action :=
      Except.ok.inj action
    by_cases same : a = s.current
    · rw [if_pos same] at due
      constructor <;> simp [Snapshot.input, ← due, top, same]
    · rw [if_neg same] at due
      constructor <;> simp [Snapshot.input, ← due, top, same]
  | var v =>
    cases cell : t.get? v s.current with
    | some id =>
      have due : .expand id = s.action := by simpa [top, Table.action, cell] using action
      constructor <;> simp [Snapshot.input, ← due, top, cell]
    | none =>
      have due : .reject .noEntry = s.action := by simpa [top, Table.action, cell] using action
      constructor <;> simp [Snapshot.input, ← due, top, cell]
  | eps =>
    rw [top] at action
    cases action

theorem exists_next (h : (run G t n c).trace[i]? = some s)
    (h' : (run G t n c).trace[i + 1]? = some s') :
    ∃ d, s.next G = .ok d ∧ d.snapshot t = .ok s' := by
  rcases trace_cases h with ⟨d, k, hd, hr⟩ | ⟨r, _, length, _⟩
  · have front : (run G t k d).trace[0]? = some s' := by simpa [hr] using h'
    obtain ⟨e, path, he⟩ := exists_path_of_trace front
    cases path with
    | nil _ => exact ⟨d, hd, he⟩
  · have := (List.getElem?_eq_some_iff.1 h').1
    omega

theorem precedes_of_trace (h : (run G t n c).trace[i]? = some s)
    (h' : (run G t n c).trace[i + 1]? = some s') : s.Precedes G s' := by
  obtain ⟨d, next, hs'⟩ := exists_next h h'
  obtain ⟨stack, input, _⟩ := of_snapshot hs'
  have full : s'.fullStack = d.stack.reverse := by
    rw [stack, ← Snapshot.reverse_fullStack, List.reverse_reverse]
  constructor
  · intro action
    simp only [Snapshot.next, action] at next
    cases next
    exact ⟨full, input.symm⟩
  · intro id action
    simp only [Snapshot.next, action] at next
    split at next
    · rename_i p hid
      cases next
      refine ⟨p, hid, ?_, input.symm⟩
      rw [full, List.reverse_append, Production.pushed_eq]
      rfl
    · cases next

end Steps

section Verdict

variable {G : Grammar V T} {t : Table V T} {x : List (Sym V T)} {w : List T}
  {ss : List (Snapshot V T)} {n : Nat}

theorem Path.last_of_done (sound : t.Sound G) (hx : Sym.eps ∉ x)
    (h : Path G t ss (.live x w) .done) : ∃ rs s, ss = rs ++ [s] ∧ s.action = .consume ∧
      s.fullStack = [.term .eof] ∧ s.input = [.eof] := by
  rcases h.nil_or_last with ⟨_, hd⟩ | ⟨rs, s, e, rfl, path, hs, hd⟩
  · exact absurd hd (Config.live_ne_done x w)
  · rcases path.leads sound hx with ⟨y, v, hy, rfl, _⟩ | ⟨rfl, _⟩
    · have turn := turn_of_step sound hy hs hd
      generalize s.expanded? = id? at turn
      generalize s.matched? = a? at turn
      -- of the turns, only the one over the end marker leaves nothing
      generalize hdone : Config.done = d at turn
      cases turn with
      | finish =>
        have action : t.action (.term .eof) .eof = .ok .consume := by simp [Table.action]
        have due := snapshot_of_action (c := Config.live [] []) rfl rfl action
        cases Except.ok.inj (hs.symm.trans due)
        exact ⟨rs, _, rfl, rfl, rfl, rfl⟩
      | pass => exact absurd hdone.symm (Config.live_ne_done _ _)
      | expand _ _ => exact absurd hdone.symm (Config.live_ne_done _ _)
    · cases hs

theorem last_of_ended (sound : t.Sound G) (hx : Sym.eps ∉ x)
    (ended : (run G t n (.live x w)).ending ≠ .unfinished) :
    ∃ s, (run G t n (.live x w)).trace.getLast? = some s ∧
      (((run G t n (.live x w)).ending = .accepted ∧ s.action = .consume ∧
          s.fullStack = [.term .eof] ∧ s.input = [.eof]) ∨
        ∃ reason, (run G t n (.live x w)).ending = .rejected reason ∧
          s.action = .reject reason) := by
  obtain ⟨ss, d, path, stop⟩ := run_live sound hx w n
  rcases stop with ⟨rfl, hr⟩ | ⟨_, hr⟩ | ⟨s, reason, _, hn, hr⟩
  · obtain ⟨rs, s, rfl, last⟩ := path.last_of_done sound hx
    rw [hr]
    exact ⟨s, List.getLast?_concat, Or.inl ⟨rfl, last⟩⟩
  · exact absurd (by rw [hr]) ended
  · rw [hr]
    exact ⟨s, List.getLast?_concat, Or.inr ⟨reason, rfl, action_of_rejected hn⟩⟩

end Verdict

/-- Where the automaton ends, its trace is the run of the pushdown machine from its start, with
nothing behind a rejection, and the last action tells the verdict. -/
theorem trace_exact (G : Grammar V T) (w : List T)
    (ends : Ends G (Parser.ofGrammar G).tableOf (Config.initial G w)) :
    ∃ r, (Parser.ofGrammar G).parse w = .ok r ∧ r.steps = r.trace.length ∧ 1 ≤ r.steps ∧
      (∃ s, r.trace[0]? = some s ∧ s.fullStack = [.term .eof, .var G.start] ∧
        s.input = w.map .term ++ [.eof]) ∧
      (∀ s ∈ r.trace, s.Due (Parser.ofGrammar G).tableOf) ∧
      (∀ i c d, r.trace[i]? = some c → r.trace[i + 1]? = some d → c.Precedes G d) ∧
      (∀ i s reason, r.trace[i]? = some s → s.action = .reject reason → i + 1 = r.steps) ∧
      ∃ s, r.trace.getLast? = some s ∧
        (s.action = .consume ∨ ∃ reason, s.action = .reject reason) ∧
        (∀ reason, r.ending = .rejected reason ↔ s.action = .reject reason) ∧
        (r.ending = .accepted ↔ s.action = .consume) ∧
        (r.ending = .accepted → s.fullStack = [.term .eof] ∧ s.input = [.eof]) := by
  have start : Sym.eps ∉ [Sym.var (T := T) G.start] := by simp
  obtain ⟨n, ended⟩ := ends
  refine ⟨_, parse_eq_of_ended ended, rfl, ?_⟩
  rw [Config.initial_eq_live] at ended ⊢
  obtain ⟨last, hlast, verdict⟩ := last_of_ended (Parser.tableOf_sound G) start ended
  have some_step : 0 < (run G (Parser.ofGrammar G).tableOf n
      (.live [.var G.start] w)).trace.length :=
    List.length_pos_of_mem (List.mem_of_getLast? hlast)
  refine ⟨some_step, ?_, ?_, fun i c d => precedes_of_trace, ?_, last, hlast, ?_⟩
  · have first := List.getElem?_eq_getElem some_step
    obtain ⟨d, path, snapshot⟩ := exists_path_of_trace first
    cases path
    exact ⟨_, first, fullStack_of_live snapshot, (of_snapshot snapshot).2.1.symm⟩
  · intro s hs
    obtain ⟨i, hi⟩ := List.mem_iff_getElem?.1 hs
    obtain ⟨d, _, snapshot⟩ := exists_path_of_trace hi
    exact due_of_snapshot snapshot
  · intro i s reason h action
    rcases trace_cases h with ⟨d, k, hd, _⟩ | ⟨r, _, length, _⟩
    · simp [Snapshot.next, action] at hd
    · exact length.symm
  · rcases verdict with ⟨ending, action, stack, input⟩ | ⟨reason, ending, action⟩
    · simp [ending, action, stack, input]
    · simp [ending, action]

/-- The sample on `bbdc`: the third step expands `B`, the fourth finds the body of that rule on the
stack, and the fifth rejects, as nothing that `C` derives begins with `d`. -/
theorem sample_record :
    Ends sampleGrammar (Parser.ofGrammar sampleGrammar).tableOf
      (Config.initial sampleGrammar ['b', 'b', 'd', 'c']) ∧
    ∃ r c d s, (Parser.ofGrammar sampleGrammar).parse ['b', 'b', 'd', 'c'] = .ok r ∧
      r.trace[2]? = some c ∧ r.trace[3]? = some d ∧ c.action = .expand 4 ∧
      c.Precedes sampleGrammar d ∧ r.trace.getLast? = some s ∧ s.top = .var 'C' ∧
      s.action = .reject .noEntry ∧ r.ending = .rejected .noEntry := by
  have ended : (run sampleGrammar (Parser.ofGrammar sampleGrammar).tableOf 5
      (Config.initial sampleGrammar ['b', 'b', 'd', 'c'])).ending ≠ .unfinished := by decide
  obtain ⟨r, parsed, _, _, _, _, next, _, s, last, _, verdict, _⟩ :=
    trace_exact sampleGrammar ['b', 'b', 'd', 'c'] ⟨5, ended⟩
  cases Except.ok.inj ((parse_eq_of_ended ended).symm.trans parsed)
  cases last
  exact ⟨⟨5, ended⟩, _, _, _, _, parsed, rfl, rfl, rfl, next 2 _ _ rfl rfl, rfl, rfl, rfl,
    (verdict .noEntry).2 rfl⟩

end TopDown
