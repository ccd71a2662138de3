import TopDown.Proofs.Recognition

/-! The steps of the automaton up to some place depend only on the terminals that they match and on
the symbol then ahead, so a rejection is met again whatever comes behind this symbol. -/
namespace TopDown

variable {V T : Type} [DecidableEq V] [DecidableEq T]

section Replay

variable {G : Grammar V T} {t : Table V T} {ss : List (Snapshot V T)} {c d : Config V T}

/-- A path can be taken again with another rest of the input, if this begins with the same symbol.
-/
theorem Path.replay (h : Path G t ss c d) {rest : List (Lookahead T)}
    (same : rest.head? = d.input.head?) :
    ∃ u rs, c.input = u ++ d.input ∧ Path G t rs ⟨c.stack, u ++ rest⟩ ⟨d.stack, rest⟩ := by
  induction h with
  | nil c => exact ⟨[], [], rfl, .nil _⟩
  | @cons s _ c d e hs hd _ ih =>
    obtain ⟨u, rs, input, path⟩ := ih same
    obtain ⟨stack, ahead, due⟩ := of_snapshot hs
    cases action : s.action with
    | consume =>
      rw [action] at due
      simp only [Snapshot.next, action] at hd
      cases hd
      have first := snapshot_of_action (c := ⟨c.stack, s.current :: (u ++ rest)⟩) stack rfl due
      refine ⟨s.current :: u, _ :: rs, ?_, .cons first rfl path⟩
      rw [ahead, Snapshot.input, List.cons_append, ← input]
    | expand id =>
      rw [action] at due
      simp only [Snapshot.next, action] at hd
      split at hd
      · rename_i p hid
        cases hd
        -- nothing is consumed, so the symbol ahead is the first of `u` or of both rests
        have front : (u ++ rest).head? = some s.current := by
          rw [List.head?_append, same, ← List.head?_append, ← input]
          rfl
        obtain ⟨behind, hbehind⟩ := List.head?_eq_some_iff.1 front
        have first := snapshot_of_action (c := ⟨c.stack, u ++ rest⟩) stack hbehind due
        refine ⟨u, _ :: rs, ahead.trans input, .cons first ?_ path⟩
        simp only [Snapshot.next, hid, Snapshot.input, ← hbehind]
      · cases hd
    | reject reason => simp [Snapshot.next, action] at hd

variable {x y : List (Sym V T)} {u v v' : List T} {s : Snapshot V T} {reason : RejectReason}

theorem Path.replay_live (h : Path G t ss (.live x (u ++ v)) (.live y v))
    (same : Lookahead.ofWord v' = .ofWord v) :
    ∃ rs, Path G t rs (.live x (u ++ v')) (.live y v') := by
  obtain ⟨_, hv⟩ := Config.live_input y v
  obtain ⟨_, hv'⟩ := Config.live_input y v'
  have front : (Config.live y v').input.head? = (Config.live y v).input.head? := by
    rw [hv, hv', List.head?_cons, List.head?_cons, same]
  obtain ⟨consumed, rs, input, path⟩ := h.replay front
  have split : ∀ v, (Config.live x (u ++ v)).input = u.map .term ++ (Config.live y v).input := by
    simp [Config.live]
  have same_front : consumed = u.map .term := List.append_cancel_right (input.symm.trans (split v))
  have whole : (Config.live x (u ++ v')).input = consumed ++ (Config.live y v').input :=
    same_front ▸ split v'
  rw [← whole] at path
  exact ⟨rs, path⟩

theorem rejected_of_same_ahead (h : (Config.live y v).snapshot t = .ok s)
    (rejects : s.next G = .error (.rejected reason)) (same : Lookahead.ofWord v' = .ofWord v) :
    ∃ s', (Config.live y v').snapshot t = .ok s' ∧ s'.next G = .error (.rejected reason) := by
  obtain ⟨stack, input, due⟩ := of_snapshot h
  obtain ⟨_, hv⟩ := Config.live_input y v
  obtain ⟨_, hv'⟩ := Config.live_input y v'
  have current : s.current = .ofWord v := (List.cons.inj (input.symm.trans hv)).1
  rw [action_of_rejected rejects, current, ← same] at due
  exact ⟨_, snapshot_of_action stack hv' due, rfl⟩

theorem exists_rejection {n : Nat} {w : List T} (sound : t.Sound G) (hx : Sym.eps ∉ x)
    (ended : (run G t n (.live x w)).ending ≠ .unfinished)
    (rejected : (run G t n (.live x w)).isAccepted = false) :
    ∃ ss s reason y v, run G t n (.live x w) = ⟨ss ++ [s], .rejected reason⟩ ∧
      Path G t ss (.live x (matched ss ++ v)) (.live y v) ∧ Sym.eps ∉ y ∧ w = matched ss ++ v ∧
      (Config.live y v).snapshot t = .ok s ∧ s.next G = .error (.rejected reason) ∧
      G.Leads x (expanded ss) (matched ss) y := by
  obtain ⟨ss, d, path, stop⟩ := run_live sound hx w n
  rcases stop with ⟨_, hr⟩ | ⟨_, hr⟩ | ⟨s, reason, hs, rejects, hr⟩
  · simp [hr, Run.isAccepted] at rejected
  · exact absurd (by rw [hr]) ended
  · rcases path.leads sound hx with ⟨y, v, hy, rfl, hw, leads, _⟩ | ⟨rfl, _⟩
    · exact ⟨ss, s, reason, y, v, hr, hw ▸ path, hy, hw, hs, rejects, leads⟩
    · cases hs

end Replay

section Words

variable {G : Grammar V T} {x y : List (Sym V T)} {u v v' : List T} {ids : List Nat}

theorem not_generates_of_rejected (last : G.EpsilonLast)
    (ll1 : (Parser.ofGrammar G).tableOf.isLL1 = true) {ss : List (Snapshot V T)}
    {s : Snapshot V T} {reason : RejectReason}
    (path : Path G (Parser.ofGrammar G).tableOf ss (.live [.var G.start] (u ++ v)) (.live y v))
    (h : (Config.live y v).snapshot (Parser.ofGrammar G).tableOf = .ok s)
    (rejects : s.next G = .error (.rejected reason)) (same : Lookahead.ofWord v' = .ofWord v) :
    ¬ G.Generates (u ++ v') := by
  intro generates
  obtain ⟨rs, path'⟩ := path.replay_live same
  obtain ⟨s', h', rejects'⟩ := rejected_of_same_ahead h rejects same
  -- the run on the other word comes to the same rejection, and what is rejected is not generated
  have rejected : run G (Parser.ofGrammar G).tableOf (rs.length + 1) (Config.initial G (u ++ v')) =
      ⟨rs ++ [s'], .rejected reason⟩ :=
    (run_of_path path' 1).trans (by simp [run, h', rejects'])
  have ended : (run G (Parser.ofGrammar G).tableOf (rs.length + 1)
      (Config.initial G (u ++ v'))).ending ≠ .unfinished := by simp [rejected]
  have accepted := (accepted_iff_generates last ll1 ended).2 generates
  simp [rejected, Run.isAccepted] at accepted

omit [DecidableEq T] in
theorem Grammar.Derives.var_mem_vars (h : G.Derives erase x y)
    (known : ∀ v, .var v ∈ x → v ∈ G.vars) : ∀ v, .var v ∈ y → v ∈ G.vars := by
  induction h with
  | refl => exact known
  | tail _ step ih =>
    obtain ⟨p, hp, α, β, rfl, rfl⟩ := step
    intro v hv
    simp only [List.mem_append] at hv
    rcases hv with (hα | hbody) | hβ
    · exact ih v (List.mem_append_left _ hα)
    · exact Grammar.var_mem_vars hp (List.mem_of_mem_filter hbody)
    · exact ih v (List.mem_append_right _ (List.mem_cons_of_mem _ hβ))

omit [DecidableEq T] in
theorem Grammar.exists_word (productive : ∀ v ∈ G.vars, ∃ u, G.Derives erase [.var v] (Sym.ofWord u))
    (clean : Sym.eps ∉ x) (known : ∀ v, .var v ∈ x → v ∈ G.vars) :
    ∃ u, G.Derives erase x (Sym.ofWord u) := by
  induction x with
  | nil => exact ⟨[], .refl⟩
  | cons s x ih =>
    obtain ⟨u, hu⟩ := ih (List.not_mem_of_not_mem_cons clean)
      fun v hv => known v (List.mem_cons_of_mem s hv)
    cases s with
    | term t => exact ⟨t :: u, hu.append_left [.term t]⟩
    | var v =>
      obtain ⟨front, hfront⟩ := productive v (known v List.mem_cons_self)
      refine ⟨front ++ u, ?_⟩
      rw [Sym.ofWord_append]
      exact (hfront.append_right x).trans (hu.append_left (Sym.ofWord front))
    | eps => exact absurd List.mem_cons_self clean

omit [DecidableEq T] in
theorem Grammar.Leads.exists_generates (h : G.Leads [.var G.start] ids u y) (clean : Sym.eps ∉ y)
    (productive : ∀ v ∈ G.vars, ∃ u, G.Derives erase [.var v] (Sym.ofWord u)) :
    ∃ z, G.Generates (u ++ z) := by
  have start : ∀ v, Sym.var (T := T) v ∈ [.var G.start] → v ∈ G.vars := by
    intro v hv
    cases List.mem_singleton.1 hv
    exact G.start_mem_vars
  have known := h.derives.var_mem_vars start
  obtain ⟨z, hz⟩ := Grammar.exists_word productive clean fun v hv =>
    known v (List.mem_append_right _ hv)
  refine ⟨z, ?_⟩
  rw [Grammar.Generates, Sym.ofWord_append]
  exact h.derives.trans (hz.append_left (Sym.ofWord u))

end Words

/-- Where bodies end with their epsilons, a parser without conflicts rejects a word at its first
error. The terminals matched before the rejection, followed by the terminal that is then ahead,
begin no word of the grammar; and if every variable derives a word, the terminals matched do. -/
theorem rejected_at_first_error (G : Grammar V T) (last : G.EpsilonLast)
    (ll1 : (Parser.ofGrammar G).tableOf.isLL1 = true) (w : List T) {r : Run V T}
    (parsed : (Parser.ofGrammar G).parse w = .ok r) (rejected : r.isAccepted = false) :
    ∃ i s reason, r.trace[i]? = some s ∧ s.action = .reject reason ∧ i + 1 = r.steps ∧
      (∃ rest, w = (r.upTo i).matched ++ rest ∧ s.current = .ofWord rest) ∧
      (∀ a, s.current = .term a → ∀ z, ¬ G.Generates ((r.upTo i).matched ++ a :: z)) ∧
      (s.current = .eof → (r.upTo i).matched = w ∧ ¬ G.Generates w) ∧
      ((∀ v ∈ G.vars, ∃ u, G.Derives erase [.var v] (Sym.ofWord u)) →
        ∃ z, G.Generates ((r.upTo i).matched ++ z)) := by
  have start : Sym.eps ∉ [Sym.var (T := T) G.start] := by simp
  have ended := parse_ended last ll1 w
  rw [Parser.parse_ofGrammar] at parsed
  cases parsed
  rw [Config.initial_eq_live] at ended rejected ⊢
  obtain ⟨ss, s, reason, y, v, hr, path, hy, rfl, hs, rejects, leads⟩ :=
    exists_rejection (Parser.tableOf_sound G) start ended rejected
  have before : (Run.upTo ⟨ss ++ [s], .rejected reason⟩ ss.length).matched = matched ss := by
    simp [Run.upTo, Run.matched]
  obtain ⟨_, hinput⟩ := Config.live_input y v
  have current : s.current = .ofWord v :=
    (List.cons.inj ((of_snapshot hs).2.1.symm.trans hinput)).1
  have never : ∀ v', Lookahead.ofWord v' = .ofWord v → ¬ G.Generates (matched ss ++ v') :=
    fun v' same => not_generates_of_rejected last ll1 path hs rejects same
  rw [hr]
  refine ⟨ss.length, s, reason, List.getElem?_concat_length, action_of_rejected rejects,
    by simp [Run.steps], ?_⟩
  rw [before]
  refine ⟨⟨v, rfl, current⟩, ?_, ?_, leads.exists_generates hy⟩
  · intro a ahead z
    exact never (a :: z) (ahead.symm.trans current)
  · intro ahead
    cases v with
    | nil => exact ⟨(List.append_nil _).symm, never [] rfl⟩
    | cons a v => cases current.symm.trans ahead

theorem sample_productive : ∀ v ∈ sampleGrammar.vars,
    ∃ u, sampleGrammar.Derives erase [.var v] (Sym.ofWord u) := by
  have derives : ∀ ids v u, sampleGrammar.DerivesLeft ids [.var v] (Sym.ofWord u) →
      ∃ u, sampleGrammar.Derives erase [.var v] (Sym.ofWord u) := fun _ _ u h => ⟨u, h.derives⟩
  have known : sampleGrammar.vars = ['S', 'A', 'B', 'C', 'D'] := by decide
  rw [known]
  simp only [List.forall_mem_cons, List.not_mem_nil, false_implies, implies_true, and_true]
  refine ⟨derives [1, 5] 'S' ['b', 'c'] ?_, derives [2, 5] 'A' ['c', 'd'] ?_,
    derives [5] 'B' [] ?_, derives [6, 7, 5] 'C' ['c', 'd', 'd'] ?_, derives [7, 5] 'D' ['d'] ?_⟩
  · exact .step ⟨_, rfl, [], [], rfl, rfl⟩ (.step ⟨_, rfl, ['b'], [.term 'c'], rfl, rfl⟩ (.refl _))
  · exact .step ⟨_, rfl, [], [], rfl, rfl⟩ (.step ⟨_, rfl, ['c'], [.term 'd'], rfl, rfl⟩ (.refl _))
  · exact .step ⟨_, rfl, [], [], rfl, rfl⟩ (.refl _)
  · exact .step ⟨_, rfl, [], [], rfl, rfl⟩ (.step ⟨_, rfl, ['c'], [.term 'd'], rfl, rfl⟩
      (.step ⟨_, rfl, ['c', 'd'], [.term 'd'], rfl, rfl⟩ (.refl _)))
  · exact .step ⟨_, rfl, [], [], rfl, rfl⟩ (.step ⟨_, rfl, ['d'], [], rfl, rfl⟩ (.refl _))

/-- The sample parser rejects `bd` with `d` ahead, after `B` has vanished: some words begin with `b`
and none with `bd`. -/
theorem sample_rejection : sampleGrammar.EpsilonLast ∧
    (Parser.ofGrammar sampleGrammar).tableOf.isLL1 = true ∧
    (∃ r, (Parser.ofGrammar sampleGrammar).parse ['b', 'd'] = .ok r ∧ r.isAccepted = false) ∧
    (∀ z, ¬ sampleGrammar.Generates ('b' :: 'd' :: z)) ∧
    (∀ v ∈ sampleGrammar.vars, ∃ u, sampleGrammar.Derives erase [.var v] (Sym.ofWord u)) ∧
    ∃ z, sampleGrammar.Generates ('b' :: z) := by
  have last : sampleGrammar.EpsilonLast := by decide
  have ll1 : (Parser.ofGrammar sampleGrammar).tableOf.isLL1 = true := by decide
  have ended : (run sampleGrammar (Parser.ofGrammar sampleGrammar).tableOf 4
      (Config.initial sampleGrammar ['b', 'd'])).ending ≠ .unfinished := by decide
  have rejected : (run sampleGrammar (Parser.ofGrammar sampleGrammar).tableOf 4
      (Config.initial sampleGrammar ['b', 'd'])).isAccepted = false := by decide
  have steps : (run sampleGrammar (Parser.ofGrammar sampleGrammar).tableOf 4
      (Config.initial sampleGrammar ['b', 'd'])).steps = 3 + 1 := by decide
  have parsed := parse_eq_of_ended ended
  obtain ⟨i, s, reason, hs, _, count, _, never, _, more⟩ :=
    rejected_at_first_error sampleGrammar last ll1 ['b', 'd'] parsed rejected
  obtain rfl : i = 3 := Nat.succ.inj (count.trans steps)
  cases hs
  exact ⟨last, ll1, ⟨_, parsed, rejected⟩, never 'd' rfl, sample_productive, more sample_productive⟩

end TopDown
