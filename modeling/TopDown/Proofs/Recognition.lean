import TopDown.Proofs.Trace

/-! Wherever a derivation leads from a covered form, each of its leftmost steps is what a table
without conflicts says for the terminal ahead. A cell is filled only where such a derivation goes on
to the terminal ahead or past the variable, and therefore no run is endless. -/
namespace TopDown

variable {V T : Type} [DecidableEq V] [DecidableEq T]

section Following

open Follows (Says Solves)

variable {G : Grammar V T} {first : Firsts V T} {follow : Follows V T}
  {next : Lookahead T → Prop} {x y : List (Sym V T)} {ids : List Nat} {u v : List T}

theorem ahead_of_leads (last : G.EpsilonLast) (closed : Firsts.Closed G first.sets)
    (hx : Sym.eps ∉ x) (h : G.Leads x ids u y) (hy : first.Ahead next y (.ofWord v)) :
    first.Ahead next x (.ofWord (u ++ v)) := by
  induction h with
  | refl x => exact hy
  | pass _ _ => exact Firsts.ahead_term.2 rfl
  | @apply id p x y ids u hid _ ih =>
    have hp := Grammar.mem_productions_of_production? hid
    have hx' := (Grammar.rewrites_head hp x).eps_not_mem eps_not_mem_erase hx
    exact Firsts.ahead_of_rewrites closed hx (last.rewrites_head hp x) (ih hx' hy)

/-- The automaton follows leftmost steps from a covered form, production by production, whatever is
below it on the stack. -/
theorem path_of_leads (last : G.EpsilonLast) (closed : Firsts.Closed G first.sets)
    (solves : Solves G first (Says follow.sets))
    (ll1 : (Table.ofSets G first follow).isLL1 = true) (hx : Sym.eps ∉ x)
    (covers : first.Covers (Says follow.sets) next x) (h : G.Leads x ids u y)
    (hy : first.Ahead next y (.ofWord v)) (z : List (Sym V T)) :
    ∃ ss, Path G (Table.ofSets G first follow) ss (.live (x ++ z) (u ++ v)) (.live (y ++ z) v) ∧
      expanded ss = ids ∧ ss.length = u.length + ids.length := by
  induction h with
  | refl x => exact ⟨[], .nil _, rfl, rfl⟩
  | @pass a x y ids u h ih =>
    have turn : Turn G (Table.ofSets G first follow) (.term a :: x ++ z) (a :: u ++ v) none (some a)
        (.live (x ++ z) (u ++ v)) := .pass
    obtain ⟨ss, path, hss, count⟩ := ih (List.not_mem_of_not_mem_cons hx) covers hy
    obtain ⟨s, hs, hd, hexp, _⟩ := turn.step
    refine ⟨s :: ss, .cons hs hd path, (List.filterMap_cons_none hexp).trans hss, ?_⟩
    rw [List.length_cons, List.length_cons, count, Nat.add_right_comm]
  | @apply id p x y ids u hid h ih =>
    have hp := Grammar.mem_productions_of_production? hid
    have step : G.Rewrites erase (.var p.head :: x) (erase p.body ++ x) :=
      Grammar.rewrites_head hp x
    have hx' := step.eps_not_mem eps_not_mem_erase hx
    -- the production claims the cell, as what follows its body here follows its head
    have claim : .ofWord (u ++ v) ∈ Table.claims first follow p := by
      have ahead := ahead_of_leads last closed hx' h hy
      rw [Firsts.ahead_append (eps_not_mem_erase p.body), ← (last.ends hp).cut_eq,
        Firsts.ahead_cut] at ahead
      exact Table.mem_claims.2 (ahead.mono covers.1)
    have cell := Table.get?_of_mem_claims ll1 hid claim
    have covers' := Follows.covers_of_rewrites last closed solves hx step covers
    obtain ⟨ss, path, hss, count⟩ := ih hx' covers' hy
    obtain ⟨s, hs, hd, hexp, _⟩ := (Turn.expand (x := x ++ z) cell hid).step
    rw [← List.append_assoc] at hd
    refine ⟨s :: ss, .cons hs hd path, ?_, congrArg (· + 1) count⟩
    rw [expanded, List.filterMap_cons_some hexp]
    exact congrArg (id :: ·) hss

theorem path_from_var (last : G.EpsilonLast) (ll1 : (Parser.ofGrammar G).tableOf.isLL1 = true)
    {A : V} (h : G.Leads [.var A] ids u y)
    (hy : (Firsts.ofGrammar G).Ahead (Says (Parser.ofGrammar G).follow.sets A) y (.ofWord v))
    (z : List (Sym V T)) :
    ∃ ss, Path G (Parser.ofGrammar G).tableOf ss (.live (.var A :: z) (u ++ v))
      (.live (y ++ z) v) ∧ expanded ss = ids ∧ ss.length = u.length + ids.length := by
  have clean : Sym.eps ∉ [Sym.var (T := T) A] := by simp
  have covers : (Firsts.ofGrammar G).Covers (Says (Parser.ofGrammar G).follow.sets)
      (Says (Parser.ofGrammar G).follow.sets A) [.var A] :=
    Firsts.covers_single.2 fun _ ha => ha
  exact path_of_leads last (Firsts.ofGrammar_closed G)
    (Follows.ofFirsts_solves G (Firsts.ofGrammar G)) ll1 clean covers h hy z

end Following

section Peeling

variable {G : Grammar V T} {w : List T}

/-- A filled cell is there for a reason: the automaton goes on from its variable to the terminal
ahead, or past the variable. -/
theorem peel (last : G.EpsilonLast) (ll1 : (Parser.ofGrammar G).tableOf.isLL1 = true) {v : V}
    {id : Nat} (cell : (Parser.ofGrammar G).tableOf.get? v (.ofWord w) = some id) :
    ∃ y, Sym.eps ∉ y ∧ (y = [] ∨ ∃ t β, y = .term t :: β) ∧
      ∀ z, ∃ ss, Path G (Parser.ofGrammar G).tableOf ss (.live (.var v :: z) w)
        (.live (y ++ z) w) := by
  obtain ⟨p, hid, rfl, claim⟩ := Table.exists_claimant cell
  have hp := Grammar.mem_productions_of_production? hid
  have begins : ∀ f, f ∈ (Firsts.ofGrammar G).ofSymbols p.body →
      G.Begins erase [.var p.head] f := by
    intro f hf
    have body := Firsts.begins_of_mem_ofSymbols last (last.ends hp) hf
    exact body.of_derives (Grammar.derives_body hp)
  rcases Table.mem_claims.1 claim with ⟨t, ha, ht⟩ | ⟨hvanish, ha⟩
  · obtain ⟨β, hβ⟩ := begins (.term t) ht
    obtain ⟨ids, γ, leads⟩ := Grammar.exists_leads_to_term hβ
    have cleanY := leads.derives.eps_not_mem eps_not_mem_erase (by simp)
    refine ⟨.term t :: γ, cleanY, Or.inr ⟨t, γ, rfl⟩, ?_⟩
    intro z
    obtain ⟨ss, path, _⟩ := path_from_var last ll1 leads (Firsts.ahead_term.2 ha) z
    exact ⟨ss, path⟩
  · obtain ⟨ids, leads⟩ := Grammar.exists_leads_to_end (w := []) (begins .eps hvanish)
    refine ⟨[], by simp, Or.inl rfl, ?_⟩
    intro z
    obtain ⟨ss, path, _⟩ := path_from_var last ll1 leads (Firsts.ahead_nil.2 ha) z
    exact ⟨ss, path⟩

end Peeling

section Termination

variable {G : Grammar V T} {t : Table V T} {x y : List (Sym V T)} {w : List T}

theorem ends_of_stop (sound : t.Sound G) (clean : Sym.eps ∉ y) (stop : y = [] ∨ Stuck t w y)
    (later : ∀ a y' v, y = .term a :: y' → w = a :: v → Ends G t (.live y' v)) :
    Ends G t (.live y w) := by
  rcases match_or_end sound clean stop with ⟨a, y', v, rfl, rfl⟩ | ended
  · obtain ⟨s, path⟩ := path_of_match G t a y' v
    exact (later a y' v rfl rfl).of_path path
  · exact ⟨1, ended⟩

/-- While one word remains the form gets shorter: its first variable is gone, or uncovers a terminal
that is matched or rejected. -/
theorem ends_of_later (last : G.EpsilonLast) (ll1 : (Parser.ofGrammar G).tableOf.isLL1 = true)
    (clean : Sym.eps ∉ x)
    (later : ∀ a v y, w = a :: v → Sym.eps ∉ y → Ends G (Parser.ofGrammar G).tableOf (.live y v)) :
    Ends G (Parser.ofGrammar G).tableOf (.live x w) := by
  have sound := Parser.tableOf_sound G
  have stops : ∀ y, Sym.eps ∉ y → y = [] ∨ Stuck (Parser.ofGrammar G).tableOf w y →
      Ends G (Parser.ofGrammar G).tableOf (.live y w) := by
    intro y cleanY stop
    apply ends_of_stop sound cleanY stop
    rintro a y' v rfl hw
    exact later a v y' hw (List.not_mem_of_not_mem_cons cleanY)
  induction x with
  | nil => exact stops [] clean (Or.inl rfl)
  | cons s x ih =>
    rcases form_cases (w := w) sound clean with h | stuck | ⟨id, p, x', hx, cell, _⟩
    · cases h
    · exact stops _ clean (Or.inr stuck)
    · obtain ⟨rfl, rfl⟩ := List.cons.inj hx
      have cleanX := List.not_mem_of_not_mem_cons clean
      obtain ⟨y, cleanY, front, follows⟩ := peel last ll1 cell
      obtain ⟨ss, path⟩ := follows x
      apply Ends.of_path path
      rcases front with rfl | ⟨t, β, rfl⟩
      · exact ih cleanX
      · refine stops (.term t :: (β ++ x)) ?_ (Or.inr trivial)
        rw [← List.cons_append, List.mem_append, not_or]
        exact ⟨cleanY, cleanX⟩

theorem ends_live (last : G.EpsilonLast) (ll1 : (Parser.ofGrammar G).tableOf.isLL1 = true)
    (clean : Sym.eps ∉ x) (w : List T) : Ends G (Parser.ofGrammar G).tableOf (.live x w) := by
  induction w generalizing x with
  | nil => exact ends_of_later last ll1 clean fun _ _ _ h => nomatch h
  | cons a w ih =>
    apply ends_of_later last ll1 clean
    intro a' v y hw cleanY
    cases hw
    exact ih cleanY

theorem parse_ended (last : G.EpsilonLast) (ll1 : (Parser.ofGrammar G).tableOf.isLL1 = true)
    (w : List T) : (run G (Parser.ofGrammar G).tableOf (G.stepLimit w)
      (Config.initial G w)).ending ≠ .unfinished := by
  have start : Sym.eps ∉ [Sym.var (T := T) G.start] := by simp
  exact ended_of_stepLimit (Parser.tableOf_sound G) w (ends_live last ll1 start w)

end Termination

section Verdict

variable {G : Grammar V T} {w : List T}

theorem run_of_leads (last : G.EpsilonLast) (ll1 : (Parser.ofGrammar G).tableOf.isLL1 = true)
    {ids : List Nat} (h : G.Leads [.var G.start] ids w []) :
    ∃ n, (run G (Parser.ofGrammar G).tableOf n (Config.initial G w)).ending = .accepted ∧
      (run G (Parser.ofGrammar G).tableOf n (Config.initial G w)).expansions = ids := by
  have solves := Follows.ofFirsts_solves G (Firsts.ofGrammar G)
  obtain ⟨ss, path, hss, _⟩ :=
    path_from_var (v := []) last ll1 h (Firsts.ahead_nil.2 solves.eof) []
  simp only [List.append_nil] at path
  obtain ⟨s, hs, hd, hexp, _⟩ := (Turn.finish (G := G) (t := (Parser.ofGrammar G).tableOf)).step
  have all : Path G (Parser.ofGrammar G).tableOf (ss ++ [s]) (Config.initial G w) .done :=
    path.append (.cons hs hd (.nil _))
  have accepted : run G (Parser.ofGrammar G).tableOf ((ss ++ [s]).length + 0)
      (Config.initial G w) = ⟨ss ++ [s], .accepted⟩ :=
    (run_of_path all 0).trans (by simp [run, Config.snapshot, Config.done])
  refine ⟨_, congrArg Run.ending accepted, ?_⟩
  rw [accepted, Run.expansions_eq, ← hss]
  simp [expanded, hexp]

theorem accepted_of_generates (last : G.EpsilonLast)
    (ll1 : (Parser.ofGrammar G).tableOf.isLL1 = true) (h : G.Generates w) :
    ∃ n, (run G (Parser.ofGrammar G).tableOf n (Config.initial G w)).ending = .accepted := by
  obtain ⟨ids, leads⟩ := Grammar.exists_leads_to_end h
  obtain ⟨n, accepted, _⟩ := run_of_leads last ll1 leads
  exact ⟨n, accepted⟩

theorem accepted_iff_generates (last : G.EpsilonLast)
    (ll1 : (Parser.ofGrammar G).tableOf.isLL1 = true) {n : Nat}
    (ended : (run G (Parser.ofGrammar G).tableOf n (Config.initial G w)).ending ≠ .unfinished) :
    (run G (Parser.ofGrammar G).tableOf n (Config.initial G w)).isAccepted = true ↔
      G.Generates w := by
  constructor
  · intro accepted
    exact (derivesLeft_of_accepted (Parser.tableOf_sound G) accepted).1.derives
  · intro h
    obtain ⟨m, accepted⟩ := accepted_of_generates last ll1 h
    rw [run_eq_of_ended ended (n := m) (by simp [accepted])]
    exact decide_eq_true accepted

end Verdict

/-- With a table that has no conflicts every parse ends, with the verdict that the word deserves:
within the step limit the run has accepted or rejected, and it accepts what the grammar generates.
-/
theorem parse_exact (G : Grammar V T) (last : G.EpsilonLast)
    (ll1 : (Parser.ofGrammar G).tableOf.isLL1 = true) (w : List T) :
    ∃ r, (Parser.ofGrammar G).parse w = .ok r ∧
      (∀ limit, G.stepLimit w ≤ limit →
        run G (Parser.ofGrammar G).tableOf limit (Config.initial G w) = r) ∧
      (r.ending = .accepted ∨ ∃ reason, r.ending = .rejected reason) ∧
      (r.isAccepted = true ↔ G.Generates w) := by
  have sound := Parser.tableOf_sound G
  have start : Sym.eps ∉ [Sym.var (T := T) G.start] := by simp
  have ended := parse_ended last ll1 w
  refine ⟨_, Parser.parse_ofGrammar G w, ?_, ?_, accepted_iff_generates last ll1 ended⟩
  · intro limit enough
    exact run_eq_of_le ended enough
  · rw [Config.initial_eq_live] at ended ⊢
    obtain ⟨ss, d, _, stop⟩ := run_live sound start w (G.stepLimit w)
    rcases stop with ⟨_, hr⟩ | ⟨_, hr⟩ | ⟨_, reason, _, _, hr⟩
    · exact Or.inl (by rw [hr])
    · exact absurd (by rw [hr]) ended
    · exact Or.inr ⟨reason, by rw [hr]⟩

theorem sample_verdicts : sampleGrammar.EpsilonLast ∧
    (Parser.ofGrammar sampleGrammar).tableOf.isLL1 = true ∧
    sampleGrammar.Generates ['b', 'c'] ∧ ¬ sampleGrammar.Generates ['b', 'x'] := by
  have last : sampleGrammar.EpsilonLast := by decide
  have ll1 : (Parser.ofGrammar sampleGrammar).tableOf.isLL1 = true := by decide
  obtain ⟨r, _, stable, _, exact⟩ := parse_exact sampleGrammar last ll1 ['b', 'c']
  obtain ⟨r', _, stable', _, exact'⟩ := parse_exact sampleGrammar last ll1 ['b', 'x']
  have accepted : r.isAccepted = true := by
    rw [← stable _ (Nat.le_refl _)]
    decide +kernel
  have rejected : r'.isAccepted = false := by
    rw [← stable' _ (Nat.le_refl _)]
    decide +kernel
  refine ⟨last, ll1, exact.1 accepted, ?_⟩
  intro h
  rw [exact'.2 h] at rejected
  cases rejected

end TopDown
