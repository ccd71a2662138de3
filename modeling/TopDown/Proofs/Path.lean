import TopDown.Automaton.Run
import TopDown.Proofs.Derivation

/-! A run is a path and what stops it. While the automaton is live its stack is a form above the end
marker and its input a word before it, and its steps are leftmost derivation steps and matches. -/
namespace TopDown

variable {V T : Type}

def Snapshot.expanded? (s : Snapshot V T) : Option Nat :=
  match s.action with
  | .expand id => some id
  | _ => none

/-- The terminal that the step matches; the end marker is none. -/
def Snapshot.matched? (s : Snapshot V T) : Option T :=
  match s.action, s.current with
  | .consume, .term t => some t
  | _, _ => none

def expanded (ss : List (Snapshot V T)) : List Nat := ss.filterMap Snapshot.expanded?

def matched (ss : List (Snapshot V T)) : List T := ss.filterMap Snapshot.matched?

def Lookahead.ofWord : List T → Lookahead T
  | [] => .eof
  | t :: _ => .term t

/-- The symbol of a form that a stack symbol stands for; the end marker is none. -/
def Sym.ofStack? : StackSym V T → Option (Sym V T)
  | .term (.term t) => some (.term t)
  | .term .eof => none
  | .var v => some (.var v)
  | .eps => some .eps

def unmarked (stack : List (StackSym V T)) : List (Sym V T) := stack.filterMap Sym.ofStack?

theorem Production.pushed_eq (p : Production V T) :
    p.pushed = (erase p.body).filterMap Sym.toStack? := by
  unfold Production.pushed
  induction p.body with
  | nil => rfl
  | cons s body ih =>
    cases s with
    | term t => simp [Sym.toStack?, ih]
    | var v => simp [Sym.toStack?, ih]
    | eps => rw [erase_eps, ← ih, List.filterMap_cons_none rfl]

namespace Config

/-- The form `x` above the end marker, and `w` ahead of the end of the input. -/
def live (x : List (Sym V T)) (w : List T) : Config V T where
  stack := x.filterMap Sym.toStack? ++ [.term .eof]
  input := w.map .term ++ [.eof]

def done : Config V T := ⟨[], []⟩

theorem initial_eq_live (G : Grammar V T) (w : List T) : initial G w = live [.var G.start] w := rfl

theorem live_ne_done (x : List (Sym V T)) (w : List T) : live x w ≠ done := by
  intro h
  have empty : (live x w).stack = [] := congrArg Config.stack h
  simp [live] at empty

theorem live_input (x : List (Sym V T)) (w : List T) :
    ∃ rest, (live x w).input = .ofWord w :: rest := by
  cases w with
  | nil => exact ⟨[], rfl⟩
  | cons t w => exact ⟨_, rfl⟩

theorem live_expand (p : Production V T) (x : List (Sym V T)) (w : List T) :
    live (erase p.body ++ x) w = ⟨p.pushed ++ (live x w).stack, (live x w).input⟩ := by
  simp [live, Production.pushed_eq]

theorem unmarked_live {x : List (Sym V T)} (hx : Sym.eps ∉ x) (w : List T) :
    unmarked (live x w).stack = x := by
  induction x with
  | nil => rfl
  | cons s x ih =>
    have rest := ih (List.not_mem_of_not_mem_cons hx)
    cases s with
    | term t => exact congrArg (Sym.term t :: ·) rest
    | var v => exact congrArg (Sym.var v :: ·) rest
    | eps => exact absurd List.mem_cons_self hx

end Config

variable [DecidableEq V] [DecidableEq T]

inductive Path (G : Grammar V T) (t : Table V T) :
    List (Snapshot V T) → Config V T → Config V T → Prop
  | nil (c : Config V T) : Path G t [] c c
  | cons {s : Snapshot V T} {ss : List (Snapshot V T)} {c d e : Config V T} :
      c.snapshot t = .ok s → s.next G = .ok d → Path G t ss d e → Path G t (s :: ss) c e

section Runs

variable {G : Grammar V T} {t : Table V T} {ss rs : List (Snapshot V T)} {c d e : Config V T}

theorem Path.append (h : Path G t ss c d) (h' : Path G t rs d e) : Path G t (ss ++ rs) c e := by
  induction h with
  | nil c => exact h'
  | cons hs hd _ ih => exact .cons hs hd (ih h')

theorem Path.nil_or_last (h : Path G t ss c d) : (ss = [] ∧ c = d) ∨
    ∃ rs s e, ss = rs ++ [s] ∧ Path G t rs c e ∧ e.snapshot t = .ok s ∧ s.next G = .ok d := by
  induction h with
  | nil c => exact Or.inl ⟨rfl, rfl⟩
  | @cons s _ c _ _ hs hd _ ih =>
    rcases ih with ⟨rfl, rfl⟩ | ⟨rs, s', e, rfl, path, hs', hd'⟩
    · exact Or.inr ⟨[], s, c, rfl, .nil c, hs, hd⟩
    · exact Or.inr ⟨s :: rs, s', e, rfl, .cons hs hd path, hs', hd'⟩

theorem run_of_path (h : Path G t ss c d) (n : Nat) :
    run G t (ss.length + n) c = ⟨ss ++ (run G t n d).trace, (run G t n d).ending⟩ := by
  induction h with
  | nil c => simp
  | @cons s ss c d e hs hd _ ih =>
    rw [List.length_cons, Nat.add_right_comm]
    simp only [run, hs, hd, ih]
    rfl

theorem length_trace_le (G : Grammar V T) (t : Table V T) (n : Nat) (c : Config V T) :
    (run G t n c).trace.length ≤ n := by
  induction n generalizing c with
  | zero => cases hs : c.snapshot t <;> simp [run, hs]
  | succ n ih =>
    cases hs : c.snapshot t with
    | error e => simp [run, hs]
    | ok s =>
      cases hd : s.next G with
      | error e => simp [run, hs, hd]
      | ok d => simpa [run, hs, hd, Run.push] using ih d

theorem exists_path (G : Grammar V T) (t : Table V T) (n : Nat) (c : Config V T) :
    ∃ ss d, Path G t ss c d ∧
      ((∃ r, d.snapshot t = .error r ∧ run G t n c = ⟨ss, r⟩) ∨
        (ss.length = n ∧ run G t n c = ⟨ss, .unfinished⟩) ∨
        ∃ s r, d.snapshot t = .ok s ∧ s.next G = .error r ∧ run G t n c = ⟨ss ++ [s], r⟩) := by
  induction n generalizing c with
  | zero =>
    cases hs : c.snapshot t with
    | error r => exact ⟨[], c, .nil c, Or.inl ⟨r, hs, by simp [run, hs]⟩⟩
    | ok s => exact ⟨[], c, .nil c, Or.inr (Or.inl ⟨rfl, by simp [run, hs]⟩)⟩
  | succ n ih =>
    cases hs : c.snapshot t with
    | error r => exact ⟨[], c, .nil c, Or.inl ⟨r, hs, by simp [run, hs]⟩⟩
    | ok s =>
      cases hd : s.next G with
      | error r => exact ⟨[], c, .nil c, Or.inr (Or.inr ⟨s, r, hs, hd, by simp [run, hs, hd]⟩)⟩
      | ok d =>
        obtain ⟨ss, e, path, stop⟩ := ih d
        refine ⟨s :: ss, e, .cons hs hd path, ?_⟩
        rcases stop with ⟨r, he, hr⟩ | ⟨hlen, hr⟩ | ⟨s', r, he, hn, hr⟩
        · exact Or.inl ⟨r, he, by simp [run, hs, hd, hr, Run.push]⟩
        · exact Or.inr (Or.inl ⟨by rw [List.length_cons, hlen], by simp [run, hs, hd, hr, Run.push]⟩)
        · exact Or.inr (Or.inr ⟨s', r, he, hn, by simp [run, hs, hd, hr, Run.push]⟩)

theorem exists_path_of_trace {n i : Nat} {s : Snapshot V T}
    (h : (run G t n c).trace[i]? = some s) :
    ∃ d, Path G t ((run G t n c).trace.take i) c d ∧ d.snapshot t = .ok s := by
  induction n generalizing c i with
  | zero =>
    cases hs : c.snapshot t with
    | error r => simp [run, hs] at h
    | ok s => simp [run, hs] at h
  | succ n ih =>
    cases hs : c.snapshot t with
    | error r => simp [run, hs] at h
    | ok s' =>
      cases hd : s'.next G with
      | error r =>
        simp only [run, hs, hd] at h
        cases i with
        | zero =>
          cases Option.some.inj h
          exact ⟨c, .nil c, hs⟩
        | succ i => simp at h
      | ok d =>
        -- the step is the first of the run, with no path before it, or one of what comes after
        simp only [run, hs, hd, Run.push] at h ⊢
        cases i with
        | zero =>
          cases Option.some.inj h
          exact ⟨c, .nil c, hs⟩
        | succ i =>
          obtain ⟨e, path, he⟩ := ih h
          exact ⟨e, .cons hs hd path, he⟩

theorem trace_cases {n i : Nat} {s : Snapshot V T} (h : (run G t n c).trace[i]? = some s) :
    (∃ d k, s.next G = .ok d ∧
      run G t k d = ⟨(run G t n c).trace.drop (i + 1), (run G t n c).ending⟩) ∨
    ∃ r, s.next G = .error r ∧ (run G t n c).trace.length = i + 1 ∧ (run G t n c).ending = r := by
  induction n generalizing c i with
  | zero =>
    cases hs : c.snapshot t with
    | error r => simp [run, hs] at h
    | ok s => simp [run, hs] at h
  | succ n ih =>
    cases hs : c.snapshot t with
    | error r => simp [run, hs] at h
    | ok s' =>
      cases hd : s'.next G with
      | error r =>
        simp only [run, hs, hd] at h ⊢
        cases i with
        | zero =>
          cases Option.some.inj h
          exact Or.inr ⟨r, hd, rfl, rfl⟩
        | succ i => simp at h
      | ok d =>
        simp only [run, hs, hd, Run.push, List.drop_succ_cons, List.length_cons] at h ⊢
        cases i with
        | zero =>
          cases Option.some.inj h
          exact Or.inl ⟨d, n, hd, rfl⟩
        | succ i =>
          rcases ih h with ⟨e, k, he, hr⟩ | ⟨r, he, hlen, hr⟩
          · exact Or.inl ⟨e, k, he, hr⟩
          · exact Or.inr ⟨r, he, congrArg (· + 1) hlen, hr⟩

end Runs

theorem of_snapshot {t : Table V T} {c : Config V T} {s : Snapshot V T}
    (h : c.snapshot t = .ok s) :
    c.stack = s.top :: s.below ∧ c.input = s.input ∧ t.action s.top s.current = .ok s.action := by
  unfold Config.snapshot at h
  split at h
  · cases h
  · cases h
  · rename_i hstack hinput
    split at h
    · rename_i action
      cases h
      exact ⟨hstack, hinput, action⟩
    · cases h

omit [DecidableEq V] [DecidableEq T] in
theorem action_of_rejected {G : Grammar V T} {s : Snapshot V T} {reason : RejectReason}
    (h : s.next G = .error (.rejected reason)) : s.action = .reject reason := by
  unfold Snapshot.next at h
  split at h
  · cases h
  · split at h <;> cases h
  · rename_i action
    cases h
    exact action

/-- Every filled cell holds a production of its variable. -/
def Table.Sound (G : Grammar V T) (t : Table V T) : Prop :=
  ∀ v a id, t.get? v a = some id → ∃ p, G.production? id = some p ∧ p.head = v

/-- What a step of the live automaton can be, with the production that it expands, the terminal that
it matches and the configuration that it leads to. -/
inductive Turn (G : Grammar V T) (t : Table V T) :
    List (Sym V T) → List T → Option Nat → Option T → Config V T → Prop
  | finish : Turn G t [] [] none none .done
  | pass {a : T} {x : List (Sym V T)} {w : List T} :
      Turn G t (.term a :: x) (a :: w) none (some a) (.live x w)
  | expand {id : Nat} {p : Production V T} {x : List (Sym V T)} {w : List T} :
      t.get? p.head (.ofWord w) = some id → G.production? id = some p →
      Turn G t (.var p.head :: x) w (some id) none (.live (erase p.body ++ x) w)

section Live

variable {G : Grammar V T} {t : Table V T} {x : List (Sym V T)} {w : List T} {s : Snapshot V T}
  {c d : Config V T} {id? : Option Nat} {a? : Option T}

theorem snapshot_of_action {top : StackSym V T} {below : List (StackSym V T)}
    {current : Lookahead T} {rest : List (Lookahead T)} {action : Action}
    (hstack : c.stack = top :: below) (hinput : c.input = current :: rest)
    (h : t.action top current = .ok action) :
    c.snapshot t = .ok ⟨top, below, current, rest, action⟩ := by
  simp [Config.snapshot, hstack, hinput, h]

theorem Turn.step (h : Turn G t x w id? a? d) : ∃ s, (Config.live x w).snapshot t = .ok s ∧
    s.next G = .ok d ∧ s.expanded? = id? ∧ s.matched? = a? := by
  cases h with
  | finish =>
    have action : t.action (.term .eof) .eof = .ok .consume := by simp [Table.action]
    exact ⟨_, snapshot_of_action rfl rfl action, rfl, rfl, rfl⟩
  | @pass a x w =>
    have action : t.action (.term (.term a)) (.term a) = .ok .consume := by simp [Table.action]
    exact ⟨_, snapshot_of_action rfl rfl action, rfl, rfl, rfl⟩
  | @expand id p x w cell hid =>
    obtain ⟨rest, hinput⟩ := Config.live_input (.var p.head :: x) w
    have action : t.action (.var p.head) (.ofWord w) = .ok (.expand id) := by
      simp [Table.action, cell]
    refine ⟨_, snapshot_of_action rfl hinput action, ?_, rfl, rfl⟩
    simp only [Snapshot.next, hid, Snapshot.input, ← hinput, Config.live_expand]
    rfl

theorem path_of_match (G : Grammar V T) (t : Table V T) (a : T) (x : List (Sym V T)) (w : List T) :
    ∃ s, Path G t [s] (.live (.term a :: x) (a :: w)) (.live x w) := by
  obtain ⟨s, hs, hd, _⟩ := (Turn.pass (G := G) (t := t) (a := a) (x := x) (w := w)).step
  exact ⟨s, .cons hs hd (.nil _)⟩

theorem turn_or_reject (sound : t.Sound G) (hx : Sym.eps ∉ x) (w : List T) :
    (∃ id? a? d, Turn G t x w id? a? d) ∨
      ∃ s reason, (Config.live x w).snapshot t = .ok s ∧ s.next G = .error (.rejected reason) := by
  obtain ⟨rest, hinput⟩ := Config.live_input x w
  -- one fact for the three ways to reject: the end marker, a terminal and a variable on top
  have rejects : ∀ top below reason, (Config.live x w).stack = top :: below →
      t.action top (.ofWord w) = .ok (.reject reason) →
      ∃ s reason, (Config.live x w).snapshot t = .ok s ∧ s.next G = .error (.rejected reason) :=
    fun top below reason hstack action =>
      ⟨_, reason, snapshot_of_action hstack hinput action, rfl⟩
  cases x with
  | nil =>
    cases w with
    | nil => exact Or.inl ⟨_, _, _, .finish⟩
    | cons b w =>
      refine Or.inr (rejects (.term .eof) [] .mismatch rfl ?_)
      simp [Table.action, Lookahead.ofWord]
  | cons y x =>
    cases y with
    | term a =>
      by_cases same : Lookahead.term a = .ofWord w
      · cases w with
        | nil => cases same
        | cons b w =>
          cases same
          exact Or.inl ⟨_, _, _, .pass⟩
      · refine Or.inr (rejects (.term (.term a)) (Config.live x w).stack .mismatch rfl ?_)
        simp [Table.action, same]
    | var v =>
      cases cell : t.get? v (.ofWord w) with
      | none =>
        refine Or.inr (rejects (.var v) (Config.live x w).stack .noEntry rfl ?_)
        simp [Table.action, cell]
      | some id =>
        obtain ⟨p, hid, rfl⟩ := sound v _ id cell
        exact Or.inl ⟨_, _, _, .expand cell hid⟩
    | eps => exact absurd List.mem_cons_self hx

theorem turn_of_step (sound : t.Sound G) (hx : Sym.eps ∉ x)
    (hs : (Config.live x w).snapshot t = .ok s) (hd : s.next G = .ok d) :
    Turn G t x w s.expanded? s.matched? d := by
  rcases turn_or_reject sound hx w with ⟨id?, a?, e, turn⟩ | ⟨s', reason, hs', hr⟩
  · obtain ⟨s', hs', he, rfl, rfl⟩ := turn.step
    cases Except.ok.inj (hs.symm.trans hs')
    cases Except.ok.inj (hd.symm.trans he)
    exact turn
  · cases Except.ok.inj (hs.symm.trans hs')
    cases hd.symm.trans hr

/-- What a path of the live automaton has done: leftmost steps have led past the terminals matched
to the form that is left, one step for each; the step over the end marker is the last. -/
theorem Path.leads {ss : List (Snapshot V T)} (sound : t.Sound G) (hx : Sym.eps ∉ x)
    (h : Path G t ss (.live x w) d) :
    (∃ y v, Sym.eps ∉ y ∧ d = .live y v ∧ w = matched ss ++ v ∧
      G.Leads x (expanded ss) (matched ss) y ∧
      ss.length = (matched ss).length + (expanded ss).length) ∨
    (d = .done ∧ matched ss = w ∧ G.Leads x (expanded ss) w [] ∧
      ss.length = w.length + 1 + (expanded ss).length) := by
  generalize hc : Config.live x w = c at h
  induction h generalizing x w with
  | nil c => exact Or.inl ⟨x, w, hx, hc.symm, rfl, .refl x, rfl⟩
  | @cons s ss c d e hs hd rest ih =>
    subst hc
    have turn := turn_of_step sound hx hs hd
    generalize hexp : s.expanded? = id? at turn
    generalize hmatch : s.matched? = a? at turn
    cases turn with
    | finish =>
      have noExpand : expanded (s :: ss) = expanded ss := List.filterMap_cons_none hexp
      have noMatch : matched (s :: ss) = matched ss := List.filterMap_cons_none hmatch
      -- what is done has no snapshot, so no step comes after
      cases rest with
      | nil _ => exact Or.inr ⟨rfl, noMatch, noExpand ▸ .refl [], by rw [noExpand]; rfl⟩
      | cons hs' _ _ => cases hs'
    | @pass a x w =>
      have noExpand : expanded (s :: ss) = expanded ss := List.filterMap_cons_none hexp
      have oneMatch : matched (s :: ss) = a :: matched ss := List.filterMap_cons_some hmatch
      rw [noExpand, oneMatch, List.length_cons, List.length_cons, List.length_cons]
      rcases ih (List.not_mem_of_not_mem_cons hx) rfl with
        ⟨y, v, hy, he, hw, leads, count⟩ | ⟨he, hw, leads, count⟩
      · exact Or.inl ⟨y, v, hy, he, by rw [hw, List.cons_append], leads.pass, by omega⟩
      · exact Or.inr ⟨he, by rw [hw], leads.pass, by omega⟩
    | @expand id p x w _ hid =>
      have oneExpand : expanded (s :: ss) = id :: expanded ss := List.filterMap_cons_some hexp
      have noMatch : matched (s :: ss) = matched ss := List.filterMap_cons_none hmatch
      have step : G.Rewrites erase (.var p.head :: x) (erase p.body ++ x) :=
        Grammar.rewrites_head (Grammar.mem_productions_of_production? hid) x
      have hx' : Sym.eps ∉ erase p.body ++ x := step.eps_not_mem eps_not_mem_erase hx
      rw [oneExpand, noMatch, List.length_cons, List.length_cons]
      rcases ih hx' rfl with ⟨y, v, hy, he, hw, leads, count⟩ | ⟨he, hw, leads, count⟩
      · exact Or.inl ⟨y, v, hy, he, hw, .apply hid leads, by omega⟩
      · exact Or.inr ⟨he, hw, .apply hid leads, by omega⟩

theorem live_of_trace {n i : Nat} (sound : t.Sound G) (hx : Sym.eps ∉ x)
    (h : (run G t n (.live x w)).trace[i]? = some s) :
    ∃ y v, Sym.eps ∉ y ∧ (Config.live y v).snapshot t = .ok s ∧
      Path G t ((run G t n (.live x w)).trace.take i) (.live x w) (.live y v) ∧
      w = matched ((run G t n (.live x w)).trace.take i) ++ v ∧
      G.Leads x (expanded ((run G t n (.live x w)).trace.take i))
        (matched ((run G t n (.live x w)).trace.take i)) y := by
  obtain ⟨d, path, hs⟩ := exists_path_of_trace h
  rcases path.leads sound hx with ⟨y, v, hy, rfl, hw, leads, _⟩ | ⟨rfl, _⟩
  · exact ⟨y, v, hy, hs, path, hw, leads⟩
  · cases hs

/-- A run of the live automaton accepts at the end marker, rejects in its last step, or was broken
off by its limit. -/
theorem run_live (sound : t.Sound G) (hx : Sym.eps ∉ x) (w : List T) (n : Nat) :
    ∃ ss d, Path G t ss (.live x w) d ∧
      ((d = .done ∧ run G t n (.live x w) = ⟨ss, .accepted⟩) ∨
        (ss.length = n ∧ run G t n (.live x w) = ⟨ss, .unfinished⟩) ∨
        ∃ s reason, d.snapshot t = .ok s ∧ s.next G = .error (.rejected reason) ∧
          run G t n (.live x w) = ⟨ss ++ [s], .rejected reason⟩) := by
  obtain ⟨ss, d, path, stop⟩ := exists_path G t n (.live x w)
  refine ⟨ss, d, path, ?_⟩
  rcases path.leads sound hx with ⟨y, v, hy, rfl, _⟩ | ⟨rfl, _⟩
  · -- a live configuration has a snapshot, and what stops behind it is a rejection
    rcases turn_or_reject sound hy v with ⟨id?, a?, e, turn⟩ | ⟨s, reason, hs, hr⟩
    · obtain ⟨s, hs, he, _⟩ := turn.step
      rcases stop with ⟨r, hsnap, _⟩ | stop | ⟨s', r, hs', hn, _⟩
      · cases hs.symm.trans hsnap
      · exact Or.inr (Or.inl stop)
      · cases Except.ok.inj (hs.symm.trans hs')
        cases he.symm.trans hn
    · rcases stop with ⟨r, hsnap, _⟩ | stop | ⟨s', r, hs', hn, hrun⟩
      · cases hs.symm.trans hsnap
      · exact Or.inr (Or.inl stop)
      · cases Except.ok.inj (hs.symm.trans hs')
        cases Except.error.inj (hr.symm.trans hn)
        exact Or.inr (Or.inr ⟨s, reason, hs, hr, hrun⟩)
  · rcases stop with ⟨r, hsnap, hrun⟩ | stop | ⟨s', r, hs', _⟩
    · cases hsnap
      exact Or.inl ⟨rfl, hrun⟩
    · exact Or.inr (Or.inl stop)
    · cases hs'

theorem verdict_of_ended (sound : t.Sound G) (hx : Sym.eps ∉ x) {n : Nat}
    (ended : (run G t n (.live x w)).ending ≠ .unfinished) :
    (run G t n (.live x w)).ending = .accepted ∨
      ∃ reason, (run G t n (.live x w)).ending = .rejected reason := by
  obtain ⟨_, _, _, ⟨_, accepted⟩ | ⟨_, broken⟩ | ⟨_, reason, _, _, rejected⟩⟩ :=
    run_live sound hx w n
  · exact Or.inl (by rw [accepted])
  · exact absurd (by rw [broken]) ended
  · exact Or.inr ⟨reason, by rw [rejected]⟩

end Live

end TopDown
