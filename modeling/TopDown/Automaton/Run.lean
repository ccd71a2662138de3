import TopDown.Automaton.Basic

namespace TopDown

structure Run (V T : Type) where
  trace : List (Snapshot V T)
  ending : Ending

namespace Run

variable {V T : Type}

def steps (r : Run V T) : Nat := r.trace.length

def isAccepted (r : Run V T) : Bool := r.ending = .accepted

def push (s : Snapshot V T) (r : Run V T) : Run V T := ⟨s :: r.trace, r.ending⟩

def expansions (r : Run V T) : List Nat :=
  r.trace.filterMap fun s =>
    match s.action with
    | .expand id => some id
    | _ => none

end Run

variable {V T : Type} [DecidableEq V] [DecidableEq T]

/-- At most `limit` steps of the automaton from `c`. With conflicts in the table there may be no end
of them. -/
def run (G : Grammar V T) (t : Table V T) : (limit : Nat) → Config V T → Run V T
  | 0, c =>
    match c.snapshot t with
    | .error e => ⟨[], e⟩
    | .ok _ => ⟨[], .unfinished⟩
  | limit + 1, c =>
    match c.snapshot t with
    | .error e => ⟨[], e⟩
    | .ok s =>
      match s.next G with
      | .error e => ⟨[s], e⟩
      | .ok d => (run G t limit d).push s

/-- A run that has ended within a limit is the same under every larger limit. -/
theorem run_eq_of_le {G : Grammar V T} {t : Table V T} {m n : Nat} {c : Config V T}
    (h : (run G t m c).ending ≠ .unfinished) (hmn : m ≤ n) : run G t n c = run G t m c := by
  induction m generalizing n c with
  | zero =>
    cases hs : c.snapshot t with
    | error e => cases n <;> simp [run, hs]
    | ok s => simp [run, hs] at h
  | succ m ih =>
    cases n with
    | zero => omega
    | succ n =>
      cases hs : c.snapshot t with
      | error e => simp [run, hs]
      | ok s =>
        cases hd : s.next G with
        | error e => simp [run, hs, hd]
        | ok d =>
          have hr : (run G t m d).ending ≠ .unfinished := by
            simpa [run, hs, hd, Run.push] using h
          simp [run, hs, hd, ih hr (Nat.le_of_succ_le_succ hmn)]

theorem run_eq_of_ended {G : Grammar V T} {t : Table V T} {m n : Nat} {c : Config V T}
    (hm : (run G t m c).ending ≠ .unfinished) (hn : (run G t n c).ending ≠ .unfinished) :
    run G t m c = run G t n c := by
  rcases Nat.le_total m n with hmn | hnm
  · exact (run_eq_of_le hm hmn).symm
  · exact run_eq_of_le hn hnm

end TopDown
