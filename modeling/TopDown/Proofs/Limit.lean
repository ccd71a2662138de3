import Mathlib.Algebra.Group.Nat.Defs
import Mathlib.Data.List.Perm.Subperm
import TopDown.Parser
import TopDown.Proofs.Path
import TopDown.Proofs.Table

/-! The limit on the steps of a parse is above every run that ends. While one word remains, a
variable on top of the stack is always expanded alike. Expansions that nest deeper than there are
variables come back to a variable within its own expansion, and then go on for ever; up to that
depth their number is bounded, and so is what they leave on the stack. -/
namespace TopDown

variable {V T : Type} [DecidableEq V] [DecidableEq T]

theorem Table.ofSets_sound (G : Grammar V T) (first : Firsts V T) (follow : Follows V T) :
    (ofSets G first follow).Sound G := by
  intro v a id h
  obtain ⟨p, hp, hv, _⟩ := exists_claimant h
  exact ⟨p, hp, hv⟩

theorem Parser.tableOf_sound (G : Grammar V T) : (ofGrammar G).tableOf.Sound G :=
  Table.ofSets_sound G _ _

theorem Parser.parse_ofGrammar (G : Grammar V T) (w : List T) : (ofGrammar G).parse w =
    .ok (run G (ofGrammar G).tableOf (G.stepLimit w) (Config.initial G w)) := rfl

def Ends (G : Grammar V T) (t : Table V T) (c : Config V T) : Prop :=
  ∃ n, (run G t n c).ending ≠ .unfinished

section Ending

variable {G : Grammar V T} {t : Table V T} {ss : List (Snapshot V T)} {c d : Config V T} {n : Nat}

theorem ended_behind_path (h : Path G t ss c d) (ended : (run G t n c).ending ≠ .unfinished) :
    (run G t n d).ending ≠ .unfinished ∧
      (run G t n c).trace.length = ss.length + (run G t n d).trace.length := by
  have longer := run_eq_of_le ended (Nat.le_add_left n ss.length)
  rw [run_of_path h] at longer
  rw [← longer] at ended ⊢
  exact ⟨ended, List.length_append⟩

theorem Ends.behind_path (ends : Ends G t c) (h : Path G t ss c d) : Ends G t d := by
  obtain ⟨n, ended⟩ := ends
  exact ⟨n, (ended_behind_path h ended).1⟩

theorem ended_of_path (h : Path G t ss c d) (ended : (run G t n d).ending ≠ .unfinished) {k : Nat}
    (hk : ss.length + n ≤ k) : (run G t k c).ending ≠ .unfinished := by
  have sooner : (run G t (ss.length + n) c).ending ≠ .unfinished := by
    rw [run_of_path h]
    exact ended
  rw [run_eq_of_le sooner hk]
  exact sooner

theorem Ends.of_path (h : Path G t ss c d) (ends : Ends G t d) : Ends G t c := by
  obtain ⟨n, ended⟩ := ends
  exact ⟨ss.length + n, ended_of_path h ended (Nat.le_refl _)⟩

end Ending

section Expansion

variable (G : Grammar V T) (t : Table V T) (w : List T)

/-- `k` steps lead from the form `x` to the form `y`, and `w` remains. -/
def Expands (k : Nat) (x y : List (Sym V T)) : Prop :=
  ∃ ss, Path G t ss (.live x w) (.live y w) ∧ ss.length = k

/-- On top of whatever stack, `A` is expanded until `B` stands on top. -/
def Nests (A B : V) : Prop :=
  ∃ k y, ∀ z, Expands G t w (k + 1) (.var A :: z) (.var B :: (y ++ z))

/-- Expansion stops at this form: it has a terminal in front or a variable with an empty cell. -/
def Stuck : List (Sym V T) → Prop
  | .term _ :: _ => True
  | .var v :: _ => t.get? v (.ofWord w) = none
  | _ => False

/-- Within `n` steps nothing is left of `x`. -/
def Clears (n : Nat) (x : List (Sym V T)) : Prop :=
  ∃ k, k ≤ n ∧ ∀ z, Expands G t w k (x ++ z) z

/-- Within `n` steps `x` has become a form of at most `m` symbols at which expansion stops. -/
def Stops (n m : Nat) (x : List (Sym V T)) : Prop :=
  ∃ k y, k ≤ n ∧ y.length ≤ m ∧ Sym.eps ∉ y ∧ Stuck t w y ∧ ∀ z, Expands G t w k (x ++ z) (y ++ z)

/-- From `x` the expansion comes to variables that nest `d` deep below the first of them. -/
def Dives (d : Nat) (x : List (Sym V T)) : Prop :=
  ∃ A chain, chain.length = d ∧ (A :: chain).Pairwise (Nests G t w) ∧
    (∀ B ∈ A :: chain, B ∈ G.vars) ∧ ∃ k y, ∀ z, Expands G t w k (x ++ z) (.var A :: (y ++ z))

end Expansion

section Nesting

variable {G : Grammar V T} {t : Table V T} {w : List T} {x y z : List (Sym V T)} {A B C : V}
  {j k m n d : Nat}

theorem expands_refl (x : List (Sym V T)) : Expands G t w 0 x x := ⟨[], .nil _, rfl⟩

theorem Expands.trans (h : Expands G t w j x y) (h' : Expands G t w k y z) :
    Expands G t w (j + k) x z := by
  obtain ⟨ss, path, rfl⟩ := h
  obtain ⟨rs, path', rfl⟩ := h'
  exact ⟨ss ++ rs, path.append path', List.length_append⟩

theorem expands_head {id : Nat} {p : Production V T} (cell : t.get? p.head (.ofWord w) = some id)
    (hid : G.production? id = some p) (z : List (Sym V T)) :
    Expands G t w 1 (.var p.head :: z) (erase p.body ++ z) := by
  obtain ⟨s, hs, hd, _⟩ := (Turn.expand (x := z) cell hid).step
  exact ⟨[s], .cons hs hd (.nil _), rfl⟩

theorem Nests.trans (h : Nests G t w A B) (h' : Nests G t w B C) : Nests G t w A C := by
  obtain ⟨j, y, hy⟩ := h
  obtain ⟨k, u, hu⟩ := h'
  refine ⟨j + 1 + k, u ++ y, fun z => ?_⟩
  rw [List.append_assoc]
  exact (hy z).trans (hu (y ++ z))

theorem not_ends_of_nests (h : Nests G t w A A) (z : List (Sym V T)) :
    ¬ Ends G t (.live (.var A :: z) w) := by
  obtain ⟨k, y, hy⟩ := h
  -- by induction on the length of the run, which is shorter behind each return to `A`
  have endless : ∀ (l : Nat) (z : List (Sym V T)) (n : Nat),
      (run G t n (.live (.var A :: z) w)).ending ≠ .unfinished →
      (run G t n (.live (.var A :: z) w)).trace.length ≤ l → False := by
    intro l
    induction l with
    | zero =>
      intro z n ended short
      obtain ⟨ss, path, count⟩ := hy z
      have := (ended_behind_path path ended).2
      omega
    | succ l ih =>
      intro z n ended short
      obtain ⟨ss, path, count⟩ := hy z
      obtain ⟨ended', shorter⟩ := ended_behind_path path ended
      exact ih (y ++ z) n ended' (by omega)
  rintro ⟨n, ended⟩
  exact endless _ z n ended (Nat.le_refl _)

theorem not_ends_of_dives (deep : G.vars.length ≤ d) (h : Dives G t w d x) (z : List (Sym V T)) :
    ¬ Ends G t (.live (x ++ z) w) := by
  obtain ⟨A, chain, length, nested, known, k, y, hy⟩ := h
  intro ends
  have alone : ∀ B ∈ A :: chain, ¬ Nests G t w B B := by
    intro B hB loop
    obtain ⟨ss, path, _⟩ := hy z
    have endsA := ends.behind_path path
    rcases List.mem_cons.1 hB with rfl | hB
    · exact not_ends_of_nests loop _ endsA
    · obtain ⟨_, u, hu⟩ := List.rel_of_pairwise_cons nested hB
      obtain ⟨rs, path', _⟩ := hu (y ++ z)
      exact not_ends_of_nests loop _ (endsA.behind_path path')
  -- no variable of the chain nests within itself, so none comes twice
  have distinct : (A :: chain).Nodup := by
    refine nested.imp_of_mem ?_
    rintro B C hB _ nests rfl
    exact alone B hB nests
  have := (distinct.subperm known).length_le
  rw [List.length_cons] at this
  omega

end Nesting

section Settling

variable {G : Grammar V T} {t : Table V T} {w : List T} {p : Production V T}
  {x y u : List (Sym V T)} {b d id j k m n : Nat}

theorem Clears.mono (h : Clears G t w n x) (hn : n ≤ k) : Clears G t w k x := by
  obtain ⟨j, hj, hx⟩ := h
  exact ⟨j, Nat.le_trans hj hn, hx⟩

theorem Stops.mono (h : Stops G t w n m x) (hn : n ≤ k) (hm : m ≤ d) : Stops G t w k d x := by
  obtain ⟨j, y, hj, short, rest⟩ := h
  exact ⟨j, y, Nat.le_trans hj hn, Nat.le_trans short hm, rest⟩

theorem Clears.after (hu : Clears G t w j u) (h : Clears G t w n x) :
    Clears G t w (j + n) (u ++ x) := by
  obtain ⟨i, hi, gone⟩ := hu
  obtain ⟨k, hk, hx⟩ := h
  refine ⟨i + k, Nat.add_le_add hi hk, fun z => ?_⟩
  rw [List.append_assoc]
  exact (gone (x ++ z)).trans (hx z)

theorem Stops.after (hu : Clears G t w j u) (h : Stops G t w n m x) :
    Stops G t w (j + n) m (u ++ x) := by
  obtain ⟨i, hi, gone⟩ := hu
  obtain ⟨k, y, hk, short, clean, stuck, hx⟩ := h
  refine ⟨i + k, y, Nat.add_le_add hi hk, short, clean, stuck, fun z => ?_⟩
  rw [List.append_assoc]
  exact (gone (x ++ z)).trans (hx z)

theorem Dives.after (hu : Clears G t w j u) (h : Dives G t w d x) : Dives G t w d (u ++ x) := by
  obtain ⟨i, _, gone⟩ := hu
  obtain ⟨A, chain, length, nested, known, k, y, hx⟩ := h
  refine ⟨A, chain, length, nested, known, i + k, y, fun z => ?_⟩
  rw [List.append_assoc]
  exact (gone (x ++ z)).trans (hx z)

theorem Clears.of_body (cell : t.get? p.head (.ofWord w) = some id)
    (hid : G.production? id = some p) (h : Clears G t w n (erase p.body)) :
    Clears G t w (1 + n) [.var p.head] := by
  obtain ⟨k, hk, gone⟩ := h
  exact ⟨1 + k, Nat.add_le_add_left hk 1, fun z => (expands_head cell hid z).trans (gone z)⟩

theorem Stuck.append (h : Stuck t w y) (x : List (Sym V T)) : Stuck t w (y ++ x) := by
  cases y with
  | nil => exact h.elim
  | cons s y =>
    cases s with
    | term a => exact trivial
    | var v => exact h
    | eps => exact h.elim

theorem Stops.of_body (cell : t.get? p.head (.ofWord w) = some id)
    (hid : G.production? id = some p) (clean : Sym.eps ∉ x) (h : Stops G t w n m (erase p.body)) :
    Stops G t w (1 + n) (m + x.length) (.var p.head :: x) := by
  obtain ⟨k, y, hk, short, cleanY, stuck, hy⟩ := h
  refine ⟨1 + k, y ++ x, Nat.add_le_add_left hk 1, ?_, ?_, stuck.append x, fun z => ?_⟩
  · rw [List.length_append]
    exact Nat.add_le_add_right short _
  · rw [List.mem_append, not_or]
    exact ⟨cleanY, clean⟩
  · rw [List.append_assoc]
    exact (expands_head cell hid (x ++ z)).trans (hy (x ++ z))

theorem Dives.of_body (cell : t.get? p.head (.ofWord w) = some id)
    (hid : G.production? id = some p) (h : Dives G t w d (erase p.body)) (x : List (Sym V T)) :
    Dives G t w (d + 1) (.var p.head :: x) := by
  obtain ⟨A, chain, length, nested, known, k, y, hy⟩ := h
  have nests : Nests G t w p.head A := by
    refine ⟨k, y, fun z => ?_⟩
    rw [Nat.add_comm]
    exact (expands_head cell hid z).trans (hy z)
  refine ⟨p.head, A :: chain, ?_, List.pairwise_cons.2 ⟨?_, nested⟩, ?_, 0, x, fun z =>
    expands_refl _⟩
  · rw [List.length_cons, length]
  · intro B hB
    rcases List.mem_cons.1 hB with rfl | hB
    · exact nests
    · exact nests.trans (List.rel_of_pairwise_cons nested hB)
  · intro B hB
    rcases List.mem_cons.1 hB with rfl | hB
    · exact Grammar.head_mem_vars (Grammar.mem_productions_of_production? hid)
    · exact known B hB

theorem stops_of_stuck (clean : Sym.eps ∉ x) (stuck : Stuck t w x) (short : x.length ≤ m) :
    Stops G t w n m x :=
  ⟨0, x, Nat.zero_le n, short, clean, stuck, fun _ => expands_refl _⟩

theorem form_cases (sound : t.Sound G) (clean : Sym.eps ∉ x) : x = [] ∨ Stuck t w x ∨
    ∃ id p x', x = .var p.head :: x' ∧ t.get? p.head (.ofWord w) = some id ∧
      G.production? id = some p := by
  cases x with
  | nil => exact Or.inl rfl
  | cons s x =>
    cases s with
    | term a => exact Or.inr (Or.inl trivial)
    | var v =>
      cases cell : t.get? v (.ofWord w) with
      | none => exact Or.inr (Or.inl cell)
      | some id =>
        obtain ⟨p, hid, rfl⟩ := sound v _ id cell
        exact Or.inr (Or.inr ⟨id, p, x, rfl, cell, hid⟩)
    | eps => exact absurd List.mem_cons_self clean

/-- To every depth, expansion clears a form, stops at a form that is not much longer, or dives. -/
theorem settles (sound : t.Sound G) (short : ∀ p ∈ G.productions, p.body.length ≤ b) (d : Nat)
    (x : List (Sym V T)) (clean : Sym.eps ∉ x) :
    Clears G t w (x.length * (b + 1) ^ d) x ∨
      Stops G t w (x.length * (b + 1) ^ d) (x.length + d * b) x ∨ Dives G t w d x := by
  induction d generalizing x with
  | zero =>
    rcases form_cases (w := w) sound clean with rfl | stuck | ⟨id, p, x, rfl, cell, hid⟩
    · exact Or.inl ⟨0, Nat.zero_le _, expands_refl⟩
    · exact Or.inr (Or.inl (stops_of_stuck clean stuck (Nat.le_add_right ..)))
    · refine Or.inr (Or.inr ⟨p.head, [], rfl, by simp, ?_, 0, x, fun z => expands_refl _⟩)
      intro B hB
      rw [List.mem_singleton.1 hB]
      exact Grammar.head_mem_vars (Grammar.mem_productions_of_production? hid)
  | succ d ih =>
    -- the body of the first variable settles one level deeper, and the rest of the form by `ihx`
    induction x with
    | nil => exact Or.inl ⟨0, Nat.zero_le _, expands_refl⟩
    | cons s x ihx =>
      rcases form_cases (w := w) sound clean with h | stuck | ⟨id, p, x', hx, cell, hid⟩
      · cases h
      · exact Or.inr (Or.inl (stops_of_stuck clean stuck (Nat.le_add_right ..)))
      · obtain ⟨rfl, rfl⟩ := List.cons.inj hx
        have cleanX := List.not_mem_of_not_mem_cons clean
        have size : (erase p.body).length ≤ b := Nat.le_trans (length_erase_le p.body)
          (short p (Grammar.mem_productions_of_production? hid))
        have cost : 1 + (erase p.body).length * (b + 1) ^ d ≤ (b + 1) ^ (d + 1) := by
          have := Nat.mul_le_mul_right ((b + 1) ^ d) size
          have : 0 < (b + 1) ^ d := Nat.pow_pos (Nat.succ_pos b)
          rw [Nat.pow_succ, Nat.mul_comm _ (b + 1), Nat.succ_mul]
          omega
        rw [List.length_cons, Nat.succ_mul, Nat.add_comm (x.length * _)]
        rcases ih (erase p.body) (eps_not_mem_erase p.body) with clears | stops | dives
        · have gone := (Clears.of_body cell hid clears).mono cost
          rcases ihx cleanX with clears | stops | dives
          · exact Or.inl (gone.after clears)
          · exact Or.inr (Or.inl ((Stops.after gone stops).mono (Nat.le_refl _) (by omega)))
          · exact Or.inr (Or.inr (Dives.after gone dives))
        · have grown : (erase p.body).length + d * b + x.length ≤ x.length + 1 + (d + 1) * b := by
            rw [Nat.succ_mul]
            omega
          have stopped := Stops.of_body cell hid cleanX stops
          exact Or.inr (Or.inl (stopped.mono (Nat.le_trans cost (Nat.le_add_right ..)) grown))
        · exact Or.inr (Or.inr (Dives.of_body cell hid dives x))

end Settling

section Limits

variable {G : Grammar V T} {t : Table V T} {w : List T} {x y : List (Sym V T)} {b n : Nat}

theorem match_or_end (sound : t.Sound G) (clean : Sym.eps ∉ y) (stop : y = [] ∨ Stuck t w y) :
    (∃ a y' v, y = .term a :: y' ∧ w = a :: v) ∨
      (run G t 1 (.live y w)).ending ≠ .unfinished := by
  rcases turn_or_reject sound clean w with ⟨id?, a?, d, turn⟩ | ⟨s, reason, hs, hr⟩
  · cases turn with
    | finish =>
      refine Or.inr ?_
      obtain ⟨s, hs, hd, _⟩ := (Turn.finish (G := G) (t := t)).step
      have idle : Config.done.snapshot t = .error .accepted := rfl
      simp [run, hs, hd, idle, Run.push]
    | pass => exact Or.inl ⟨_, _, _, rfl, rfl⟩
    | expand cell _ =>
      rcases stop with h | stuck
      · cases h
      · cases cell.symm.trans stuck
  · refine Or.inr ?_
    simp [run, hs, hr]

/-- Steps that are enough for `m` lookaheads from a form of `h` symbols. -/
def enough (b n m h : Nat) : Nat := m * ((h + m * n * b) * (b + 1) ^ n + 1)

theorem add_enough_le {h h' k : Nat} (m : Nat) (hk : k ≤ h * (b + 1) ^ n)
    (small : h' + 1 ≤ h + n * b) : k + 1 + enough b n m h' ≤ enough b n (m + 1) h := by
  have forms : h' + m * n * b ≤ h + (m + 1) * n * b := by
    have : (m + 1) * n * b = m * n * b + n * b := by rw [Nat.add_mul, Nat.add_mul, Nat.one_mul]
    omega
  have each : (h' + m * n * b) * (b + 1) ^ n + 1 ≤ (h + (m + 1) * n * b) * (b + 1) ^ n + 1 :=
    Nat.succ_le_succ (Nat.mul_le_mul_right _ forms)
  have first : k ≤ (h + (m + 1) * n * b) * (b + 1) ^ n :=
    Nat.le_trans hk (Nat.mul_le_mul_right _ (Nat.le_add_right ..))
  have := Nat.mul_le_mul_left m each
  unfold enough
  rw [Nat.succ_mul]
  omega

theorem succ_le_enough {h k : Nat} (m : Nat) (hk : k ≤ h * (b + 1) ^ n) :
    k + 1 ≤ enough b n (m + 1) h := by
  have : h * (b + 1) ^ n ≤ (h + (m + 1) * n * b) * (b + 1) ^ n :=
    Nat.mul_le_mul_right _ (Nat.le_add_right ..)
  unfold enough
  rw [Nat.succ_mul]
  omega

theorem exists_stop (sound : t.Sound G) (short : ∀ p ∈ G.productions, p.body.length ≤ b)
    (clean : Sym.eps ∉ x) (ends : Ends G t (.live x w)) :
    ∃ k y, k ≤ x.length * (b + 1) ^ G.vars.length ∧ y.length ≤ x.length + G.vars.length * b ∧
      Sym.eps ∉ y ∧ (y = [] ∨ Stuck t w y) ∧ Expands G t w k x y := by
  rcases settles (w := w) sound short G.vars.length x clean with
    ⟨k, hk, cleared⟩ | ⟨k, y, hk, small, cleanY, stuck, stopped⟩ | dives
  · have path := cleared []
    rw [List.append_nil] at path
    exact ⟨k, [], hk, by simp, by simp, Or.inl rfl, path⟩
  · have path := stopped []
    rw [List.append_nil, List.append_nil] at path
    exact ⟨k, y, hk, small, cleanY, Or.inr stuck, path⟩
  · refine absurd ?_ (not_ends_of_dives (Nat.le_refl _) dives [])
    rwa [List.append_nil]

theorem ended_of_enough (sound : t.Sound G) (short : ∀ p ∈ G.productions, p.body.length ≤ b)
    (clean : Sym.eps ∉ x) (ends : Ends G t (.live x w)) :
    (run G t (enough b G.vars.length (w.length + 1) x.length) (.live x w)).ending ≠
      .unfinished := by
  induction w generalizing x with
  | nil =>
    obtain ⟨k, y, hk, _, cleanY, stop, ss, path, rfl⟩ := exists_stop sound short clean ends
    rcases match_or_end sound cleanY stop with ⟨a, y', v, _, h⟩ | ended
    · cases h
    · exact ended_of_path path ended (succ_le_enough _ hk)
  | cons a w ih =>
    obtain ⟨k, y, hk, small, cleanY, stop, ss, path, rfl⟩ := exists_stop sound short clean ends
    rcases match_or_end sound cleanY stop with ⟨a, y', v, rfl, h⟩ | ended
    · cases h
      obtain ⟨s, last⟩ := path_of_match G t a y' w
      have path' := path.append last
      have ended := ih (List.not_mem_of_not_mem_cons cleanY) (ends.behind_path path')
      refine ended_of_path path' ended ?_
      rw [List.length_append]
      exact add_enough_le _ hk small
    · exact ended_of_path path ended (succ_le_enough _ hk)

omit [DecidableEq V] [DecidableEq T] in
theorem Grammar.length_body_le (G : Grammar V T) :
    ∀ p ∈ G.productions, p.body.length ≤ G.maxBodyLength := by
  have grows : ∀ (ps : List (Production V T)) (n : Nat),
      n ≤ ps.foldl (fun n p => max n p.body.length) n ∧
        ∀ p ∈ ps, p.body.length ≤ ps.foldl (fun n p => max n p.body.length) n := by
    intro ps
    induction ps with
    | nil => simp
    | cons q ps ih =>
      intro n
      obtain ⟨above, each⟩ := ih (max n q.body.length)
      refine ⟨Nat.le_trans (Nat.le_max_left ..) above, fun p hp => ?_⟩
      rcases List.mem_cons.1 hp with rfl | hp
      · exact Nat.le_trans (Nat.le_max_right ..) above
      · exact each p hp
  exact (grows G.productions 0).2

/-- A run that ends at all has ended within the step limit. -/
theorem ended_of_stepLimit (sound : t.Sound G) (w : List T) (ends : Ends G t (Config.initial G w)) :
    (run G t (G.stepLimit w) (Config.initial G w)).ending ≠ .unfinished := by
  rw [Config.initial_eq_live] at ends ⊢
  have ended := ended_of_enough sound G.length_body_le (by simp) ends
  refine ended_of_path (.nil _) ended ?_
  rw [List.length_nil, Nat.zero_add]
  unfold enough Grammar.stepLimit
  refine Nat.mul_le_mul_left _ (Nat.succ_le_succ (Nat.mul_le_mul_right _ ?_))
  exact Nat.add_le_add_right (by simp) _

theorem parse_eq_of_ended {w : List T} {n : Nat}
    (ended : (run G (Parser.ofGrammar G).tableOf n (Config.initial G w)).ending ≠ .unfinished) :
    (Parser.ofGrammar G).parse w =
      .ok (run G (Parser.ofGrammar G).tableOf n (Config.initial G w)) := by
  have ended' := ended_of_stepLimit (Parser.tableOf_sound G) w ⟨n, ended⟩
  rw [Parser.parse_ofGrammar, run_eq_of_ended ended' ended]

end Limits

end TopDown
