import Mathlib.Data.List.Forall2
import TopDown.Proofs.Limit
import TopDown.Proofs.Sentence

/-! Whatever reads a body reads it from the left, and comes to no other end if one more epsilon
stands there. An epsilon in front of another symbol is not without effect: FIRST sets stop at it. -/
namespace TopDown

variable {V T : Type}

def AlikeBodies (x y : List (Sym V T)) : Prop :=
  ∃ z m n, x = z ++ List.replicate m .eps ∧ y = z ++ List.replicate n .eps

structure Production.Alike (p q : Production V T) : Prop where
  head : p.head = q.head
  body : AlikeBodies p.body q.body

structure Grammar.Alike (G G' : Grammar V T) : Prop where
  start : G.start = G'.start
  productions : List.Forall₂ Production.Alike G.productions G'.productions

section Bodies

variable {x y : List (Sym V T)}

/-- What does not see one more epsilon at the end does not see how many there are. -/
theorem AlikeBodies.eq_of_blind {α : Type} {f : List (Sym V T) → α}
    (blind : ∀ z, f (z ++ [.eps]) = f z) (h : AlikeBodies x y) : f x = f y := by
  obtain ⟨z, m, n, rfl, rfl⟩ := h
  have cut : ∀ k, f (z ++ List.replicate k .eps) = f z := by
    intro k
    induction k with
    | zero => rw [List.replicate_zero, List.append_nil]
    | succ k ih => rw [List.replicate_succ', ← List.append_assoc, blind, ih]
  exact (cut m).trans (cut n).symm

theorem filterMap_concat_eps {α : Type} {f : Sym V T → Option α} (skipped : f .eps = none)
    (z : List (Sym V T)) : (z ++ [Sym.eps]).filterMap f = z.filterMap f := by
  simp [skipped]

theorem Grammar.expandBody_concat_eps {σ : Type} (expand : V → σ → Except Obstacle (List T) × σ)
    (z : List (Sym V T)) (s : σ) : expandBody expand (z ++ [.eps]) s = expandBody expand z s := by
  induction z generalizing s with
  | nil => rfl
  | cons a z ih => cases a <;> simp only [List.cons_append, expandBody, ih]

variable [DecidableEq V] [DecidableEq T]

theorem Firsts.leading_concat_eps (sets : Family V (First T)) (z : List (Sym V T)) :
    leading sets (z ++ [.eps]) = leading sets z := by
  induction z with
  | nil => rfl
  | cons a z ih => cases a <;> simp only [List.cons_append, leading, ih]

theorem Follows.after_concat_eps (first : Firsts V T) (sets : Family V (Lookahead T)) (head : V)
    (z : List (Sym V T)) : after first sets head (z ++ [.eps]) = after first sets head z := by
  have leading : first.ofSymbols (z ++ [.eps]) = first.ofSymbols z := Firsts.leading_concat_eps _ z
  rw [after, after, leading]

theorem Follows.visitBody_concat_eps (first : Firsts V T) (head : V)
    (sets : Family V (Lookahead T)) (z : List (Sym V T)) :
    visitBody first head sets (z ++ [.eps]) = visitBody first head sets z := by
  induction z generalizing sets with
  | nil => rfl
  | cons a z ih => cases a <;> simp only [List.cons_append, visitBody, after_concat_eps, ih]

end Bodies

namespace Production.Alike

variable {p q : Production V T} (h : p.Alike q)

include h

theorem bodyTerms_eq : p.bodyTerms = q.bodyTerms :=
  h.body.eq_of_blind (filterMap_concat_eps rfl)

theorem pushed_eq : p.pushed = q.pushed := h.body.eq_of_blind (filterMap_concat_eps rfl)

variable [DecidableEq V] [DecidableEq T]

theorem leading_eq (sets : Family V (First T)) :
    Firsts.leading sets p.body = Firsts.leading sets q.body :=
  h.body.eq_of_blind (Firsts.leading_concat_eps sets)

theorem visit_first_eq (sets : Family V (First T)) : Firsts.visit sets p = Firsts.visit sets q := by
  rw [Firsts.visit, Firsts.visit, h.head, h.leading_eq]

theorem visit_follow_eq (first : Firsts V T) (sets : Family V (Lookahead T)) :
    Follows.visit first sets p = Follows.visit first sets q := by
  rw [Follows.visit, Follows.visit, h.head]
  exact h.body.eq_of_blind (Follows.visitBody_concat_eps first q.head sets)

theorem claims_eq (first : Firsts V T) (follow : Follows V T) :
    Table.claims first follow p = Table.claims first follow q := by
  have leading : first.ofSymbols p.body = first.ofSymbols q.body := h.leading_eq _
  rw [Table.claims, Table.claims, leading, h.head]

theorem enter_eq (first : Firsts V T) (follow : Follows V T) (t : Table V T) (id : Nat) :
    Table.enter first follow t (p, id) = Table.enter first follow t (q, id) := by
  rw [Table.enter, Table.enter, h.claims_eq, h.head]

end Production.Alike

namespace Grammar.Alike

variable {G G' : Grammar V T} (h : G.Alike G')

include h

theorem map_eq {α : Type} {f : Production V T → α} (blind : ∀ {p q}, p.Alike q → f p = f q) :
    G.productions.map f = G'.productions.map f :=
  List.forall₂_eq_eq_eq ▸ List.rel_map (fun _ _ alike => blind alike) h.productions

theorem numbered :
    List.Forall₂ (fun e e' => e.1.Alike e'.1 ∧ e.2 = e'.2) G.numbered G'.numbered := by
  have numbering : ∀ {ps qs : List (Production V T)} (k : Nat), List.Forall₂ Production.Alike ps qs →
      List.Forall₂ (fun e e' => e.1.Alike e'.1 ∧ e.2 = e'.2) (ps.zipIdx k) (qs.zipIdx k) := by
    intro ps qs k alike
    induction alike generalizing k with
    | nil => exact .nil
    | cons head _ ih => exact .cons ⟨head, rfl⟩ (ih (k + 1))
  exact numbering 0 h.productions

theorem productionsOf [DecidableEq V] (v : V) :
    List.Forall₂ (fun e e' => e.1.Alike e'.1 ∧ e.2 = e'.2) (G.productionsOf v)
      (G'.productionsOf v) := by
  rw [productionsOf_eq_filter, productionsOf_eq_filter]
  refine List.rel_filter (fun e e' alike => ?_) h.numbered
  change decide (e.1.head = v) = true ↔ decide (e'.1.head = v) = true
  rw [alike.1.head]

theorem terminals_eq [DecidableEq T] : G.terminals = G'.terminals := by
  rw [terminals, terminals, List.flatMap_def, List.flatMap_def,
    h.map_eq Production.Alike.bodyTerms_eq]

theorem pushed_eq (id : Nat) :
    (G.production? id).map Production.pushed = (G'.production? id).map Production.pushed := by
  simp only [production?, ← List.getElem?_map, h.map_eq Production.Alike.pushed_eq]

theorem initial_eq (w : List T) : Config.initial G w = Config.initial G' w := by
  rw [Config.initial, Config.initial, h.start]

theorem next_eq (s : Snapshot V T) : s.next G = s.next G' := by
  unfold Snapshot.next
  split
  · rfl
  · rename_i id _
    have same := h.pushed_eq id
    cases hp : G.production? id with
    | none =>
      rw [hp, Option.map_none, eq_comm, Option.map_eq_none_iff] at same
      rw [same]
    | some p =>
      rw [hp, Option.map_some, eq_comm, Option.map_eq_some_iff] at same
      obtain ⟨q, hq, pushed⟩ := same
      simp only [hq, pushed]
  · rfl

variable [DecidableEq V]

theorem vars_eq : G.vars = G'.vars := by
  rw [Grammar.vars_eq, Grammar.vars_eq, h.map_eq Production.Alike.head]

section Generator

variable {σ : Type} [Chooser σ]

theorem expand_eq (depth : Nat) (v : V) (s : σ) : G.expand depth v s = G'.expand depth v s := by
  induction depth generalizing v s with
  | zero => rfl
  | succ depth ih =>
    have below : (G.expand depth : V → σ → _) = G'.expand depth := by
      funext v s
      exact ih v s
    have listed := h.productionsOf v
    cases count : (G.productionsOf v).length with
    | zero =>
      have none := List.eq_nil_of_length_eq_zero count
      have none' := List.eq_nil_of_length_eq_zero (listed.length_eq.symm.trans count)
      simp only [expand, none, none']
    | succ n =>
      have count' := listed.length_eq.symm.trans count
      rcases picked : Chooser.pick n s with ⟨i, s'⟩
      have known : i.val < (G.productionsOf v).length := Nat.lt_of_lt_of_eq i.isLt count.symm
      have known' : i.val < (G'.productionsOf v).length := Nat.lt_of_lt_of_eq i.isLt count'.symm
      have alike := listed.get known known'
      rw [expand_of_pick count (List.getElem?_eq_getElem known) picked,
        expand_of_pick count' (List.getElem?_eq_getElem known') picked, below]
      exact alike.1.body.eq_of_blind (f := fun body => expandBody (G'.expand depth) body s')
        fun z => expandBody_concat_eps _ z s'

theorem generateFrom_eq (L : Limits) (left k : Nat) (s : σ) :
    G.generateFrom L left k s = G'.generateFrom L left k s := by
  induction left generalizing k s with
  | zero => rfl
  | succ left ih => simp only [generateFrom, h.start, h.expand_eq, ih]

theorem generate_eq (L : Limits) (s : σ) : G.generate L s = G'.generate L s := by
  rw [generate, generate, h.generateFrom_eq]

end Generator

variable [DecidableEq T]

theorem firsts_eq : Firsts.ofGrammar G = Firsts.ofGrammar G' := by
  have sweep : Firsts.sweep G = Firsts.sweep G' := by
    funext sets
    exact List.rel_foldl (fun _ _ same _ _ alike => same ▸ alike.visit_first_eq _) rfl h.productions
  simp only [Firsts.ofGrammar, Firsts.sizeBound, Firsts.initial, sweep, h.vars_eq, h.terminals_eq]

theorem follows_eq (first : Firsts V T) : Follows.ofFirsts G first = Follows.ofFirsts G' first := by
  have sweep : Follows.sweep G first = Follows.sweep G' first := by
    funext sets
    exact List.rel_foldl (fun _ _ same _ _ alike => same ▸ alike.visit_follow_eq _ _) rfl h.productions
  simp only [Follows.ofFirsts, Follows.sizeBound, Follows.initial, sweep, h.vars_eq, h.terminals_eq,
    h.start]

theorem table_eq (first : Firsts V T) (follow : Follows V T) :
    Table.ofSets G first follow = Table.ofSets G' first follow := by
  refine List.rel_foldl (P := Eq) ?_ rfl h.numbered
  rintro t _ rfl ⟨p, id⟩ ⟨q, _⟩ ⟨alike, rfl⟩
  exact alike.enter_eq first follow t id

theorem tableOf_eq : (Parser.ofGrammar G).tableOf = (Parser.ofGrammar G').tableOf := by
  change Table.ofSets G (Firsts.ofGrammar G) (Follows.ofFirsts G (Firsts.ofGrammar G)) = _
  rw [h.firsts_eq, h.follows_eq, h.table_eq]
  rfl

theorem run_eq (t : Table V T) (n : Nat) (c : Config V T) : run G t n c = run G' t n c := by
  induction n generalizing c with
  | zero => rfl
  | succ n ih => simp only [run, h.next_eq, ih]

theorem parse_eq {w : List T}
    (ends : Ends G (Parser.ofGrammar G).tableOf (Config.initial G w)) :
    (Parser.ofGrammar G).parse w = (Parser.ofGrammar G').parse w := by
  obtain ⟨n, ended⟩ := ends
  have same : run G (Parser.ofGrammar G).tableOf n (Config.initial G w) =
      run G' (Parser.ofGrammar G').tableOf n (Config.initial G' w) := by
    rw [h.run_eq, h.tableOf_eq, h.initial_eq]
  rw [parse_eq_of_ended ended, same, parse_eq_of_ended (same ▸ ended)]

end Grammar.Alike

/-- The number of epsilons at the ends of bodies makes no difference to the sets and their passes,
to the table, to runs under any limit and parses that end, and to what the generator returns and
leaves of its source. The cells do not even depend on the order in which the members of the sets
stand. -/
theorem padding_invisible [DecidableEq V] [DecidableEq T] {G G' : Grammar V T} (h : G.Alike G') :
    Firsts.ofGrammar G = Firsts.ofGrammar G' ∧
    Follows.ofFirsts G (Firsts.ofGrammar G) = Follows.ofFirsts G' (Firsts.ofGrammar G') ∧
    (Parser.ofGrammar G).tableOf = (Parser.ofGrammar G').tableOf ∧
    (∀ w limit, run G (Parser.ofGrammar G).tableOf limit (Config.initial G w) =
      run G' (Parser.ofGrammar G').tableOf limit (Config.initial G' w)) ∧
    (∀ w, Ends G (Parser.ofGrammar G).tableOf (Config.initial G w) →
      (Parser.ofGrammar G).parse w = (Parser.ofGrammar G').parse w) ∧
    (∀ {σ : Type} [Chooser σ] (L : Limits) (s : σ), G.generate L s = G'.generate L s) ∧
    ∀ first first' follow follow',
      (∀ v f, f ∈ Family.members first.sets v ↔ f ∈ Family.members first'.sets v) →
      (∀ v a, a ∈ Family.members follow.sets v ↔ a ∈ Family.members follow'.sets v) →
      ∀ v a, (Table.ofSets G first follow).get? v a = (Table.ofSets G' first' follow').get? v a ∧
        (Table.ofSets G first follow).conflicts.filter (fun c => c.cell = ⟨v, a⟩) =
          (Table.ofSets G' first' follow').conflicts.filter (fun c => c.cell = ⟨v, a⟩) := by
  refine ⟨h.firsts_eq, ?_, h.tableOf_eq, ?_, fun w => h.parse_eq, fun L s => h.generate_eq L s, ?_⟩
  · rw [h.firsts_eq, h.follows_eq]
  · intro w limit
    rw [h.run_eq, h.tableOf_eq, h.initial_eq]
  · intro first first' follow follow' firsts follows
    rw [h.table_eq]
    exact Table.ofSets_agree firsts follows

/-- Bodies with an epsilon in front and in the middle, and none at the end that could be left out.
-/
def trimmedGrammar : Grammar Char Char where
  start := 'S'
  productions := [⟨'S', [.term 'a', .eps, .var 'A', .term 'b']⟩, ⟨'S', [.eps, .var 'A']⟩,
    ⟨'A', [.term 'b', .var 'S']⟩, ⟨'A', [.eps]⟩]
  body_ne_nil := by decide
  start_defined := by decide
  closed := by simp +contextual [Production.bodyVars, Sym.var?]

def paddedGrammar : Grammar Char Char where
  start := 'S'
  productions := [⟨'S', [.term 'a', .eps, .var 'A', .term 'b', .eps]⟩,
    ⟨'S', [.eps, .var 'A', .eps, .eps]⟩, ⟨'A', [.term 'b', .var 'S']⟩, ⟨'A', [.eps, .eps, .eps]⟩]
  body_ne_nil := by decide
  start_defined := by decide
  closed := by simp +contextual [Production.bodyVars, Sym.var?]

theorem padded_parse : trimmedGrammar.Alike paddedGrammar ∧
    (Parser.ofGrammar trimmedGrammar).tableOf = (Parser.ofGrammar paddedGrammar).tableOf ∧
    (Parser.ofGrammar trimmedGrammar).parse ['a', 'b'] =
      (Parser.ofGrammar paddedGrammar).parse ['a', 'b'] := by
  have alike : trimmedGrammar.Alike paddedGrammar := by
    refine ⟨rfl, .cons ⟨rfl, ?_⟩ (.cons ⟨rfl, ?_⟩ (.cons ⟨rfl, ?_⟩ (.cons ⟨rfl, ?_⟩ .nil)))⟩
    · exact ⟨[.term 'a', .eps, .var 'A', .term 'b'], 0, 1, rfl, rfl⟩
    · exact ⟨[.eps, .var 'A'], 0, 2, rfl, rfl⟩
    · exact ⟨[.term 'b', .var 'S'], 0, 0, rfl, rfl⟩
    · exact ⟨[], 1, 3, rfl, rfl⟩
  obtain ⟨_, _, table, _, parse, _⟩ := padding_invisible alike
  exact ⟨alike, table, parse _ ⟨5, by decide⟩⟩

end TopDown
