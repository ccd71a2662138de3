import TopDown.Grammar.Sample
import TopDown.Grammar.Tree
import TopDown.Proofs.Derivation
import TopDown.Sentence.Generator
import TopDown.Sentence.Source

/-! An expansion that succeeds has gone through a derivation tree from left to right, no higher than
the nesting that was allowed. One that fails has met that limit, since every variable has a
production. -/
namespace TopDown

variable {V T σ : Type}

/-- `w` is the yield of a derivation tree below `v`, at most `n` high. -/
def Grammar.HasTree (G : Grammar V T) (n : Nat) (v : V) (w : List T) : Prop :=
  ∃ t : Tree V T, t.IsValid G ∧ t.root = .var v ∧ t.height ≤ n ∧ t.yield = w

namespace Limits

variable {L : Limits}

theorem isVoid_iff : L.isVoid = true ↔ L.max = 0 ∨ L.overflow = .retry ∧ L.max < L.min := by
  simp [isVoid]

theorem keep?_eq_some_iff {w u : List T} : L.keep? w = some u ↔ L.min ≤ w.length ∧
    (u = w ∧ w.length ≤ L.max ∨
      L.overflow = .truncate ∧ L.max < w.length ∧ u = w.take L.max) := by
  unfold keep?
  by_cases short : w.length < L.min
  · simp [short, Nat.not_le.2 short]
  · by_cases fits : w.length ≤ L.max
    · simp [short, fits, Nat.not_lt.1 short, Nat.not_lt.2 fits, eq_comm]
    · cases hover : L.overflow with
      | truncate => simp [short, fits, Nat.not_lt.1 short, Nat.not_le.1 fits, eq_comm]
      | retry => simp [short, fits]

/-- The derivation is too deep, or its word is not kept. -/
def Discards (L : Limits) (r : Except Obstacle (List T)) : Prop :=
  r = .error .tooDeep ∨ ∃ w, r = .ok w ∧ L.keep? w = none

theorem not_discards {w u : List T} (kept : L.keep? w = some u) : ¬ L.Discards (.ok w) := by
  rintro (failed | ⟨v, same, dropped⟩)
  · cases failed
  · cases same
    cases kept.symm.trans dropped

end Limits

section Results

variable {r : Except Obstacle (List T)} {f : List T → List T}

theorem map_eq_ok_iff {w : List T} : r.map f = .ok w ↔ ∃ u, r = .ok u ∧ f u = w := by
  cases r <;> simp [Except.map]

theorem map_eq_error_iff {e : Obstacle} : r.map f = .error e ↔ r = .error e := by
  cases r <;> simp [Except.map]

end Results

namespace Grammar

section Body

variable {G : Grammar V T} {expand : V → σ → Except Obstacle (List T) × σ}
  {body : List (Sym V T)} {n : Nat} {s : σ}

theorem expandBody_term (t : T) (rest : List (Sym V T)) (s : σ) :
    (expandBody expand (.term t :: rest) s).1 = (expandBody expand rest s).1.map (t :: ·) := rfl

theorem expandBody_var (expand : V → σ → Except Obstacle (List T) × σ) (v : V)
    (rest : List (Sym V T)) (s : σ) :
    (∃ e, (expand v s).1 = .error e ∧ (expandBody expand (.var v :: rest) s).1 = .error e) ∨
    ∃ u s', (expand v s).1 = .ok u ∧ (expandBody expand (.var v :: rest) s).1 =
      (expandBody expand rest s').1.map (u ++ ·) := by
  rcases h : expand v s with ⟨e | u, s'⟩
  · exact Or.inl ⟨e, rfl, by simp [expandBody, h]⟩
  · exact Or.inr ⟨u, s', rfl, by simp [expandBody, h]⟩

theorem forest_of_expandBody (sound : ∀ v s w, (expand v s).1 = .ok w → G.HasTree n v w)
    {w : List T} (h : (expandBody expand body s).1 = .ok w) :
    ∃ cs : List (Tree V T), cs.map Tree.root = erase body ∧ (∀ c ∈ cs, c.IsValid G) ∧
      Tree.heightAll cs ≤ n ∧ Tree.yieldAll cs = w := by
  induction body generalizing s w with
  | nil =>
    cases h
    exact ⟨[], rfl, by simp, Nat.zero_le n, rfl⟩
  | cons x rest ih =>
    cases x with
    | eps => exact ih h
    | term t =>
      rw [expandBody_term, map_eq_ok_iff] at h
      obtain ⟨u, hu, rfl⟩ := h
      obtain ⟨cs, roots, valid, height, rfl⟩ := ih hu
      refine ⟨.leaf t :: cs, ?_, ?_, ?_, rfl⟩
      · rw [List.map_cons, roots, erase_term, Tree.root]
      · exact List.forall_mem_cons.2 ⟨.leaf t, valid⟩
      · exact Nat.max_le.2 ⟨Nat.zero_le n, height⟩
    | var v =>
      rcases expandBody_var expand v rest s with ⟨e, _, failed⟩ | ⟨u, s', hu, goes⟩
      · cases failed.symm.trans h
      · rw [goes, map_eq_ok_iff] at h
        obtain ⟨u', hu', rfl⟩ := h
        obtain ⟨c, validC, rootC, heightC, rfl⟩ := sound v s u hu
        obtain ⟨cs, roots, valid, height, rfl⟩ := ih hu'
        refine ⟨c :: cs, ?_, ?_, ?_, rfl⟩
        · rw [List.map_cons, rootC, roots, erase_var]
        · exact List.forall_mem_cons.2 ⟨validC, valid⟩
        · exact Nat.max_le.2 ⟨heightC, height⟩

theorem obstacle_of_expandBody {e : Obstacle} (h : (expandBody expand body s).1 = .error e) :
    ∃ v s, .var v ∈ body ∧ (expand v s).1 = .error e := by
  induction body generalizing s with
  | nil => cases h
  | cons x rest ih =>
    have later : ∀ s, (expandBody expand rest s).1 = .error e →
        ∃ v s, .var v ∈ x :: rest ∧ (expand v s).1 = .error e := by
      intro s h
      obtain ⟨v, s', hv, failed⟩ := ih h
      exact ⟨v, s', List.mem_cons_of_mem x hv, failed⟩
    cases x with
    | eps => exact later s h
    | term t =>
      rw [expandBody_term, map_eq_error_iff] at h
      exact later s h
    | var v =>
      rcases expandBody_var expand v rest s with ⟨e', failed, stops⟩ | ⟨u, s', _, goes⟩
      · cases stops.symm.trans h
        exact ⟨v, s, List.mem_cons_self, failed⟩
      · rw [goes, map_eq_error_iff] at h
        exact later s' h

end Body

section Expansion

variable [DecidableEq V] [Chooser σ] {G : Grammar V T} {depth : Nat} {v : V} {s : σ} {w : List T}

theorem expand_of_pick {n id : Nat} {p : Production V T} {i : Fin (n + 1)} {s' : σ}
    (count : (G.productionsOf v).length = n + 1)
    (chosen : (G.productionsOf v)[i.val]? = some (p, id)) (picked : Chooser.pick n s = (i, s'))
    (depth : Nat) : G.expand (depth + 1) v s = expandBody (G.expand depth) p.body s' := by
  cases hps : G.productionsOf v with
  | nil => simp [hps] at count
  | cons e es =>
    obtain rfl : es.length = n := by simpa [hps] using count
    obtain ⟨_, chosen⟩ := List.getElem?_eq_some_iff.1 (hps ▸ chosen)
    simp only [expand, hps, picked, Fin.getElem_fin, chosen]

theorem expand_succ (G : Grammar V T) (depth : Nat) (hv : v ∈ G.vars) (s : σ) :
    ∃ p ∈ G.productions, p.head = v ∧
      ∃ s', G.expand (depth + 1) v s = expandBody (G.expand depth) p.body s' := by
  have listed : 0 < (G.productionsOf v).length :=
    List.length_pos_iff.2 (productionsOf_ne_nil_iff.2 hv)
  obtain ⟨n, count⟩ := Nat.exists_eq_succ_of_ne_zero (Nat.ne_zero_of_lt listed)
  rcases picked : Chooser.pick n s with ⟨i, s'⟩
  have chosen := List.getElem?_eq_getElem (Nat.lt_of_lt_of_eq i.isLt count.symm)
  obtain ⟨hid, head⟩ := mem_productionsOf.1 (List.mem_of_getElem? chosen)
  exact ⟨_, mem_productions_of_production? hid, head, s', expand_of_pick count chosen picked depth⟩

theorem hasTree_of_expand (h : (G.expand depth v s).1 = .ok w) : G.HasTree depth v w := by
  induction depth generalizing v s w with
  | zero => cases h
  | succ depth ih =>
    by_cases hv : v ∈ G.vars
    · obtain ⟨p, hp, rfl, s', body⟩ := expand_succ G depth hv s
      rw [body] at h
      obtain ⟨cs, roots, valid, height, rfl⟩ := forest_of_expandBody (fun _ _ _ => ih) h
      exact ⟨.node p.head cs, .node hp roots valid, rfl, Nat.succ_le_succ height, rfl⟩
    · have none : G.productionsOf v = [] := Classical.not_not.1 (mt productionsOf_ne_nil_iff.1 hv)
      simp [expand, none] at h

theorem tooDeep_of_expand (hv : v ∈ G.vars) {e : Obstacle}
    (h : (G.expand depth v s).1 = .error e) : e = .tooDeep := by
  induction depth generalizing v s with
  | zero =>
    cases h
    rfl
  | succ depth ih =>
    obtain ⟨p, hp, rfl, s', body⟩ := expand_succ G depth hv s
    rw [body] at h
    obtain ⟨u, s'', hu, failed⟩ := obstacle_of_expandBody h
    exact ih (var_mem_vars hp hu) failed

def sourceAfter (G : Grammar V T) (L : Limits) : (k : Nat) → σ → σ
  | 0, s => s
  | k + 1, s => sourceAfter G L k (G.expand L.depth G.start s).2

/-- What comes of the derivation that is made when `k` others have been. -/
def attempt (G : Grammar V T) (L : Limits) (k : Nat) (s : σ) : Except Obstacle (List T) :=
  (G.expand L.depth G.start (G.sourceAfter L k s)).1

/-- With `left` attempts from number `k + 1` on `j` derivations are discarded, and then there is no
attempt left or the next derivation is kept. -/
structure Tried (G : Grammar V T) (L : Limits) (left k : Nat) (s : σ) (g : Generated T) (j : Nat) :
    Prop where
  discarded : ∀ i < j, L.Discards (G.attempt L i s)
  tooDeep : ∀ n, n ∈ g.tooDeep ↔ ∃ i < j, n = k + i + 1 ∧ G.attempt L i s = .error .tooDeep
  ending : j = left ∧ g.derivations = k + j ∧ g.result = .error (.notTerminating L.attempts) ∨
    j < left ∧ g.derivations = k + j + 1 ∧
      ∃ w u, G.attempt L j s = .ok w ∧ L.keep? w = some u ∧ g.result = .ok u

theorem Tried.retry {L : Limits} {left k j : Nat} {g g' : Generated T} {s' : σ}
    {r : Except Obstacle (List T)} (h : G.expand L.depth G.start s = (r, s'))
    (now : L.Discards r) (later : G.Tried L left (k + 1) s' g j) (result : g'.result = g.result)
    (derivations : g'.derivations = g.derivations)
    (tooDeep : ∀ n, n ∈ g'.tooDeep ↔ n = k + 1 ∧ r = .error .tooDeep ∨ n ∈ g.tooDeep) :
    G.Tried L (left + 1) k s g' (j + 1) := by
  -- `r` is the first of the attempts, and the others are those from `s'` on
  have first : G.attempt L 0 s = r := congrArg Prod.fst h
  have next : ∀ i, G.attempt L (i + 1) s = G.attempt L i s' := fun i => by
    rw [attempt, sourceAfter, h, attempt]
  constructor
  · rw [Nat.forall_lt_succ_left, first]
    exact ⟨now, fun i hi => next i ▸ later.discarded i hi⟩
  · intro n
    simp only [tooDeep, later.tooDeep, Nat.exists_lt_succ_left, first, next, Nat.add_zero,
      Nat.add_right_comm k 1, ← Nat.add_assoc]
  · simpa only [result, derivations, next, Nat.add_left_inj, Nat.add_lt_add_iff_right,
      Nat.add_right_comm k 1, ← Nat.add_assoc] using later.ending

theorem exists_tried (G : Grammar V T) (L : Limits) (left k : Nat) (s : σ) :
    ∃ j, G.Tried L left k s (G.generateFrom L left (k + 1) s).1 j := by
  induction left generalizing k s with
  | zero => exact ⟨0, by simp, by simp [generateFrom], Or.inl ⟨rfl, rfl, rfl⟩⟩
  | succ left ih =>
    rcases h : G.expand L.depth G.start s with ⟨e | w, s'⟩
    · obtain rfl : e = .tooDeep := tooDeep_of_expand G.start_mem_vars (congrArg Prod.fst h)
      obtain ⟨j, later⟩ := ih (k + 1) s'
      refine ⟨j + 1, later.retry h (Or.inl rfl) ?_ ?_ ?_⟩ <;> simp [generateFrom, h]
    · cases kept : L.keep? w with
      | none =>
        obtain ⟨j, later⟩ := ih (k + 1) s'
        refine ⟨j + 1, later.retry h (Or.inr ⟨w, rfl, kept⟩) ?_ ?_ ?_⟩ <;>
          simp [generateFrom, h, kept]
      | some u =>
        have made : G.generateFrom L (left + 1) (k + 1) s = (⟨.ok u, [], k + 1⟩, s') := by
          simp only [generateFrom, h, kept]
        rw [made]
        have first : G.attempt L 0 s = .ok w := congrArg Prod.fst h
        exact ⟨0, by simp, by simp, Or.inr ⟨Nat.succ_pos left, rfl, w, u, first, kept, rfl⟩⟩

theorem generate_cases (G : Grammar V T) (L : Limits) (s : σ) :
    L.isVoid = true ∧ G.generate L s = (⟨.error (.invalidLength L.min L.max), [], 0⟩, s) ∨
    L.isVoid = false ∧ ∃ j, G.Tried L L.attempts 0 s (G.generate L s).1 j := by
  cases void : L.isVoid with
  | true => exact Or.inl ⟨rfl, by simp [generate, void]⟩
  | false =>
    refine Or.inr ⟨rfl, ?_⟩
    simpa [generate, void] using exists_tried G L L.attempts 0 s

/-- Whatever is picked, a result is justified. Bounds are refused where they allow no length, and
then nothing is picked; a sentence is the yield of a derivation tree within the limits, or the first
part of one that is too long; and the attempts run out just where every derivation is discarded. -/
theorem generate_justified (G : Grammar V T) (L : Limits) (s : σ) :
    ((∃ m n, (G.generate L s).1.result = .error (.invalidLength m n)) ↔
      L.max = 0 ∨ L.overflow = .retry ∧ L.max < L.min) ∧
    (∀ m n, (G.generate L s).1.result = .error (.invalidLength m n) →
      m = L.min ∧ n = L.max ∧ (G.generate L s).2 = s) ∧
    (∀ u, (G.generate L s).1.result = .ok u → ∃ t : Tree V T, t.IsValid G ∧
      t.root = .var G.start ∧ (∀ v d, t.Stands v d → d < L.depth) ∧ L.min ≤ t.yield.length ∧
      (u = t.yield ∧ t.yield.length ≤ L.max ∨
        L.overflow = .truncate ∧ L.max < t.yield.length ∧ u = t.yield.take L.max)) ∧
    (∀ e, (G.generate L s).1.result = .error e →
      e = .invalidLength L.min L.max ∨ e = .notTerminating L.attempts) ∧
    (G.generate L s).1.result ≠ .error .noRule ∧
    (∀ n, (G.generate L s).1.result = .error (.notTerminating n) →
      (G.generate L s).1.derivations = L.attempts) ∧
    ((∃ n, (G.generate L s).1.result = .error (.notTerminating n)) ↔
      ¬ (L.max = 0 ∨ L.overflow = .retry ∧ L.max < L.min) ∧
        ∀ k < L.attempts, L.Discards (G.attempt L k s)) := by
  rw [← Limits.isVoid_iff]
  rcases generate_cases G L s with ⟨void, hg⟩ | ⟨allowed, j, tried⟩
  · simp [hg, void, eq_comm]
  · rcases tried.ending with ⟨rfl, count, hr⟩ | ⟨last, _, w, u, made, kept, hr⟩
    · rw [Nat.zero_add] at count
      simpa [hr, allowed, count] using tried.discarded
    · have stays : ¬ ∀ k < L.attempts, L.Discards (G.attempt L k s) := fun discarded =>
        Limits.not_discards kept (made ▸ discarded _ last)
      obtain ⟨t, valid, root, height, rfl⟩ := hasTree_of_expand made
      obtain ⟨long, cut⟩ := Limits.keep?_eq_some_iff.1 kept
      simp only [hr, allowed]
      refine ⟨by simp, by simp, ?_, by simp, by simp, by simp, by simp [stays]⟩
      rintro u' hu
      cases hu
      exact ⟨t, valid, root, Tree.height_le_iff.1 height, long, cut⟩

/-- The sentence is cut from the derivation of `acdd`. -/
theorem sample_truncated : ∃ t : Tree Char Char, t.IsValid sampleGrammar ∧
    t.root = .var 'S' ∧ (∀ v d, t.Stands v d → d < 3) ∧ 3 ≤ t.yield.length ∧
    t.yield.take 2 = ['a', 'c'] := by
  have kept : (sampleGrammar.generate { min := 3, max := 2, depth := 3 }
      (Source.ofSeed 0 [0, 0, 0x8000000000000000, 0, 0x8000000000000000])).1.result =
        .ok ['a', 'c'] := by rfl
  obtain ⟨t, valid, root, depth, long, ⟨whole, short⟩ | ⟨_, _, cut⟩⟩ :=
    (generate_justified sampleGrammar _ _).2.2.1 _ kept
  · exact absurd (Nat.le_trans long short) (by decide)
  · exact ⟨t, valid, root, depth, long, cut.symm⟩

end Expansion

end Grammar

end TopDown
