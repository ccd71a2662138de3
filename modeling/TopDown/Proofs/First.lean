import TopDown.Analysis.First
import TopDown.Grammar.Sample
import TopDown.Proofs.Derivation
import TopDown.Proofs.Growth

/-! FIRST sets against derivations. A saturated family is closed under all productions, so a
derivation step never adds to what can come first; with soundness, which every addition keeps, the
sets are exact. -/
namespace TopDown.Firsts

variable {V T : Type} [DecidableEq V] [DecidableEq T]

section Leading

variable {sets : Family V (First T)} {x y : List (Sym V T)} {f : First T}

@[simp] theorem mem_leading_nil : f ∈ leading sets [] ↔ f = .eps := by
  simp [leading]

@[simp] theorem mem_leading_term {t : T} : f ∈ leading sets (.term t :: x) ↔ f = .term t := by
  simp [leading]

@[simp] theorem mem_leading_eps : f ∈ leading sets (.eps :: x) ↔ f = .eps := by
  simp [leading]

theorem mem_leading_var {v : V} : f ∈ leading sets (.var v :: x) ↔
    f ≠ .eps ∧ f ∈ Family.members sets v ∨
      .eps ∈ Family.members sets v ∧ f ∈ leading sets x := by
  rw [leading, Family.members]
  cases sets.get? v with
  | none => simp
  | some s =>
    by_cases h : .eps ∈ s
    · simp [h, and_comm]
    · simp only [h, if_false, Option.getD_some, false_and, or_false]
      constructor
      · intro hf
        exact ⟨fun he => h (he ▸ hf), hf⟩
      · exact fun hf => hf.2

theorem mem_leading_append (hx : Sym.eps ∉ x) : f ∈ leading sets (x ++ y) ↔
    f ≠ .eps ∧ f ∈ leading sets x ∨ .eps ∈ leading sets x ∧ f ∈ leading sets y := by
  induction x with
  | nil => simp
  | cons s x ih =>
    have hs : s ≠ .eps := fun hs => hx (hs ▸ List.mem_cons_self)
    have rest := ih (List.not_mem_of_not_mem_cons hx)
    cases s with
    | term t => simp +contextual
    | var v =>
      simp only [List.cons_append, mem_leading_var, rest]
      grind
    | eps => exact absurd rfl hs

theorem mem_leading_cut : f ∈ leading sets (cut x) ↔ f ∈ leading sets x := by
  induction x with
  | nil => simp
  | cons s x ih =>
    cases s with
    | term t => simp
    | var v => simp only [cut_var, mem_leading_var, ih]
    | eps => simp

/-- Whether `f` begins a sequence depends on the variables that `f` begins and on those that can
vanish. -/
theorem leading_mono {sets' : Family V (First T)}
    (vanish : ∀ v, .eps ∈ Family.members sets v → .eps ∈ Family.members sets' v)
    (begins : ∀ v, f ∈ Family.members sets v → f ∈ Family.members sets' v)
    (h : f ∈ leading sets x) : f ∈ leading sets' x := by
  induction x with
  | nil => exact h
  | cons s x ih =>
    cases s with
    | term t => exact h
    | eps => exact h
    | var v =>
      rcases mem_leading_var.1 h with ⟨hne, hv⟩ | ⟨hv, hrest⟩
      · exact mem_leading_var.2 (Or.inl ⟨hne, begins v hv⟩)
      · exact mem_leading_var.2 (Or.inr ⟨vanish v hv, ih hrest⟩)

theorem leading_origin (h : f ∈ leading sets x) :
    f = .eps ∨ (∃ t, .term t ∈ x ∧ f = .term t) ∨ ∃ v, f ∈ Family.members sets v := by
  induction x with
  | nil => exact Or.inl (mem_leading_nil.1 h)
  | cons s x ih =>
    cases s with
    | term t => exact Or.inr (Or.inl ⟨t, List.mem_cons_self, mem_leading_term.1 h⟩)
    | eps => exact Or.inl (mem_leading_eps.1 h)
    | var v =>
      rcases mem_leading_var.1 h with ⟨_, hf⟩ | ⟨_, hf⟩
      · exact Or.inr (Or.inr ⟨v, hf⟩)
      · rcases ih hf with he | ⟨t, ht, he⟩ | hv
        · exact Or.inl he
        · exact Or.inr (Or.inl ⟨t, List.mem_cons_of_mem _ ht, he⟩)
        · exact Or.inr (Or.inr hv)

end Leading

section Closure

variable {G : Grammar V T} {sets : Family V (First T)} {x y : List (Sym V T)} {f : First T}

def Closed (G : Grammar V T) (sets : Family V (First T)) : Prop :=
  ∀ p ∈ G.productions, ∀ f ∈ leading sets p.body, f ∈ Family.members sets p.head

theorem leading_of_rewrites (closed : Closed G sets) (hx : Sym.eps ∉ x)
    (h : G.Rewrites cut x y) (hf : f ∈ leading sets y) : f ∈ leading sets x := by
  obtain ⟨p, hp, α, β, rfl, rfl⟩ := h
  have hα : Sym.eps ∉ α := fun hα => hx (List.mem_append_left _ hα)
  have inner : f ∈ leading sets (cut p.body ++ β) → f ∈ leading sets (.var p.head :: β) := by
    rw [mem_leading_append (eps_not_mem_cut p.body), mem_leading_cut, mem_leading_cut,
      mem_leading_var]
    rintro (⟨hne, hbody⟩ | ⟨hvanish, hβ⟩)
    · exact Or.inl ⟨hne, closed p hp f hbody⟩
    · exact Or.inr ⟨closed p hp .eps hvanish, hβ⟩
  rw [List.append_assoc, mem_leading_append hα] at hf
  rw [mem_leading_append hα]
  rcases hf with hα | ⟨hvanish, hrest⟩
  · exact Or.inl hα
  · exact Or.inr ⟨hvanish, inner hrest⟩

theorem leading_of_derives (closed : Closed G sets) (hx : Sym.eps ∉ x)
    (h : G.Derives cut x y) (hf : f ∈ leading sets y) : f ∈ leading sets x := by
  induction h with
  | refl => exact hf
  | tail before last ih =>
    have hy := Grammar.Derives.eps_not_mem eps_not_mem_cut before hx
    exact ih (leading_of_rewrites closed hy last hf)

theorem leading_complete (closed : Closed G sets) (hx : Sym.eps ∉ x)
    (h : G.Begins cut x f) : f ∈ leading sets x := by
  cases f with
  | term t =>
    obtain ⟨β, hβ⟩ := h
    exact leading_of_derives closed hx hβ (mem_leading_term.2 rfl)
  | eps => exact leading_of_derives closed hx h (mem_leading_nil.2 rfl)

theorem leading_sound (sound : ∀ v f, f ∈ Family.members sets v → G.Begins cut [.var v] f)
    (hf : f ∈ leading sets x) : G.Begins cut (cut x) f := by
  induction x with
  | nil =>
    rw [mem_leading_nil.1 hf]
    exact Relation.ReflTransGen.refl
  | cons s x ih =>
    cases s with
    | term t =>
      rw [mem_leading_term.1 hf]
      exact ⟨cut x, Relation.ReflTransGen.refl⟩
    | eps =>
      rw [mem_leading_eps.1 hf]
      exact Relation.ReflTransGen.refl
    | var v =>
      rcases mem_leading_var.1 hf with ⟨hne, hv⟩ | ⟨hvanish, hrest⟩
      · cases f with
        | term t => exact (sound v (.term t) hv).term_append (cut x)
        | eps => exact absurd rfl hne
      · have gone : G.Derives cut [.var v] [] := sound v .eps hvanish
        exact (ih hrest).of_derives (gone.vanish_append (cut x))

end Closure

section Computation

def alphabet (G : Grammar V T) : List (First T) := .eps :: G.terminals.map .term

def Justified (G : Grammar V T) (v : V) (f : First T) : Prop :=
  f ∈ alphabet G ∧ G.Begins cut [.var v] f

variable {G : Grammar V T}

theorem justified_of_leading {sets : Family V (First T)}
    (h : Family.Within G.vars (Justified G) sets) {p : Production V T} (hp : p ∈ G.productions)
    {f : First T} (hf : f ∈ leading sets p.body) : Justified G p.head f := by
  constructor
  · rcases leading_origin hf with rfl | ⟨t, ht, rfl⟩ | ⟨v, hv⟩
    · exact List.mem_cons_self
    · exact List.mem_cons_of_mem _ (List.mem_map_of_mem (Grammar.mem_terminals.2 ⟨p, hp, ht⟩))
    · exact (h.sound v f hv).1
  · have body := leading_sound (fun v f hv => (h.sound v f hv).2) hf
    exact body.of_derives (Grammar.derives_body hp)

/-- A production as a rule: to the set of its head it adds what can begin its body. -/
def rules (G : Grammar V T) : List (Rule V (First T)) :=
  G.productions.map fun p => ⟨p.head, fun sets => leading sets p.body⟩

theorem sweep_eq_pass (G : Grammar V T) : sweep G = Rule.pass (rules G) := by
  funext sets
  unfold sweep rules Rule.pass
  rw [List.foldl_map]
  rfl

theorem forall_rules {C : Rule V (First T) → Prop} : (∀ r ∈ rules G, C r) ↔
    ∀ p ∈ G.productions, C ⟨p.head, fun sets => leading sets p.body⟩ :=
  List.forall_mem_map

theorem key_mem_vars : ∀ r ∈ rules G, r.key ∈ G.vars :=
  forall_rules.2 fun _ hp => Grammar.head_mem_vars hp

theorem rules_sound : ∀ r ∈ rules G, ∀ sets, Family.Within G.vars (Justified G) sets →
    ∀ f ∈ r.adds sets, Justified G r.key f :=
  forall_rules.2 fun _ hp _ within _ hf => justified_of_leading within hp hf

theorem sweep_inflates (G : Grammar V T) :
    Inflates Family.size (Family.Within G.vars (Justified G)) (sweep G) :=
  sweep_eq_pass G ▸ Rule.pass_inflates key_mem_vars rules_sound

theorem size_le_sizeBound {F : Family V (First T)} (h : Family.Within G.vars (Justified G) F) :
    Family.size F ≤ sizeBound G := by
  have : Family.size F ≤ G.vars.length * (alphabet G).length :=
    Family.size_le_of_within (fun _ _ h => h.1) h
  simpa [alphabet, sizeBound] using this

theorem ofGrammar_saturated (G : Grammar V T) :
    Family.Within G.vars (Justified G) (ofGrammar G).sets ∧
      sweep G (ofGrammar G).sets = (ofGrammar G).sets := by
  apply saturate_fixed (sweep_inflates G) fun _ => size_le_sizeBound
  · exact Family.within_ofKeys G.nodup_vars _
  · exact Nat.le_add_left ..

theorem ofGrammar_keys (G : Grammar V T) : (ofGrammar G).sets.keys = G.vars :=
  (ofGrammar_saturated G).1.keys

theorem ofGrammar_closed (G : Grammar V T) : Closed G (ofGrammar G).sets := by
  obtain ⟨within, still⟩ := ofGrammar_saturated G
  rw [sweep_eq_pass] at still
  exact forall_rules.1 (Rule.added_of_pass_eq key_mem_vars rules_sound within still)

theorem mem_ofSymbols_iff {u : List (Sym V T)} {f : First T} :
    f ∈ (ofGrammar G).ofSymbols u ↔ G.Begins cut (cut u) f := by
  constructor
  · intro hf
    exact leading_sound (fun v f hv => ((ofGrammar_saturated G).1.sound v f hv).2) hf
  · intro h
    exact mem_leading_cut.1 (leading_complete (ofGrammar_closed G) (eps_not_mem_cut u) h)

theorem begins_of_mem_ofSymbols (last : G.EpsilonLast) {u : List (Sym V T)} (ends : EndsInEps u)
    {f : First T} (hf : f ∈ (ofGrammar G).ofSymbols u) : G.Begins erase (erase u) f := by
  rw [← last.begins_cut_iff, ← ends.cut_eq]
  exact mem_ofSymbols_iff.1 hf

theorem mem_members_iff {v : V} {f : First T} :
    f ∈ Family.members (ofGrammar G).sets v ↔ G.Begins cut [.var v] f := by
  have single : f ∈ (ofGrammar G).ofSymbols [.var v] ↔
      f ∈ Family.members (ofGrammar G).sets v := by
    simp only [ofSymbols, mem_leading_var, mem_leading_nil]
    grind
  rw [← single, mem_ofSymbols_iff]
  simp

end Computation

/-- FIRST sets are exact, for the variables of the grammar and for every sequence of symbols. -/
theorem ofGrammar_exact (G : Grammar V T) :
    (ofGrammar G).sets.keys = G.vars ∧
    (∀ u : List (Sym V T),
      (∀ t, .term t ∈ (ofGrammar G).ofSymbols u ↔
        ∃ β, G.Derives cut (cut u) (.term t :: β)) ∧
      (.eps ∈ (ofGrammar G).ofSymbols u ↔ G.Derives cut (cut u) [])) ∧
    ∀ v ∈ G.vars, ∃ s, (ofGrammar G).get? v = some s ∧
      (∀ t, .term t ∈ s ↔ ∃ β, G.Derives cut [.var v] (.term t :: β)) ∧
      (.eps ∈ s ↔ G.Derives cut [.var v] []) ∧
      ((ofGrammar G).nullable v = true ↔ G.Derives cut [.var v] []) := by
  refine ⟨ofGrammar_keys G, ?_, ?_⟩
  · intro u
    exact ⟨fun t => mem_ofSymbols_iff, mem_ofSymbols_iff⟩
  · intro v hv
    have found := Family.get?_of_mem_keys ((ofGrammar_keys G).symm ▸ hv)
    refine ⟨_, found, fun t => mem_members_iff, mem_members_iff, ?_⟩
    rw [nullable, decide_eq_true_eq]
    exact mem_members_iff

theorem sample_first : 'B' ∈ sampleGrammar.vars ∧ sampleGrammar.Derives cut [.var 'B'] [] ∧
    ∃ β, sampleGrammar.Derives cut [.var 'D'] (.term 'a' :: β) := by
  have exact := ofGrammar_exact sampleGrammar
  have hB : 'B' ∈ sampleGrammar.vars := by decide
  obtain ⟨s, _, _, _, vanish⟩ := exact.2.2 'B' hB
  exact ⟨hB, vanish.1 (by decide), ((exact.2.1 [.var 'D']).1 'a').1 (by decide)⟩

end TopDown.Firsts
