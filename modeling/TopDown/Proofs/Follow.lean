import TopDown.Analysis.Follow
import TopDown.Grammar.Sample
import TopDown.Proofs.First

/-! FOLLOW sets against derivations. The computed sets are the least relation that covers every
body, from whatever FIRST sets they are computed. With exact FIRST sets a covered form stays covered
under derivation steps, so there is no looking for the step that put something behind a variable. -/
namespace TopDown

variable {V T : Type} [DecidableEq V] [DecidableEq T]

/-- What can be ahead where `x` is expected: what begins `x`, and `next` where `x` can vanish. -/
def Firsts.Ahead (first : Firsts V T) (next : Lookahead T → Prop) (x : List (Sym V T))
    (a : Lookahead T) : Prop :=
  (∃ t, a = .term t ∧ .term t ∈ first.ofSymbols x) ∨ .eps ∈ first.ofSymbols x ∧ next a

/-- Behind each variable of `x`, and before `next`, only what `Q` holds for it can be ahead. -/
def Firsts.Covers (first : Firsts V T) (Q : V → Lookahead T → Prop) (next : Lookahead T → Prop) :
    List (Sym V T) → Prop
  | [] => True
  | .var v :: rest => (∀ a, first.Ahead next rest a → Q v a) ∧ first.Covers Q next rest
  | _ :: rest => first.Covers Q next rest

namespace Firsts

variable {first : Firsts V T} {next other : Lookahead T → Prop} {x y : List (Sym V T)}
  {a : Lookahead T} {Q R : V → Lookahead T → Prop}

theorem Ahead.imp {first' : Firsts V T} (h : first.Ahead next x a)
    (leads : ∀ f, f ∈ first.ofSymbols x → f ∈ first'.ofSymbols y)
    (later : ∀ a, next a → other a) : first'.Ahead other y a := by
  rcases h with ⟨t, ha, ht⟩ | ⟨hvanish, hnext⟩
  · exact Or.inl ⟨t, ha, leads _ ht⟩
  · exact Or.inr ⟨leads _ hvanish, later a hnext⟩

theorem Ahead.mono (h : first.Ahead next x a) (later : ∀ a, next a → other a) :
    first.Ahead other x a := h.imp (fun _ hf => hf) later

@[simp] theorem ahead_nil : first.Ahead next [] a ↔ next a := by
  simp [Ahead, ofSymbols]

@[simp] theorem ahead_term {t : T} : first.Ahead next (.term t :: x) a ↔ a = .term t := by
  simp [Ahead, ofSymbols]

theorem ahead_append (hx : Sym.eps ∉ x) :
    first.Ahead next (x ++ y) a ↔ first.Ahead (first.Ahead next y) x a := by
  simp only [Ahead, ofSymbols, mem_leading_append hx]
  grind

theorem ahead_cut : first.Ahead next (cut x) a ↔ first.Ahead next x a := by
  simp only [Ahead, ofSymbols, mem_leading_cut]

theorem ahead_of_rewrites {G : Grammar V T} (closed : Closed G first.sets) (hx : Sym.eps ∉ x)
    (h : G.Rewrites cut x y) (hy : first.Ahead next y a) : first.Ahead next x a :=
  hy.imp (fun _ => leading_of_rewrites closed hx h) fun _ ha => ha

omit [DecidableEq V] [DecidableEq T] in
theorem forall_split_cons {s : Sym V T} {C : V → List (Sym V T) → Prop} :
    (∀ α v β, s :: x = α ++ .var v :: β → C v β) ↔
      (∀ v, s = .var v → C v x) ∧ ∀ α v β, x = α ++ .var v :: β → C v β := by
  constructor
  · intro h
    exact ⟨fun v hv => h [] v x (by rw [hv, List.nil_append]),
      fun α v β hx => h (s :: α) v β (by rw [hx, List.cons_append])⟩
  · rintro ⟨head, rest⟩ α v β hx
    cases α with
    | nil =>
      obtain ⟨hs, rfl⟩ := List.cons.inj hx
      exact head v hs
    | cons _ α => exact rest α v β (List.cons.inj hx).2

theorem covers_iff : first.Covers Q next x ↔
    ∀ α v β, x = α ++ .var v :: β → ∀ a, first.Ahead next β a → Q v a := by
  induction x with
  | nil => simp [Covers]
  | cons s x ih =>
    rw [forall_split_cons (C := fun v β => ∀ a, first.Ahead next β a → Q v a), ← ih]
    cases s with
    | term t => simp [Covers]
    | var v => simp [Covers]
    | eps => simp [Covers]

theorem covers_single {v : V} : first.Covers Q next [.var v] ↔ ∀ a, next a → Q v a := by
  simp [Covers]

theorem Covers.antitone (h : first.Covers Q next x) (hsub : ∀ a, other a → next a) :
    first.Covers Q other x := by
  rw [covers_iff] at h ⊢
  intro α v β hx a ha
  exact h α v β hx a (ha.mono hsub)

theorem covers_append (hx : Sym.eps ∉ x) : first.Covers Q next (x ++ y) ↔
    first.Covers Q (first.Ahead next y) x ∧ first.Covers Q next y := by
  induction x with
  | nil => simp [Covers]
  | cons s x ih =>
    have hx' := List.not_mem_of_not_mem_cons hx
    cases s with
    | term t => exact ih hx'
    | var v =>
      simp only [List.cons_append, Covers, ih hx', ahead_append hx', and_assoc]
    | eps => exact absurd List.mem_cons_self hx

theorem covers_erase (ends : EndsInEps x) (h : first.Covers Q next x) :
    first.Covers Q next (erase x) := by
  induction x with
  | nil => exact h
  | cons s x ih =>
    cases s with
    | term t => exact ih ends.tail h
    | eps => exact ih ends.tail h
    | var v =>
      rw [erase_var]
      refine ⟨?_, ih ends.tail h.2⟩
      intro a ha
      rw [← ends.tail.cut_eq, ahead_cut] at ha
      exact h.1 a ha

end Firsts

namespace Follows

open Firsts (Ahead Covers)

variable {G : Grammar V T} {first : Firsts V T} {Q R : V → Lookahead T → Prop}
  {sets : Family V (Lookahead T)}

/-- The constraints on what follows: the end of the input behind the start variable, and behind
every variable of a body what can be ahead there, where the head is followed by what follows it. -/
structure Solves (G : Grammar V T) (first : Firsts V T) (Q : V → Lookahead T → Prop) : Prop where
  eof : Q G.start .eof
  bodies : ∀ p ∈ G.productions, first.Covers Q (Q p.head) p.body

def Says (sets : Family V (Lookahead T)) (v : V) (a : Lookahead T) : Prop :=
  a ∈ Family.members sets v

theorem mem_after {head : V} {rest : List (Sym V T)} {a : Lookahead T} :
    a ∈ after first sets head rest ↔ first.Ahead (Says sets head) rest a := by
  unfold after Ahead
  by_cases h : .eps ∈ first.ofSymbols rest
  · simp only [h, if_true, ListSet.mem_union, ListSet.mem_ofList, List.mem_filterMap,
      First.lookahead?_eq_some_iff, true_and]
    grind [ListSet.mem_def, Says]
  · simp only [h, if_false, ListSet.mem_ofList, List.mem_filterMap,
      First.lookahead?_eq_some_iff, false_and, or_false]
    grind [ListSet.mem_def]

theorem Solves.and (hQ : Solves G first Q) (hR : Solves G first R) :
    Solves G first fun v a => Q v a ∧ R v a := by
  refine ⟨⟨hQ.eof, hR.eof⟩, ?_⟩
  intro p hp
  have left := hQ.bodies p hp
  have right := hR.bodies p hp
  rw [Firsts.covers_iff] at left right ⊢
  intro α v β hbody a ha
  exact ⟨left α v β hbody a (ha.mono fun _ h => h.1), right α v β hbody a (ha.mono fun _ h => h.2)⟩

def alphabet (G : Grammar V T) (first : Firsts V T) : List (Lookahead T) :=
  .eof :: (G.terminals.map .term ++
    first.sets.entries.flatMap fun e => e.2.toList.filterMap First.lookahead?)

omit [DecidableEq V] in
theorem length_alphabet_le (G : Grammar V T) (first : Firsts V T) :
    (alphabet G first).length ≤ Family.size first.sets + G.terminals.length + 1 := by
  have listed : ∀ es : List (V × ListSet (First T)),
      (es.flatMap fun e => e.2.toList.filterMap First.lookahead?).length ≤
        es.foldr (fun e n => e.2.size + n) 0 := by
    intro es
    induction es with
    | nil => simp
    | cons e es ih =>
      have : (e.2.toList.filterMap First.lookahead?).length ≤ e.2.size :=
        List.length_filterMap_le ..
      rw [List.flatMap_cons, List.length_append, List.foldr_cons]
      omega
  have := listed first.sets.entries
  simp only [alphabet, List.length_cons, List.length_append, List.length_map]
  unfold Family.size
  omega

theorem solves_alphabet (G : Grammar V T) (first : Firsts V T) :
    Solves G first fun _ a => a ∈ alphabet G first := by
  refine ⟨List.mem_cons_self, ?_⟩
  intro p hp
  rw [Firsts.covers_iff]
  rintro α v β hbody a (⟨t, rfl, ht⟩ | ⟨_, ha⟩)
  · apply List.mem_cons_of_mem
    rw [List.mem_append]
    rcases Firsts.leading_origin ht with he | ⟨u, hu, he⟩ | ⟨w, hw⟩
    · cases he
    · cases he
      have hbody' : Sym.term t ∈ p.body := by simp [hbody, hu]
      exact Or.inl (List.mem_map_of_mem (Grammar.mem_terminals.2 ⟨p, hp, hbody'⟩))
    · obtain ⟨s, hs, hts⟩ := Family.exists_entry_of_mem_members hw
      exact Or.inr (List.mem_flatMap.2 ⟨_, hs, List.mem_filterMap.2 ⟨_, hts, rfl⟩⟩)
  · exact ha

/-- The visit of a body as rules: to the set of each of its variables is added what can be ahead
behind it. -/
def bodyRules (first : Firsts V T) (head : V) : List (Sym V T) → List (Rule V (Lookahead T))
  | [] => []
  | .var v :: rest => ⟨v, fun sets => after first sets head rest⟩ :: bodyRules first head rest
  | _ :: rest => bodyRules first head rest

def rules (G : Grammar V T) (first : Firsts V T) : List (Rule V (Lookahead T)) :=
  G.productions.flatMap fun p => bodyRules first p.head p.body

theorem visitBody_eq_pass (first : Firsts V T) (head : V) (sets : Family V (Lookahead T))
    (body : List (Sym V T)) :
    visitBody first head sets body = Rule.pass (bodyRules first head body) sets := by
  induction body generalizing sets with
  | nil => rfl
  | cons s body ih =>
    cases s with
    | term t => exact ih sets
    | eps => exact ih sets
    | var v => exact ih (Family.add sets v (after first sets head body))

theorem sweep_eq_pass (G : Grammar V T) (first : Firsts V T) :
    sweep G first = Rule.pass (rules G first) := by
  funext sets
  unfold sweep rules Rule.pass
  rw [List.foldl_flatMap]
  congr 1
  funext sets p
  exact visitBody_eq_pass first p.head sets p.body

theorem forall_bodyRules {head : V} {body : List (Sym V T)} {C : Rule V (Lookahead T) → Prop} :
    (∀ r ∈ bodyRules first head body, C r) ↔
      ∀ α v β, body = α ++ .var v :: β → C ⟨v, fun sets => after first sets head β⟩ := by
  induction body with
  | nil => simp [bodyRules]
  | cons s body ih =>
    rw [Firsts.forall_split_cons (C := fun v β => C ⟨v, fun sets => after first sets head β⟩), ← ih]
    cases s with
    | term t => simp [bodyRules]
    | var v => simp [bodyRules]
    | eps => simp [bodyRules]

theorem forall_rules {C : Rule V (Lookahead T) → Prop} :
    (∀ r ∈ rules G first, C r) ↔ ∀ p ∈ G.productions, ∀ α v β, p.body = α ++ .var v :: β →
      C ⟨v, fun sets => after first sets p.head β⟩ := by
  simp only [rules, List.forall_mem_flatMap, forall_bodyRules]

theorem key_mem_vars : ∀ r ∈ rules G first, r.key ∈ G.vars := by
  rw [forall_rules]
  intro p hp α v β hbody
  exact Grammar.var_mem_vars hp (by simp [hbody])

theorem rules_sound (h : Solves G first Q) : ∀ r ∈ rules G first, ∀ sets,
    Family.Within G.vars Q sets → ∀ a ∈ r.adds sets, Q r.key a := by
  rw [forall_rules]
  intro p hp α v β hbody sets within a ha
  have behind := (mem_after.1 ha).mono (within.sound p.head)
  exact Firsts.covers_iff.1 (h.bodies p hp) α v β hbody a behind

theorem sweep_inflates (h : Solves G first Q) :
    Inflates Family.size (Family.Within G.vars Q) (sweep G first) :=
  sweep_eq_pass G first ▸ Rule.pass_inflates key_mem_vars (rules_sound h)

theorem within_initial (h : Solves G first Q) : Family.Within G.vars Q (initial G) := by
  apply Family.within_add (Family.within_ofKeys G.nodup_vars Q) G.start_mem_vars
  intro a ha
  rw [ListSet.mem_singleton.1 ha]
  exact h.eof

theorem size_le_sizeBound (h : Family.Within G.vars (fun _ a => a ∈ alphabet G first) sets) :
    Family.size sets ≤ sizeBound G first := by
  have := Family.size_le_of_within (fun _ _ h => h) h
  have := Nat.mul_le_mul_left G.vars.length (length_alphabet_le G first)
  unfold sizeBound
  omega

/-- The computed sets lie within every solution and are left alone by a further pass. -/
theorem ofFirsts_saturated (h : Solves G first Q) :
    Family.Within G.vars Q (ofFirsts G first).sets ∧
      sweep G first (ofFirsts G first).sets = (ofFirsts G first).sets := by
  have solution := (solves_alphabet G first).and h
  have bounded : ∀ F, Family.Within G.vars (fun v a => a ∈ alphabet G first ∧ Q v a) F →
      Family.size F ≤ sizeBound G first :=
    fun F hF => size_le_sizeBound ⟨hF.keys, fun v a ha => (hF.sound v a ha).1⟩
  obtain ⟨within, still⟩ := saturate_fixed (sweep_inflates solution) bounded (sizeBound G first)
    (within_initial solution) (Nat.le_add_left ..)
  exact ⟨⟨within.keys, fun v a ha => (within.sound v a ha).2⟩, still⟩

theorem ofFirsts_keys (G : Grammar V T) (first : Firsts V T) :
    (ofFirsts G first).sets.keys = G.vars :=
  (ofFirsts_saturated (solves_alphabet G first)).1.keys

theorem ofFirsts_solves (G : Grammar V T) (first : Firsts V T) :
    Solves G first (Says (ofFirsts G first).sets) := by
  have alphabet := solves_alphabet G first
  obtain ⟨within, still⟩ := ofFirsts_saturated alphabet
  rw [sweep_eq_pass] at still
  have added := forall_rules.1
    (Rule.added_of_pass_eq key_mem_vars (rules_sound alphabet) within still)
  constructor
  · apply saturate_induction (p := fun sets => Says sets G.start .eof)
    · intro sets h
      rw [sweep_eq_pass]
      exact Rule.members_pass (rules G first) h
    · exact Family.mem_members_add.2 (Or.inr ⟨rfl, ListSet.mem_singleton.2 rfl⟩)
  · intro p hp
    rw [Firsts.covers_iff]
    intro α v β hbody a ha
    exact added p hp α v β hbody a (mem_after.2 ha)

theorem ofFirsts_least (h : Solves G first Q) {v : V} {a : Lookahead T}
    (ha : Says (ofFirsts G first).sets v a) : Q v a :=
  (ofFirsts_saturated h).1.sound v a ha

/-- The constraints position by position: what begins the rest of a body behind a variable follows
the variable, and where that rest can vanish so does all that follows the head. -/
structure Satisfies (G : Grammar V T) (first : Firsts V T) (F : V → Lookahead T → Prop) : Prop where
  eof : F G.start .eof
  terms : ∀ p ∈ G.productions, ∀ i v, p.body[i]? = some (.var v) →
    ∀ t, .term t ∈ first.ofSymbols (p.body.drop (i + 1)) → F v (.term t)
  heads : ∀ p ∈ G.productions, ∀ i v, p.body[i]? = some (.var v) →
    .eps ∈ first.ofSymbols (p.body.drop (i + 1)) → ∀ a, F p.head a → F v a

theorem covers_iff_positions {next : Lookahead T → Prop} {x : List (Sym V T)} :
    first.Covers Q next x ↔
      ∀ i v, x[i]? = some (.var v) → ∀ a, first.Ahead next (x.drop (i + 1)) a → Q v a := by
  rw [Firsts.covers_iff]
  constructor
  · intro h i v hi
    obtain ⟨lt, hv⟩ := List.getElem?_eq_some_iff.1 hi
    apply h (x.take i) v
    rw [← hv, ← List.drop_eq_getElem_cons lt, List.take_append_drop]
  · rintro h α v β rfl a ha
    exact h α.length v (by simp) a (by simpa using ha)

theorem solves_iff_satisfies : Solves G first Q ↔ Satisfies G first Q := by
  constructor
  · intro h
    have behind : ∀ p ∈ G.productions, ∀ i v, p.body[i]? = some (.var v) →
        ∀ a, first.Ahead (Q p.head) (p.body.drop (i + 1)) a → Q v a :=
      fun p hp => covers_iff_positions.1 (h.bodies p hp)
    exact ⟨h.eof, fun p hp i v hi t ht => behind p hp i v hi _ (Or.inl ⟨t, rfl, ht⟩),
      fun p hp i v hi vanish a ha => behind p hp i v hi a (Or.inr ⟨vanish, ha⟩)⟩
  · intro h
    refine ⟨h.eof, fun p hp => covers_iff_positions.2 ?_⟩
    rintro i v hi a (⟨t, rfl, ht⟩ | ⟨vanish, ha⟩)
    · exact h.terms p hp i v hi t ht
    · exact h.heads p hp i v hi vanish a ha

/-- From whatever FIRST sets they are computed, FOLLOW sets are the least solution of the
constraints. -/
theorem ofFirsts_least_solution (G : Grammar V T) (first : Firsts V T) :
    (ofFirsts G first).sets.keys = G.vars ∧
    Satisfies G first (fun v a => ∃ s, (ofFirsts G first).get? v = some s ∧ a ∈ s) ∧
    ∀ F, Satisfies G first F → ∀ v s, (ofFirsts G first).get? v = some s → ∀ a ∈ s, F v a := by
  have known : Says (ofFirsts G first).sets =
      fun v a => ∃ s, (ofFirsts G first).get? v = some s ∧ a ∈ s := by
    funext v a
    exact propext Family.mem_members_iff
  refine ⟨ofFirsts_keys G first, ?_, ?_⟩
  · rw [← known]
    exact solves_iff_satisfies.1 (ofFirsts_solves G first)
  · intro F hF v s found a ha
    exact ofFirsts_least (solves_iff_satisfies.2 hF) (Family.mem_members_iff.2 ⟨s, found, ha⟩)

section Exactness

/-- What follows `v` in derivations: a terminal right behind it in some derived form, the end of the
input if it can come last in a form that the start variable derives. -/
def InForms (G : Grammar V T) (v : V) : Lookahead T → Prop
  | .term t => ∃ A ∈ G.vars, ∃ α β, G.Derives erase [.var A] (α ++ .var v :: .term t :: β)
  | .eof => ∃ α, G.Derives erase [.var G.start] (α ++ [.var v])

omit [DecidableEq T] in
theorem InForms.of_derives {A v : V} {α : List (Sym V T)} {a : Lookahead T}
    (h : G.Derives erase [.var A] (α ++ [.var v])) (hA : InForms G A a) : InForms G v a := by
  cases a with
  | term t =>
    obtain ⟨B, hB, γ, δ, hd⟩ := hA
    have tail := h.context γ (.term t :: δ)
    exact ⟨B, hB, γ ++ α, δ, hd.trans (by simpa using tail)⟩
  | eof =>
    obtain ⟨γ, hd⟩ := hA
    have tail := h.append_left γ
    exact ⟨γ ++ α, hd.trans (by simpa using tail)⟩

theorem inForms_solves (last : G.EpsilonLast) :
    Solves G (Firsts.ofGrammar G) (InForms G) := by
  refine ⟨⟨[], .refl⟩, ?_⟩
  intro p hp
  rw [Firsts.covers_iff]
  intro α v β hbody a ha
  have ends : EndsInEps (.var v :: β) := (hbody ▸ last.ends hp : EndsInEps (α ++ _)).behind
  have ends := ends.tail
  have split : G.Derives erase [.var p.head] (erase α ++ .var v :: erase β) := by
    have body : G.Derives erase [.var p.head] (erase p.body) := Grammar.derives_body hp
    rwa [hbody, erase_append, erase_var] at body
  rcases ha with ⟨t, rfl, ht⟩ | ⟨hvanish, ha⟩
  · obtain ⟨γ, hγ⟩ := Firsts.begins_of_mem_ofSymbols last ends ht
    refine ⟨p.head, Grammar.head_mem_vars hp, erase α, γ, ?_⟩
    have rest := Grammar.Derives.append_left hγ (erase α ++ [.var v])
    exact split.trans (by simpa using rest)
  · have vanish := Firsts.begins_of_mem_ofSymbols last ends hvanish
    have gone := Grammar.Derives.append_left vanish (erase α ++ [.var v])
    have ending : G.Derives erase [.var p.head] (erase α ++ [.var v]) :=
      split.trans (by simpa using gone)
    exact ha.of_derives ending

theorem covers_of_rewrites (last : G.EpsilonLast) (closed : Firsts.Closed G first.sets)
    (solves : Solves G first Q) {next : Lookahead T → Prop} {x y : List (Sym V T)}
    (hx : Sym.eps ∉ x) (h : G.Rewrites erase x y) (covers : first.Covers Q next x) :
    first.Covers Q next y := by
  obtain ⟨p, hp, α, β, rfl, rfl⟩ := h
  have hα : Sym.eps ∉ α := fun hα => hx (List.mem_append_left _ hα)
  have hβ : Sym.eps ∉ Sym.var p.head :: β := fun hβ => hx (List.mem_append_right _ hβ)
  obtain ⟨front, head, back⟩ := (Firsts.covers_append hα).1 covers
  have ends := last.ends hp
  have body := Firsts.covers_erase ends (solves.bodies p hp)
  have step := last.rewrites_head hp β
  rw [List.append_assoc, Firsts.covers_append hα, Firsts.covers_append (eps_not_mem_erase p.body)]
  refine ⟨?_, ?_, back⟩
  · exact front.antitone fun a ha => Firsts.ahead_of_rewrites closed hβ step ha
  · exact body.antitone head

theorem covers_of_derives (last : G.EpsilonLast) (closed : Firsts.Closed G first.sets)
    (solves : Solves G first Q) {next : Lookahead T → Prop} {x y : List (Sym V T)}
    (hx : Sym.eps ∉ x) (h : G.Derives erase x y) (covers : first.Covers Q next x) :
    first.Covers Q next y := by
  induction h with
  | refl => exact covers
  | tail before step ih =>
    have hy := Grammar.Derives.eps_not_mem eps_not_mem_erase before hx
    exact covers_of_rewrites last closed solves hy step ih

theorem inForms_of_says {Q : V → Lookahead T → Prop} (last : G.EpsilonLast)
    (solves : Solves G (Firsts.ofGrammar G) Q) {v : V} {a : Lookahead T} (h : InForms G v a) :
    Q v a := by
  have closed := Firsts.ofGrammar_closed G
  have behind : ∀ (A : V) (α β : List (Sym V T)),
      G.Derives erase [.var A] (α ++ .var v :: β) →
      ∀ a, (Firsts.ofGrammar G).Ahead (Q A) β a → Q v a := by
    intro A α β hd
    have single : (Firsts.ofGrammar G).Covers Q (Q A) [.var A] :=
      Firsts.covers_single.2 fun _ ha => ha
    have covers := covers_of_derives last closed solves (by simp) hd single
    exact Firsts.covers_iff.1 covers α v β rfl
  cases a with
  | term t =>
    obtain ⟨A, _, α, β, hd⟩ := h
    exact behind A α _ hd _ (Firsts.ahead_term.2 rfl)
  | eof =>
    obtain ⟨α, hd⟩ := h
    exact behind G.start α [] hd _ (Firsts.ahead_nil.2 solves.eof)

end Exactness

/-- FOLLOW sets are exact where bodies end with their epsilons. -/
theorem ofFirsts_exact (G : Grammar V T) (last : G.EpsilonLast) :
    (ofFirsts G (Firsts.ofGrammar G)).sets.keys = G.vars ∧
    ∀ v ∈ G.vars, ∃ s, (ofFirsts G (Firsts.ofGrammar G)).get? v = some s ∧
      (∀ t, .term t ∈ s ↔
        ∃ A ∈ G.vars, ∃ α β, G.Derives erase [.var A] (α ++ .var v :: .term t :: β)) ∧
      (.eof ∈ s ↔ ∃ α, G.Derives erase [.var G.start] (α ++ [.var v])) := by
  have solves := ofFirsts_solves G (Firsts.ofGrammar G)
  have exact : ∀ v a, Says (ofFirsts G (Firsts.ofGrammar G)).sets v a ↔ InForms G v a :=
    fun v a => ⟨ofFirsts_least (inForms_solves last), inForms_of_says last solves⟩
  have keys := ofFirsts_keys G (Firsts.ofGrammar G)
  refine ⟨keys, ?_⟩
  intro v hv
  have found := Family.get?_of_mem_keys (keys.symm ▸ hv)
  exact ⟨_, found, fun t => exact v (.term t), exact v .eof⟩

/-- In the sample grammar `B` can stand before `a`, as it does in no body, and at the end of what
the start variable derives, but never before `b`. -/
theorem sample_follow : sampleGrammar.EpsilonLast ∧
    (∃ A ∈ sampleGrammar.vars, ∃ α β,
      sampleGrammar.Derives erase [.var A] (α ++ .var 'B' :: .term 'a' :: β)) ∧
    (∃ α, sampleGrammar.Derives erase [.var 'S'] (α ++ [.var 'B'])) ∧
    ¬ ∃ A ∈ sampleGrammar.vars, ∃ α β,
      sampleGrammar.Derives erase [.var A] (α ++ .var 'B' :: .term 'b' :: β) := by
  have last : sampleGrammar.EpsilonLast := by decide
  obtain ⟨s, found, ahead, eof⟩ := (ofFirsts_exact sampleGrammar last).2 'B' (by decide)
  have computed : ((ofFirsts sampleGrammar (Firsts.ofGrammar sampleGrammar)).get? 'B').any
      (fun s => .term 'a' ∈ s ∧ .eof ∈ s ∧ .term 'b' ∉ s) = true := by decide
  rw [found, Option.any_some, decide_eq_true_eq] at computed
  obtain ⟨before, atEnd, never⟩ := computed
  refine ⟨last, (ahead 'a').1 before, eof.1 atEnd, ?_⟩
  intro h
  exact never ((ahead 'b').2 h)

end Follows

end TopDown
