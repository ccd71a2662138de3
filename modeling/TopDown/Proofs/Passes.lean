import Mathlib.Data.Finset.Prod
import Mathlib.Logic.Function.Iterate
import Mathlib.Order.Monotone.Basic
import TopDown.Log
import TopDown.Proofs.Follow

/-! How many passes the sets take. For a terminal in FIRST sets the rules read no more than where it
is already and which variables can vanish, and for a lookahead in FOLLOW sets no more than where it
is. So the facts about one or two members grow by themselves until they stand still, and there are
few of them. -/
namespace TopDown

section Loops

variable {α : Type} {step : α → α} {a b : α} {n : Nat}

/-- Passes are made from `a` as long as they change something. The last of the `n` changes nothing
and leaves `b`. -/
inductive Loop (step : α → α) : α → α → Nat → Prop
  | last {a : α} : step a = a → Loop step a a 1
  | again {a b : α} {n : Nat} : step a ≠ a → Loop step (step a) b n → Loop step a b (n + 1)

theorem Loop.le_of_still (h : Loop step a b n) {k : Nat} (still : step (step^[k] a) = step^[k] a) :
    n ≤ k + 1 := by
  induction h generalizing k with
  | last _ => omega
  | again moves _ ih =>
    cases k with
    | zero => exact absurd still moves
    | succ k =>
      have := ih still
      omega

theorem loop_saturate {size : α → Nat} {p : α → Prop} (inflates : Inflates size p step)
    {bound : Nat} (bounded : ∀ a, p a → size a ≤ bound) (fuel : Nat) (ha : p a)
    (enough : bound ≤ size a + fuel) :
    Loop step a (saturate size step fuel a).value (saturate size step fuel a).passes := by
  -- a size that stays the same means that nothing has changed
  have last : ∀ a, p a → size (step a) = size a → Loop step a (step a) 1 := by
    intro a ha same
    have still := inflates.fixed a ha same
    simpa only [still] using Loop.last still
  induction fuel generalizing a with
  | zero =>
    have := inflates.grows a ha
    have := bounded _ (inflates.keeps a ha)
    exact last a ha (by omega)
  | succ fuel ih =>
    rw [saturate]
    split
    · exact last a ha ‹_›
    · rename_i moved
      have := inflates.grows a ha
      exact .again (fun still => moved (congrArg size still))
        (ih (inflates.keeps a ha) (by omega))

end Loops

namespace Family

variable {κ α : Type} [DecidableEq κ] [DecidableEq α]

/-- All that the family says about the members `xs`. -/
def facts (F : Family κ α) (xs : Finset α) : Finset (κ × α) :=
  (F.keys.toFinset ×ˢ xs).filter fun e => e.2 ∈ members F e.1

variable {F : Family κ α} {xs : Finset α}

theorem mem_facts {k : κ} {x : α} : (k, x) ∈ facts F xs ↔ x ∈ xs ∧ x ∈ members F k := by
  rw [facts, Finset.mem_filter, Finset.mem_product, List.mem_toFinset]
  constructor
  · rintro ⟨⟨_, hx⟩, member⟩
    exact ⟨hx, member⟩
  · rintro ⟨hx, member⟩
    exact ⟨⟨mem_keys_of_mem_members member, hx⟩, member⟩

theorem mem_members_of_facts_eq {F' : Family κ α} (same : facts F xs = facts F' xs) {k : κ} {x : α}
    (hx : x ∈ xs) (h : x ∈ members F k) : x ∈ members F' k := by
  have fact : (k, x) ∈ facts F xs := mem_facts.2 ⟨hx, h⟩
  rw [same] at fact
  exact (mem_facts.1 fact).2

theorem card_facts_le (F : Family κ α) (xs : Finset α) :
    (facts F xs).card ≤ F.keys.length * xs.card :=
  calc (facts F xs).card
    _ ≤ (F.keys.toFinset ×ˢ xs).card := Finset.card_filter_le ..
    _ = F.keys.toFinset.card * xs.card := Finset.card_product ..
    _ ≤ F.keys.length * xs.card := Nat.mul_le_mul_right _ (List.toFinset_card_le _)

end Family

namespace Rule

open Family (facts members mem_facts)

variable {κ α : Type} [DecidableEq κ] [DecidableEq α]

/-- What the rule adds of `xs` depends on the facts about `xs` alone. -/
def Reads (r : Rule κ α) (xs : Finset α) : Prop :=
  ∀ F F', facts F xs = facts F' xs → ∀ x ∈ xs, x ∈ r.adds F → x ∈ r.adds F'

def Closed (rules : List (Rule κ α)) (xs : Finset α) (F : Family κ α) : Prop :=
  ∀ r ∈ rules, ∀ x ∈ xs, x ∈ r.adds F → x ∈ members F r.key

variable {rules : List (Rule κ α)} {xs : Finset α} {F F' : Family κ α}

theorem facts_subset_apply (F : Family κ α) (r : Rule κ α) (xs : Finset α) :
    facts F xs ⊆ facts (apply F r) xs := by
  rintro ⟨k, x⟩ h
  obtain ⟨hx, member⟩ := mem_facts.1 h
  exact mem_facts.2 ⟨hx, Family.mem_members_add.2 (Or.inl member)⟩

theorem facts_subset_pass (rules : List (Rule κ α)) (F : Family κ α) (xs : Finset α) :
    facts F xs ⊆ facts (pass rules F) xs := by
  rintro ⟨k, x⟩ h
  obtain ⟨hx, member⟩ := mem_facts.1 h
  exact mem_facts.2 ⟨hx, members_pass rules member⟩

theorem keys_pass (known : ∀ r ∈ rules, r.key ∈ F.keys) : (pass rules F).keys = F.keys := by
  induction rules generalizing F with
  | nil => rfl
  | cons r rules ih =>
    have same : (apply F r).keys = F.keys := Family.keys_add_of_mem (known r List.mem_cons_self)
    have rest := fun r' hr' => same ▸ known r' (List.mem_cons_of_mem r hr')
    exact (ih rest).trans same

theorem keys_iterate (known : ∀ r ∈ rules, r.key ∈ F.keys) (n : Nat) :
    ((pass rules)^[n] F).keys = F.keys := by
  induction n generalizing F with
  | zero => rfl
  | succ n ih =>
    have same := keys_pass known
    exact (ih (same.symm ▸ known)).trans same

theorem Closed.congr (reads : ∀ r ∈ rules, r.Reads xs) (same : facts F xs = facts F' xs)
    (h : Closed rules xs F) : Closed rules xs F' := by
  intro r hr x hx added
  have member := h r hr x hx (reads r hr F' F same.symm x hx added)
  exact Family.mem_members_of_facts_eq same hx member

/-- A pass that adds none of `xs` has had nothing to add at any of its rules, although each rule
sees what those before it have added. -/
theorem closed_of_still (reads : ∀ r ∈ rules, r.Reads xs)
    (still : facts (pass rules F) xs = facts F xs) : Closed rules xs F := by
  induction rules generalizing F with
  | nil => simp [Closed]
  | cons r rules ih =>
    have readsTail := fun r' hr' => reads r' (List.mem_cons_of_mem r hr')
    have upper : facts (apply F r) xs ⊆ facts F xs := by
      rw [← still]
      exact facts_subset_pass rules (apply F r) xs
    have same : facts (apply F r) xs = facts F xs := upper.antisymm (facts_subset_apply F r xs)
    have tail : Closed rules xs F := (ih readsTail (still.trans same.symm)).congr readsTail same
    intro r' hr' x hx added
    rcases List.mem_cons.1 hr' with rfl | hr'
    · have member : x ∈ members (apply F r') r'.key :=
        Family.mem_members_add.2 (Or.inr ⟨rfl, added⟩)
      exact Family.mem_members_of_facts_eq same hx member
    · exact tail r' hr' x hx added

theorem still_of_closed (reads : ∀ r ∈ rules, r.Reads xs) (h : Closed rules xs F) :
    facts (pass rules F) xs = facts F xs := by
  induction rules generalizing F with
  | nil => rfl
  | cons r rules ih =>
    have same : facts (apply F r) xs = facts F xs := by
      refine Finset.Subset.antisymm ?_ (facts_subset_apply F r xs)
      rintro ⟨k, x⟩ fact
      obtain ⟨hx, member⟩ := mem_facts.1 fact
      rcases Family.mem_members_add.1 member with old | ⟨rfl, added⟩
      · exact mem_facts.2 ⟨hx, old⟩
      · exact mem_facts.2 ⟨hx, h r List.mem_cons_self x hx added⟩
    have readsTail := fun r' hr' => reads r' (List.mem_cons_of_mem r hr')
    have tail : Closed rules xs F := fun r' hr' => h r' (List.mem_cons_of_mem r hr')
    exact (ih readsTail (tail.congr readsTail same.symm)).trans same

/-- Each pass adds a fact about `xs` until there is none to add, so that there are no more such
passes than facts. -/
theorem closed_iterate (known : ∀ r ∈ rules, r.key ∈ F.keys) (reads : ∀ r ∈ rules, r.Reads xs)
    {n : Nat} (enough : F.keys.length * xs.card ≤ n) : Closed rules xs ((pass rules)^[n] F) := by
  let count := fun m => (facts ((pass rules)^[m] F) xs).card
  have grows : ∀ m, facts ((pass rules)^[m] F) xs ⊆ facts ((pass rules)^[m + 1] F) xs := by
    intro m
    rw [Function.iterate_succ_apply']
    exact facts_subset_pass rules _ xs
  have closed : ∀ m, count m = count (m + 1) → Closed rules xs ((pass rules)^[m] F) := by
    intro m same
    have facts_eq := Finset.eq_of_subset_of_card_le (grows m) (Nat.le_of_eq same.symm)
    rw [Function.iterate_succ_apply'] at facts_eq
    exact closed_of_still reads facts_eq.symm
  have rests : ∀ m, count m = count (m + 1) → count (m + 1) = count (m + 2) := by
    intro m same
    have still := still_of_closed reads (closed m same)
    rw [← Function.iterate_succ_apply' (pass rules)] at still
    have again := still_of_closed reads ((closed m same).congr reads still.symm)
    rw [← Function.iterate_succ_apply' (pass rules)] at again
    exact congrArg Finset.card again.symm
  have bounded : ∀ m, count m ≤ F.keys.length * xs.card := by
    intro m
    have := Family.card_facts_le ((pass rules)^[m] F) xs
    rwa [keys_iterate known] at this
  have mono : Monotone count := monotone_nat_of_le_succ fun m => Finset.card_le_card (grows m)
  have here := Nat.stabilises_of_monotone mono bounded rests enough
  have next := Nat.stabilises_of_monotone mono bounded rests (Nat.le_succ_of_le enough)
  exact closed n (here.trans next.symm)

theorem pass_eq_self (known : ∀ r ∈ rules, r.key ∈ F.keys)
    (closed : ∀ r ∈ rules, ∀ x ∈ r.adds F, x ∈ members F r.key) : pass rules F = F := by
  induction rules with
  | nil => rfl
  | cons r rules ih =>
    have head : apply F r = F :=
      Family.add_eq_self (known r List.mem_cons_self) (closed r List.mem_cons_self)
    have tail := ih (fun r' hr' => known r' (List.mem_cons_of_mem r hr'))
      fun r' hr' => closed r' (List.mem_cons_of_mem r hr')
    rw [pass, List.foldl_cons, head]
    exact tail

/-- If each member is one of at most `m` that the rules read by themselves, then `m` passes for each
key are enough, and one that adds nothing. -/
theorem passes_le_of_reads (known : ∀ r ∈ rules, r.key ∈ F.keys) {m : Nat}
    (reads : ∀ x, ∃ xs : Finset α, x ∈ xs ∧ xs.card ≤ m ∧ ∀ r ∈ rules, r.Reads xs) {n : Nat}
    (loop : Loop (pass rules) F F' n) : n ≤ F.keys.length * m + 1 := by
  apply loop.le_of_still
  apply pass_eq_self
  · rw [keys_iterate known]
    exact known
  · intro r hr x added
    obtain ⟨xs, hx, few, reads⟩ := reads x
    have enough : F.keys.length * xs.card ≤ F.keys.length * m := Nat.mul_le_mul_left _ few
    exact closed_iterate known reads enough r hr x hx added

end Rule

variable {V T : Type} [DecidableEq V] [DecidableEq T]

namespace Firsts

theorem rule_reads (G : Grammar V T) (f : First T) : ∀ r ∈ rules G, r.Reads {f, .eps} := by
  rw [forall_rules]
  intro p _ F F' same x hx added
  refine leading_mono (fun v => ?_) (fun v => ?_) added
  · exact Family.mem_members_of_facts_eq same (by simp)
  · exact Family.mem_members_of_facts_eq same hx

theorem ofGrammar_loop (G : Grammar V T) :
    Loop (sweep G) (initial G) (ofGrammar G).sets (ofGrammar G).passes :=
  loop_saturate (sweep_inflates G) (fun _ => size_le_sizeBound) _
    (Family.within_ofKeys G.nodup_vars _) (Nat.le_add_left ..)

theorem ofGrammar_passes_le (G : Grammar V T) : (ofGrammar G).passes ≤ 2 * G.vars.length + 1 := by
  have keys : (initial G).keys = G.vars := Dict.keys_ofKeys G.nodup_vars _
  have loop := ofGrammar_loop G
  rw [sweep_eq_pass] at loop
  have reads : ∀ f, ∃ xs : Finset (First T), f ∈ xs ∧ xs.card ≤ 2 ∧ ∀ r ∈ rules G, r.Reads xs := by
    intro f
    refine ⟨{f, .eps}, Finset.mem_insert_self .., Finset.card_le_two, ?_⟩
    exact rule_reads G f
  have bound := Rule.passes_le_of_reads (keys ▸ key_mem_vars) reads loop
  rw [keys] at bound
  omega

end Firsts

namespace Follows

theorem rule_reads (G : Grammar V T) (first : Firsts V T) (a : Lookahead T) :
    ∀ r ∈ rules G first, r.Reads {a} := by
  rw [forall_rules]
  intro p _ _ v β _ F F' same b hb added
  rcases mem_after.1 added with term | ⟨vanish, follows⟩
  · exact mem_after.2 (Or.inl term)
  · have carried := Family.mem_members_of_facts_eq same hb follows
    exact mem_after.2 (Or.inr ⟨vanish, carried⟩)

theorem ofFirsts_loop (G : Grammar V T) (first : Firsts V T) :
    Loop (sweep G first) (initial G) (ofFirsts G first).sets (ofFirsts G first).passes := by
  have alphabet := solves_alphabet G first
  exact loop_saturate (sweep_inflates alphabet) (fun _ => size_le_sizeBound) _
    (within_initial alphabet) (Nat.le_add_left ..)

theorem ofFirsts_passes_le (G : Grammar V T) (first : Firsts V T) :
    (ofFirsts G first).passes ≤ G.vars.length + 1 := by
  have keys : (initial G).keys = G.vars := (within_initial (solves_alphabet G first)).keys
  have loop := ofFirsts_loop G first
  rw [sweep_eq_pass] at loop
  have reads : ∀ a, ∃ xs : Finset (Lookahead T),
      a ∈ xs ∧ xs.card ≤ 1 ∧ ∀ r ∈ rules G first, r.Reads xs :=
    fun a => ⟨{a}, Finset.mem_singleton_self a, Nat.le_refl 1, rule_reads G first a⟩
  have bound := Rule.passes_le_of_reads (keys ▸ key_mem_vars) reads loop
  rwa [keys, Nat.mul_one] at bound

end Follows

/-- Both computations come to an end, and the passes that they log are bounded by the number of
variables alone, whatever FIRST sets the FOLLOW sets are computed from. -/
theorem passes_le (G : Grammar V T) :
    (Loop (Firsts.sweep G) (Firsts.initial G) (Firsts.ofGrammar G).sets (Firsts.ofGrammar G).passes ∧
      (Firsts.ofGrammar G).events = [.firstConverged (Firsts.ofGrammar G).passes] ∧
      (Firsts.ofGrammar G).passes ≤ 2 * G.vars.length + 1) ∧
    ∀ first : Firsts V T,
      Loop (Follows.sweep G first) (Follows.initial G) (Follows.ofFirsts G first).sets
        (Follows.ofFirsts G first).passes ∧
      (Follows.ofFirsts G first).events = [.followConverged (Follows.ofFirsts G first).passes] ∧
      (Follows.ofFirsts G first).passes ≤ G.vars.length + 1 :=
  ⟨⟨Firsts.ofGrammar_loop G, rfl, Firsts.ofGrammar_passes_le G⟩,
    fun first => ⟨Follows.ofFirsts_loop G first, rfl, Follows.ofFirsts_passes_le G first⟩⟩

end TopDown
