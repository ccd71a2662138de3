import Mathlib.Data.List.Perm.Subperm
import TopDown.Family
import TopDown.Fixpoint

/-! A step that only adds shows by its size whether it has done anything, so a value that is
saturated by size is a fixed point. What a member must satisfy is kept beside the keys: the bound
rests on it. -/
namespace TopDown

section Inflation

variable {α β : Type} {size : α → Nat} {p : α → Prop}

/-- A step that keeps `p` and changes nothing unless it enlarges the size. -/
structure Inflates (size : α → Nat) (p : α → Prop) (f : α → α) : Prop where
  keeps : ∀ a, p a → p (f a)
  grows : ∀ a, p a → size a ≤ size (f a)
  fixed : ∀ a, p a → size (f a) = size a → f a = a

theorem inflates_id : Inflates size p fun a => a :=
  ⟨fun _ ha => ha, fun _ _ => Nat.le_refl _, fun _ _ _ => rfl⟩

theorem each_fixed_of_comp {f g : α → α} (hf : Inflates size p f) (hg : Inflates size p g) {a : α}
    (ha : p a) (same : size (g (f a)) = size a) : f a = a ∧ g a = a := by
  have first := hf.grows a ha
  have second := hg.grows (f a) (hf.keeps a ha)
  have hfa : f a = a := hf.fixed a ha (by omega)
  rw [hfa] at same
  exact ⟨hfa, hg.fixed a ha same⟩

theorem inflates_comp {f g : α → α} (hf : Inflates size p f) (hg : Inflates size p g) :
    Inflates size p fun a => g (f a) := by
  refine ⟨?_, ?_, ?_⟩
  · intro a ha
    exact hg.keeps _ (hf.keeps a ha)
  · intro a ha
    exact Nat.le_trans (hf.grows a ha) (hg.grows _ (hf.keeps a ha))
  · intro a ha same
    obtain ⟨hfa, hga⟩ := each_fixed_of_comp hf hg ha same
    rw [hfa, hga]

theorem inflates_foldl {step : α → β → α} (bs : List β)
    (h : ∀ b ∈ bs, Inflates size p fun a => step a b) : Inflates size p fun a => bs.foldl step a := by
  induction bs with
  | nil => exact inflates_id
  | cons b bs ih =>
    have head := h b List.mem_cons_self
    have tail := ih fun c hc => h c (List.mem_cons_of_mem b hc)
    exact inflates_comp head tail

theorem each_fixed_of_foldl {step : α → β → α} (bs : List β)
    (h : ∀ b ∈ bs, Inflates size p fun a => step a b) {a : α} (ha : p a)
    (still : bs.foldl step a = a) : ∀ b ∈ bs, step a b = a := by
  induction bs with
  | nil => simp
  | cons b bs ih =>
    have head := h b List.mem_cons_self
    have tail : ∀ c ∈ bs, Inflates size p fun a => step a c :=
      fun c hc => h c (List.mem_cons_of_mem b hc)
    rw [List.foldl_cons] at still
    obtain ⟨hb, hbs⟩ := each_fixed_of_comp head (inflates_foldl bs tail) ha (congrArg size still)
    intro c hc
    rcases List.mem_cons.1 hc with rfl | hc
    · exact hb
    · exact ih tail hbs c hc

theorem saturate_fixed {f : α → α} (hf : Inflates size p f) {bound : Nat}
    (bounded : ∀ a, p a → size a ≤ bound) (fuel : Nat) {a : α} (ha : p a)
    (enough : bound ≤ size a + fuel) :
    p (saturate size f fuel a).value ∧
      f (saturate size f fuel a).value = (saturate size f fuel a).value := by
  obtain ⟨b, hb, value, same⟩ := exists_saturate_eq hf.keeps hf.grows bounded fuel ha enough
  have hfb := hf.fixed b hb same
  rw [value, hfb]
  exact ⟨hb, hfb⟩

end Inflation

namespace ListSet

variable {α : Type}

theorem size_le_of_subset {s : ListSet α} {xs : List α} (h : ∀ x ∈ s, x ∈ xs) :
    s.size ≤ xs.length :=
  (s.nodup.subperm h).length_le

variable [DecidableEq α]

theorem insert_eq_self {s : ListSet α} {x : α} (h : x ∈ s) : s.insert x = s := by
  cases s with
  | mk xs nodup =>
    have hx : x ∈ xs := h
    simp [insert, List.insert_of_mem hx]

theorem insertAll_eq_self {s : ListSet α} {xs : List α} (h : ∀ x ∈ xs, x ∈ s) :
    s.insertAll xs = s := by
  induction xs with
  | nil => rfl
  | cons x xs ih =>
    change (s.insert x).insertAll xs = s
    rw [insert_eq_self (h x List.mem_cons_self)]
    exact ih fun y hy => h y (List.mem_cons_of_mem x hy)

end ListSet

namespace Dict

variable {κ α : Type} [DecidableEq κ]

theorem get?_ofKeys (ks : List κ) (a : α) (k : κ) :
    (ofKeys ks a).get? k = if k ∈ ks then some a else none := by
  have general : ∀ d : Dict κ α,
      (ks.foldl (fun d k => d.insert k a) d).get? k = if k ∈ ks then some a else d.get? k := by
    induction ks with
    | nil => simp
    | cons j js ih =>
      intro d
      rw [List.foldl_cons, ih, get?_insert]
      by_cases hjs : k ∈ js
      · simp [hjs]
      · simp [hjs]
  exact general empty

theorem putEntry_eq_self {es : List (κ × α)} {k : κ} {a : α} (h : es.lookup k = some a) :
    putEntry k a es = es := by
  induction es with
  | nil => cases h
  | cons e es ih =>
    obtain ⟨j, b⟩ := e
    by_cases hj : j = k
    · subst hj
      simp only [List.lookup_cons, beq_self_eq_true, Option.some.injEq] at h
      simp [putEntry, h]
    · have hk : (k == j) = false := beq_eq_false_iff_ne.2 fun hk => hj hk.symm
      simp only [List.lookup_cons, hk] at h
      simp [putEntry, hj, ih h]

theorem insert_eq_self {d : Dict κ α} {k : κ} {a : α} (h : d.get? k = some a) :
    d.insert k a = d := by
  cases d with
  | mk entries nodup =>
    have : putEntry k a entries = entries := putEntry_eq_self h
    simp [insert, this]

end Dict

namespace Family

variable {κ α : Type} [DecidableEq κ]

theorem members_of_get? {F : Family κ α} {k : κ} {s : ListSet α} (h : F.get? k = some s) :
    members F k = s := by
  rw [members, h, Option.getD_some]

theorem get?_of_mem_keys {F : Family κ α} {k : κ} (h : k ∈ F.keys) :
    F.get? k = some (members F k) := by
  obtain ⟨s, hs⟩ := Dict.mem_keys_iff.1 h
  rw [members_of_get? hs, hs]

theorem mem_keys_of_mem_members {F : Family κ α} {k : κ} {x : α} (h : x ∈ members F k) :
    k ∈ F.keys := by
  rw [members] at h
  cases hk : F.get? k with
  | none =>
    rw [hk] at h
    exact absurd h (ListSet.not_mem_empty x)
  | some s => exact Dict.mem_keys_iff.2 ⟨s, hk⟩

theorem mem_members_iff {F : Family κ α} {k : κ} {x : α} :
    x ∈ members F k ↔ ∃ s, F.get? k = some s ∧ x ∈ s := by
  constructor
  · intro h
    exact ⟨_, get?_of_mem_keys (mem_keys_of_mem_members h), h⟩
  · rintro ⟨s, hs, hx⟩
    rw [members_of_get? hs]
    exact hx

theorem exists_entry_of_mem_members {F : Family κ α} {k : κ} {x : α} (h : x ∈ members F k) :
    ∃ s, (k, s) ∈ F.entries ∧ x ∈ s := by
  obtain ⟨s, found, hx⟩ := mem_members_iff.1 h
  exact ⟨s, Dict.mem_entries_iff.2 found, hx⟩

theorem not_mem_members_ofKeys (ks : List κ) (k : κ) (x : α) :
    x ∉ members (Dict.ofKeys ks .empty) k := by
  rw [members, Dict.get?_ofKeys]
  split
  · exact ListSet.not_mem_empty x
  · exact ListSet.not_mem_empty x

theorem size_insert {F : Family κ α} {k : κ} {s : ListSet α} (t : ListSet α)
    (h : F.get? k = some s) : size (F.insert k t) + s.size = size F + t.size := by
  cases F with
  | mk entries nodup =>
    change (Dict.putEntry k t entries).foldr (fun e n => e.2.size + n) 0 + s.size =
      entries.foldr (fun e n => e.2.size + n) 0 + t.size
    change entries.lookup k = some s at h
    clear nodup
    induction entries with
    | nil => cases h
    | cons e es ih =>
      obtain ⟨j, b⟩ := e
      by_cases hj : j = k
      · subst hj
        simp only [List.lookup_cons, beq_self_eq_true, Option.some.injEq] at h
        simp only [Dict.putEntry, if_true, List.foldr_cons, h]
        omega
      · have hk : (k == j) = false := beq_eq_false_iff_ne.2 fun hk => hj hk.symm
        simp only [List.lookup_cons, hk] at h
        have := ih h
        simp only [Dict.putEntry, if_neg hj, List.foldr_cons]
        omega

/-- A family over the keys `ks` in which every member at `k` satisfies `P k`. -/
structure Within (ks : List κ) (P : κ → α → Prop) (F : Family κ α) : Prop where
  keys : F.keys = ks
  sound : ∀ k x, x ∈ members F k → P k x

theorem within_ofKeys {ks : List κ} (nodup : ks.Nodup) (P : κ → α → Prop) :
    Within ks P (Dict.ofKeys ks .empty) :=
  ⟨Dict.keys_ofKeys nodup _, fun k x hx => absurd hx (not_mem_members_ofKeys ks k x)⟩

theorem size_le_of_within {ks : List κ} {P : κ → α → Prop} {xs : List α}
    (finite : ∀ k x, P k x → x ∈ xs) {F : Family κ α} (h : Within ks P F) :
    size F ≤ ks.length * xs.length := by
  have each : ∀ e ∈ F.entries, e.2.size ≤ xs.length := by
    intro e he
    apply ListSet.size_le_of_subset
    intro x hx
    have hk : members F e.1 = e.2 := members_of_get? (Dict.mem_entries_iff.1 he)
    exact finite e.1 x (h.sound e.1 x (hk ▸ hx))
  have total : ∀ es : List (κ × ListSet α), (∀ e ∈ es, e.2.size ≤ xs.length) →
      es.foldr (fun e n => e.2.size + n) 0 ≤ es.length * xs.length := by
    intro es
    induction es with
    | nil => simp
    | cons e es ih =>
      intro hes
      have head := hes e List.mem_cons_self
      have tail := ih fun c hc => hes c (List.mem_cons_of_mem e hc)
      rw [List.foldr_cons, List.length_cons, Nat.succ_mul]
      omega
  have count : F.entries.length = ks.length := by
    rw [← h.keys, Dict.keys, List.length_map]
  rw [← count]
  exact total F.entries each

variable [DecidableEq α]

theorem within_add {ks : List κ} {P : κ → α → Prop} {F : Family κ α} (h : Within ks P F) {k : κ}
    (hk : k ∈ ks) {s : ListSet α} (hs : ∀ x ∈ s, P k x) : Within ks P (add F k s) := by
  constructor
  · rw [keys_add_of_mem (h.keys ▸ hk), h.keys]
  · intro j x hx
    rcases mem_members_add.1 hx with old | ⟨rfl, new⟩
    · exact h.sound j x old
    · exact hs x new

theorem add_eq_self {F : Family κ α} {k : κ} (hk : k ∈ F.keys) {s : ListSet α}
    (h : ∀ x ∈ s, x ∈ members F k) : add F k s = F := by
  have union : (members F k).union s = members F k := ListSet.insertAll_eq_self h
  rw [add, union]
  exact Dict.insert_eq_self (get?_of_mem_keys hk)

theorem mem_of_add_eq_self {F : Family κ α} {k : κ} {s : ListSet α} (h : add F k s = F) {x : α}
    (hx : x ∈ s) : x ∈ members F k := by
  rw [← h, mem_members_add]
  exact Or.inr ⟨rfl, hx⟩

theorem inflates_add {ks : List κ} {P : κ → α → Prop} {k : κ} (hk : k ∈ ks)
    (s : Family κ α → ListSet α) (hs : ∀ F, Within ks P F → ∀ x ∈ s F, P k x) :
    Inflates size (Within ks P) fun F => add F k (s F) := by
  refine ⟨?_, ?_, ?_⟩
  · intro F hF
    exact within_add hF hk (hs F hF)
  · intro F hF
    have grown := size_insert ((members F k).union (s F)) (get?_of_mem_keys (hF.keys ▸ hk))
    have := ListSet.size_le_size_union (members F k) (s F)
    unfold add
    omega
  · intro F hF same
    have grown := size_insert ((members F k).union (s F)) (get?_of_mem_keys (hF.keys ▸ hk))
    have equal : ((members F k).union (s F)).size = (members F k).size := by
      unfold add at same
      omega
    exact add_eq_self (hF.keys ▸ hk) (ListSet.size_union_eq_iff.1 equal)

end Family

/-- Adds to the set at its key what it reads off the family. -/
structure Rule (κ α : Type) where
  key : κ
  adds : Family κ α → ListSet α

namespace Rule

open Family (Within members)

variable {κ α : Type} [DecidableEq κ] [DecidableEq α]

def apply (F : Family κ α) (r : Rule κ α) : Family κ α := Family.add F r.key (r.adds F)

/-- Applies the rules in turn, each to what those before it have left. -/
def pass (rules : List (Rule κ α)) (F : Family κ α) : Family κ α := rules.foldl apply F

variable {rules : List (Rule κ α)} {F : Family κ α} {ks : List κ} {P : κ → α → Prop}

theorem members_pass (rules : List (Rule κ α)) {k : κ} {x : α} (h : x ∈ members F k) :
    x ∈ members (pass rules F) k := by
  induction rules generalizing F with
  | nil => exact h
  | cons r rules ih => exact ih (Family.mem_members_add.2 (Or.inl h))

theorem pass_inflates (known : ∀ r ∈ rules, r.key ∈ ks)
    (sound : ∀ r ∈ rules, ∀ F, Within ks P F → ∀ x ∈ r.adds F, P r.key x) :
    Inflates Family.size (Within ks P) (pass rules) :=
  inflates_foldl rules fun r hr => Family.inflates_add (known r hr) r.adds (sound r hr)

/-- What a pass leaves alone is closed under each of its rules. -/
theorem added_of_pass_eq (known : ∀ r ∈ rules, r.key ∈ ks)
    (sound : ∀ r ∈ rules, ∀ F, Within ks P F → ∀ x ∈ r.adds F, P r.key x) (within : Within ks P F)
    (still : pass rules F = F) : ∀ r ∈ rules, ∀ x ∈ r.adds F, x ∈ members F r.key := by
  intro r hr x hx
  have alone : apply F r = F := each_fixed_of_foldl rules
    (fun r hr => Family.inflates_add (known r hr) r.adds (sound r hr)) within still r hr
  exact Family.mem_of_add_eq_self alone hx

end Rule

end TopDown
