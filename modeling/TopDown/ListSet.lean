namespace TopDown

theorem eraseDups_concat {α : Type} [DecidableEq α] (xs : List α) (x : α) :
    (xs ++ [x]).eraseDups = if x ∈ xs then xs.eraseDups else xs.eraseDups ++ [x] := by
  rw [List.eraseDups_append]
  split <;> simp [List.removeAll, List.eraseDups_cons, *]

/-- A finite set, kept as a list without repetition. -/
structure ListSet (α : Type) where
  toList : List α
  nodup : toList.Nodup

namespace ListSet

variable {α : Type}

instance : Membership α (ListSet α) := ⟨fun s x => x ∈ s.toList⟩

theorem mem_def {s : ListSet α} {x : α} : x ∈ s ↔ x ∈ s.toList := Iff.rfl

instance [DecidableEq α] (s : ListSet α) (x : α) : Decidable (x ∈ s) :=
  inferInstanceAs (Decidable (x ∈ s.toList))

def empty : ListSet α := ⟨[], by simp⟩

def singleton (x : α) : ListSet α := ⟨[x], by simp⟩

def size (s : ListSet α) : Nat := s.toList.length

def filter (p : α → Bool) (s : ListSet α) : ListSet α :=
  ⟨s.toList.filter p, s.nodup.sublist List.filter_sublist⟩

@[simp] theorem not_mem_empty (x : α) : x ∉ (empty : ListSet α) := List.not_mem_nil

@[simp] theorem mem_singleton {x y : α} : x ∈ singleton y ↔ x = y := List.mem_singleton

@[simp] theorem mem_filter {p : α → Bool} {s : ListSet α} {x : α} :
    x ∈ s.filter p ↔ x ∈ s ∧ p x = true := List.mem_filter

variable [DecidableEq α]

def insert (s : ListSet α) (x : α) : ListSet α :=
  ⟨s.toList.insert x, by
    rw [List.insert_eq]
    split
    · exact s.nodup
    · exact List.nodup_cons.2 ⟨‹_›, s.nodup⟩⟩

@[simp] theorem mem_insert {s : ListSet α} {x y : α} : x ∈ s.insert y ↔ x = y ∨ x ∈ s :=
  List.mem_insert_iff

theorem size_insert (s : ListSet α) (x : α) :
    (s.insert x).size = s.size + if x ∈ s then 0 else 1 := List.length_insert

def insertAll (s : ListSet α) (xs : List α) : ListSet α := xs.foldl insert s

def union (s t : ListSet α) : ListSet α := s.insertAll t.toList

def ofList (xs : List α) : ListSet α := empty.insertAll xs

theorem mem_insertAll {s : ListSet α} {xs : List α} {x : α} :
    x ∈ s.insertAll xs ↔ x ∈ s ∨ x ∈ xs := by
  induction xs generalizing s with
  | nil => simp [insertAll]
  | cons y ys ih =>
    change x ∈ (s.insert y).insertAll ys ↔ _
    rw [ih, mem_insert, List.mem_cons]
    grind

@[simp] theorem mem_union {s t : ListSet α} {x : α} : x ∈ s.union t ↔ x ∈ s ∨ x ∈ t :=
  mem_insertAll

@[simp] theorem mem_ofList {xs : List α} {x : α} : x ∈ ofList xs ↔ x ∈ xs := by
  simp [ofList, mem_insertAll]

theorem size_le_size_insertAll (s : ListSet α) (xs : List α) : s.size ≤ (s.insertAll xs).size := by
  induction xs generalizing s with
  | nil => exact Nat.le_refl _
  | cons y ys ih =>
    change s.size ≤ ((s.insert y).insertAll ys).size
    have := size_insert s y
    have := ih (s.insert y)
    omega

/-- Adding keeps the size only if there was nothing to add. -/
theorem size_insertAll_eq_iff {s : ListSet α} {xs : List α} :
    (s.insertAll xs).size = s.size ↔ ∀ x ∈ xs, x ∈ s := by
  induction xs generalizing s with
  | nil => simp [insertAll]
  | cons y ys ih =>
    change ((s.insert y).insertAll ys).size = s.size ↔ _
    have hsize := size_insert s y
    have hle := size_le_size_insertAll (s.insert y) ys
    by_cases hy : y ∈ s
    · rw [if_pos hy] at hsize
      rw [← Nat.add_zero s.size, ← hsize, ih]
      simp only [mem_insert, List.forall_mem_cons]
      grind
    · rw [if_neg hy] at hsize
      constructor
      · intro h
        omega
      · intro h
        exact absurd (h y List.mem_cons_self) hy

theorem size_le_size_union (s t : ListSet α) : s.size ≤ (s.union t).size :=
  size_le_size_insertAll s t.toList

theorem size_union_eq_iff {s t : ListSet α} : (s.union t).size = s.size ↔ ∀ x ∈ t, x ∈ s :=
  size_insertAll_eq_iff

end ListSet

end TopDown
