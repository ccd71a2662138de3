import TopDown.Dict
import TopDown.ListSet

namespace TopDown

abbrev Family (κ α : Type) := Dict κ (ListSet α)

namespace Family

variable {κ α : Type}

def size (F : Family κ α) : Nat := F.entries.foldr (fun e n => e.2.size + n) 0

variable [DecidableEq κ]

/-- The set at `k`, empty where the family has none. -/
def members (F : Family κ α) (k : κ) : ListSet α := (F.get? k).getD .empty

variable [DecidableEq α]

def add (F : Family κ α) (k : κ) (s : ListSet α) : Family κ α := F.insert k ((members F k).union s)

theorem members_add (F : Family κ α) (k : κ) (s : ListSet α) (j : κ) :
    members (add F k s) j = if j = k then (members F k).union s else members F j := by
  rw [members, add, Dict.get?_insert]
  split <;> rfl

theorem mem_members_add {F : Family κ α} {k : κ} {s : ListSet α} {j : κ} {x : α} :
    x ∈ members (add F k s) j ↔ x ∈ members F j ∨ j = k ∧ x ∈ s := by
  rw [members_add]
  split
  · rename_i h
    subst h
    simp
  · simp [*]

theorem keys_add_of_mem {F : Family κ α} {k : κ} {s : ListSet α} (h : k ∈ F.keys) :
    (add F k s).keys = F.keys := Dict.keys_insert_of_mem _ h

end Family

end TopDown
