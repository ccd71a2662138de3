namespace TopDown

/-- A finite map that keeps its keys in the order of their first write. -/
structure Dict (κ α : Type) where
  entries : List (κ × α)
  nodup_keys : (entries.map Prod.fst).Nodup

namespace Dict

variable {κ α : Type}

def empty : Dict κ α := ⟨[], by simp⟩

def keys (d : Dict κ α) : List κ := d.entries.map Prod.fst

@[simp] theorem keys_empty : (empty : Dict κ α).keys = [] := rfl

variable [DecidableEq κ]

/-- Overwrites the first entry of `k`, or appends one. -/
def putEntry (k : κ) (a : α) : List (κ × α) → List (κ × α)
  | [] => [(k, a)]
  | e :: es => if e.1 = k then (k, a) :: es else e :: putEntry k a es

theorem map_fst_putEntry (k : κ) (a : α) (es : List (κ × α)) :
    (putEntry k a es).map Prod.fst =
      if k ∈ es.map Prod.fst then es.map Prod.fst else es.map Prod.fst ++ [k] := by
  induction es with
  | nil => simp [putEntry]
  | cons e es ih =>
    by_cases h : e.1 = k
    · simp [putEntry, h]
    · have h' : ¬ k = e.1 := fun hk => h hk.symm
      simp only [putEntry, if_neg h, List.map_cons, ih, List.mem_cons, h', false_or]
      split <;> simp

theorem nodup_putEntry (k : κ) (a : α) {es : List (κ × α)} (h : (es.map Prod.fst).Nodup) :
    ((putEntry k a es).map Prod.fst).Nodup := by
  rw [map_fst_putEntry]
  split
  · exact h
  · rename_i hk
    rw [List.nodup_append]
    refine ⟨h, by simp, ?_⟩
    intro x hx y hy
    rw [List.mem_singleton.1 hy]
    exact fun he => hk (he ▸ hx)

def insert (d : Dict κ α) (k : κ) (a : α) : Dict κ α :=
  ⟨putEntry k a d.entries, nodup_putEntry k a d.nodup_keys⟩

def get? (d : Dict κ α) (k : κ) : Option α := d.entries.lookup k

def ofKeys (ks : List κ) (a : α) : Dict κ α :=
  ks.foldl (fun d k => d.insert k a) empty

theorem lookup_putEntry (k : κ) (a : α) (es : List (κ × α)) (j : κ) :
    (putEntry k a es).lookup j = if j = k then some a else es.lookup j := by
  induction es with
  | nil =>
    by_cases h : j = k
    · simp [putEntry, h]
    · simp [putEntry, List.lookup_cons, beq_eq_false_iff_ne.2 h, h]
  | cons e es ih =>
    obtain ⟨x, b⟩ := e
    by_cases hx : x = k
    · subst hx
      by_cases h : j = x
      · simp [putEntry, h]
      · simp [putEntry, List.lookup_cons, beq_eq_false_iff_ne.2 h, h]
    · by_cases h : j = x
      · subst h
        simp [putEntry, hx]
      · simp [putEntry, List.lookup_cons, hx, beq_eq_false_iff_ne.2 h, ih]

theorem get?_insert (d : Dict κ α) (k : κ) (a : α) (j : κ) :
    (d.insert k a).get? j = if j = k then some a else d.get? j :=
  lookup_putEntry k a d.entries j

theorem keys_insert (d : Dict κ α) (k : κ) (a : α) :
    (d.insert k a).keys = if k ∈ d.keys then d.keys else d.keys ++ [k] :=
  map_fst_putEntry k a d.entries

theorem keys_insert_of_mem {d : Dict κ α} {k : κ} (a : α) (h : k ∈ d.keys) :
    (d.insert k a).keys = d.keys := by
  rw [keys_insert, if_pos h]

theorem keys_foldl_insert (ks : List κ) (a : α) (d : Dict κ α) (h : (d.keys ++ ks).Nodup) :
    (ks.foldl (fun d k => d.insert k a) d).keys = d.keys ++ ks := by
  induction ks generalizing d with
  | nil => simp
  | cons k ks ih =>
    have hk : k ∉ d.keys := fun hk => by
      rw [List.nodup_append] at h
      exact h.2.2 k hk k List.mem_cons_self rfl
    have hkeys : (d.insert k a).keys = d.keys ++ [k] := by rw [keys_insert, if_neg hk]
    rw [List.foldl_cons, ih _ (by simpa [hkeys] using h), hkeys]
    simp

theorem keys_ofKeys {ks : List κ} (h : ks.Nodup) (a : α) : (ofKeys ks a).keys = ks :=
  keys_foldl_insert ks a empty (by simpa using h)

theorem lookup_eq_some_iff_mem {es : List (κ × α)} (h : (es.map Prod.fst).Nodup) {k : κ} {a : α} :
    es.lookup k = some a ↔ (k, a) ∈ es := by
  induction es with
  | nil => simp
  | cons e es ih =>
    obtain ⟨x, b⟩ := e
    rw [List.map_cons, List.nodup_cons] at h
    by_cases hx : k = x
    · subst hx
      have hn : (k, a) ∉ es := fun hm => h.1 (List.mem_map.2 ⟨_, hm, rfl⟩)
      simp [hn, eq_comm]
    · simp [List.lookup_cons, beq_eq_false_iff_ne.2 hx, ih h.2, hx]

theorem mem_entries_iff {d : Dict κ α} {k : κ} {a : α} :
    (k, a) ∈ d.entries ↔ d.get? k = some a :=
  (lookup_eq_some_iff_mem d.nodup_keys).symm

theorem entries_eq_map_keys (d : Dict κ α) (a : α) :
    d.entries = d.keys.map fun k => (k, (d.get? k).getD a) := by
  rw [keys, List.map_map]
  conv => lhs; rw [← List.map_id d.entries]
  refine List.map_congr_left fun e he => ?_
  rw [Function.comp_apply, mem_entries_iff.1 he]
  rfl

theorem mem_keys_iff {d : Dict κ α} {k : κ} : k ∈ d.keys ↔ ∃ a, d.get? k = some a := by
  simp [keys, List.mem_map, ← mem_entries_iff]

end Dict

end TopDown
