import Mathlib.Data.List.Induction
import Mathlib.Data.List.Nodup
import Mathlib.Data.List.Sort
import TopDown.Analysis.Table
import TopDown.Proofs.Follow

/-! All claims are entered one after the other into an empty table, in the order of the productions.
Each cell keeps the last of its claimants, and its conflicts record how it passed from one to the
next. -/
namespace TopDown.Table

variable {V T : Type} [DecidableEq V] [DecidableEq T]

theorem mem_claims {first : Firsts V T} {follow : Follows V T} {p : Production V T}
    {a : Lookahead T} :
    a ∈ claims first follow p ↔ first.Ahead (Follows.Says follow.sets p.head) p.body a := by
  unfold claims Firsts.Ahead
  by_cases h : .eps ∈ first.ofSymbols p.body
  · simp only [h, if_true, List.mem_append, List.mem_filterMap, First.lookahead?_eq_some_iff,
      true_and]
    grind [ListSet.mem_def, Follows.Says]
  · simp only [h, if_false, List.append_nil, List.mem_filterMap, First.lookahead?_eq_some_iff,
      false_and, or_false]
    grind [ListSet.mem_def]

omit [DecidableEq V] [DecidableEq T] in
theorem nodup_iter (t : Table V T) : t.iter.Nodup := by
  have separate : Function.Injective fun e : Cell V T × Nat => (e.1.var, e.1.ahead, e.2) := by
    rintro ⟨⟨v, a⟩, id⟩ ⟨⟨v', a'⟩, id'⟩ same
    cases same
    rfl
  exact t.cells.nodup_keys.of_map.map separate

def claimed (first : Firsts V T) (follow : Follows V T) (es : List (Production V T × Nat)) :
    List (Nat × Cell V T) :=
  es.flatMap fun e => (claims first follow e.1).map fun a => (e.2, ⟨e.1.head, a⟩)

def claimAll (t : Table V T) (cs : List (Nat × Cell V T)) : Table V T :=
  cs.foldl (fun t c => t.claim c.1 c.2) t

theorem claimAll_claimed_cons (first : Firsts V T) (follow : Follows V T)
    (e : Production V T × Nat) (es : List (Production V T × Nat)) (t : Table V T) :
    t.claimAll (claimed first follow (e :: es)) =
      (enter first follow t e).claimAll (claimed first follow es) := by
  rw [claimed, List.flatMap_cons, claimAll, List.foldl_append, List.foldl_map]
  rfl

theorem ofSets_eq_claimAll (G : Grammar V T) (first : Firsts V T) (follow : Follows V T) :
    ofSets G first follow = empty.claimAll (claimed first follow G.numbered) := by
  have general : ∀ (es : List (Production V T × Nat)) (t : Table V T),
      es.foldl (enter first follow) t = t.claimAll (claimed first follow es) := by
    intro es
    induction es with
    | nil =>
      intro t
      rfl
    | cons e es ih =>
      intro t
      rw [List.foldl_cons, ih, claimAll_claimed_cons]
  exact general G.numbered empty

theorem mem_claimed {G : Grammar V T} {first : Firsts V T} {follow : Follows V T} {id : Nat}
    {cell : Cell V T} : (id, cell) ∈ claimed first follow G.numbered ↔
      ∃ p, G.production? id = some p ∧ p.head = cell.var ∧
        cell.ahead ∈ claims first follow p := by
  unfold claimed
  rw [List.mem_flatMap]
  constructor
  · rintro ⟨⟨p, id'⟩, hp, hc⟩
    obtain ⟨a, ha, he⟩ := List.mem_map.1 hc
    cases he
    exact ⟨p, Grammar.mem_numbered.1 hp, rfl, ha⟩
  · rintro ⟨p, hp, hv, ha⟩
    refine ⟨(p, id), Grammar.mem_numbered.2 hp, List.mem_map.2 ⟨cell.ahead, ha, ?_⟩⟩
    rw [hv]

theorem claimAll_concat (t : Table V T) (cs : List (Nat × Cell V T)) (c : Nat × Cell V T) :
    t.claimAll (cs ++ [c]) = (t.claimAll cs).claim c.1 c.2 := List.foldl_append

theorem claimed_sorted (G : Grammar V T) (first : Firsts V T) (follow : Follows V T) :
    ((claimed first follow G.numbered).map Prod.fst).Pairwise (· ≤ ·) := by
  have ids : (G.numbered.map Prod.snd).Pairwise (· < ·) := by
    rw [Grammar.numbered, List.zipIdx_map_snd]
    exact List.pairwise_lt_range' 1
  rw [List.pairwise_map] at ids ⊢
  rw [claimed, List.pairwise_flatMap]
  constructor
  · intro e _
    rw [List.pairwise_map]
    exact List.pairwise_of_forall fun _ _ => Nat.le_refl _
  · refine ids.imp ?_
    intro e e' later c hc c' hc'
    obtain ⟨_, _, rfl⟩ := List.mem_map.1 hc
    obtain ⟨_, _, rfl⟩ := List.mem_map.1 hc'
    exact Nat.le_of_lt later

section History

/-- The conflicts of a cell that the productions `ids` have held one after the other. -/
def handovers (cell : Cell V T) (ids : List Nat) : List (Conflict V T) :=
  ids.zipWith (Conflict.mk cell) ids.tail

omit [DecidableEq V] [DecidableEq T] in
theorem handovers_concat (cell : Cell V T) (ids : List Nat) (id : Nat) :
    handovers cell (ids ++ [id]) =
      handovers cell ids ++ (ids.getLast?.map fun old => ⟨cell, old, id⟩).toList := by
  induction ids with
  | nil => rfl
  | cons i ids ih =>
    cases ids with
    | nil => rfl
    | cons j ids => simpa [handovers] using ih

omit [DecidableEq V] [DecidableEq T] in
theorem handovers_eq_nil_iff {cell : Cell V T} {ids : List Nat} :
    handovers cell ids = [] ↔ ids.length ≤ 1 := by
  cases ids with
  | nil => simp [handovers]
  | cons i ids => cases ids <;> simp [handovers]

/-- The productions `ids` have held the cell one after the other, and this is all that is on record
for it. -/
structure HeldBy (t : Table V T) (cell : Cell V T) (ids : List Nat) : Prop where
  holder : t.get? cell.var cell.ahead = ids.getLast?
  record : t.conflicts.filter (fun c => c.cell = cell) = handovers cell ids

variable {t : Table V T} {cell other : Cell V T} {ids : List Nat} {id : Nat}

theorem HeldBy.get?_eq {v : V} {a : Lookahead T} (h : t.HeldBy ⟨v, a⟩ ids) :
    t.get? v a = ids.getLast? := h.holder

theorem conflict?_cell {c : Conflict V T} (h : t.conflict? cell id = some c) :
    c.cell = cell ∧ c.chosen = id := by
  unfold conflict? at h
  split at h
  · split at h
    · cases h
    · cases h
      exact ⟨rfl, rfl⟩
  · cases h

theorem conflicts_claim (t : Table V T) (id : Nat) (cell other : Cell V T) :
    (t.claim id other).conflicts.filter (fun c => c.cell = cell) =
      t.conflicts.filter (fun c => c.cell = cell) ++
        if other = cell then (t.conflict? other id).toList else [] := by
  rw [claim, List.filter_append]
  congr 1
  cases h : t.conflict? other id with
  | none => simp
  | some c =>
    obtain ⟨hc, _⟩ := conflict?_cell h
    simp [List.filter_cons, hc]

theorem HeldBy.claim_elsewhere (h : t.HeldBy cell ids) (hne : cell ≠ other) (id : Nat) :
    (t.claim id other).HeldBy cell ids := by
  constructor
  · rw [get?_claim]
    exact (if_neg hne).trans h.holder
  · rw [conflicts_claim, if_neg hne.symm, List.append_nil]
    exact h.record

theorem HeldBy.claim_again (h : t.HeldBy cell ids) (held : ids.getLast? = some id) :
    (t.claim id cell).HeldBy cell ids := by
  constructor
  · rw [get?_claim, if_pos rfl, held]
  · have holder : t.cells.get? cell = some id := h.holder.trans held
    have quiet : t.conflict? cell id = none := by simp [conflict?, holder]
    rw [conflicts_claim, if_pos rfl, quiet, h.record]
    exact List.append_nil _

theorem HeldBy.claim_anew (h : t.HeldBy cell ids) (fresh : ids.getLast? ≠ some id) :
    (t.claim id cell).HeldBy cell (ids ++ [id]) := by
  constructor
  · rw [get?_claim, if_pos rfl, List.getLast?_concat]
  · have handover : t.conflict? cell id = ids.getLast?.map fun old => ⟨cell, old, id⟩ := by
      have holder : t.cells.get? cell = ids.getLast? := h.holder
      rw [conflict?, holder]
      cases held : ids.getLast? with
      | none => rfl
      | some old =>
        have hne : old ≠ id := fun he => fresh (he ▸ held)
        simp [hne]
    rw [conflicts_claim, if_pos rfl, handover, h.record, handovers_concat]

theorem getLast?_eq_some_iff_greatest {ids : List Nat} (increasing : ids.Pairwise (· < ·))
    {n : Nat} : ids.getLast? = some n ↔ n ∈ ids ∧ ∀ id ∈ ids, id ≤ n := by
  constructor
  · intro last
    obtain ⟨front, rfl⟩ := List.getLast?_eq_some_iff.1 last
    refine ⟨List.mem_of_getLast? last, ?_⟩
    intro id hid
    rcases List.mem_append.1 hid with hid | hid
    · exact Nat.le_of_lt ((List.pairwise_append.1 increasing).2.2 id hid n List.mem_cons_self)
    · exact Nat.le_of_eq (List.mem_singleton.1 hid)
  · rintro ⟨hn, bound⟩
    obtain ⟨last, hlast⟩ : ∃ last, ids.getLast? = some last :=
      Option.isSome_iff_exists.1 (List.getLast?_isSome.2 (List.ne_nil_of_mem hn))
    obtain ⟨front, rfl⟩ := List.getLast?_eq_some_iff.1 hlast
    have le := bound last (List.mem_of_getLast? hlast)
    rcases List.mem_append.1 hn with hn | hn
    · have := (List.pairwise_append.1 increasing).2.2 n hn last List.mem_cons_self
      omega
    · rw [hlast, List.mem_singleton.1 hn]

/-- A claim by a production that no earlier claimant comes after makes it the last of them. -/
theorem HeldBy.claim_greatest (h : t.HeldBy cell ids) (increasing : ids.Pairwise (· < ·)) {n : Nat}
    (bound : ∀ id ∈ ids, id ≤ n) : ∃ ids', (t.claim n cell).HeldBy cell ids' ∧
      ids'.Pairwise (· < ·) ∧ ∀ id, id ∈ ids' ↔ id ∈ ids ∨ id = n := by
  by_cases again : ids.getLast? = some n
  · refine ⟨ids, h.claim_again again, increasing, ?_⟩
    intro id
    have hn : n ∈ ids := List.mem_of_getLast? again
    constructor
    · exact Or.inl
    · rintro (hid | rfl)
      · exact hid
      · exact hn
  · have below : ∀ id ∈ ids, id < n := by
      intro id hid
      have hne : id ≠ n := fun he =>
        again ((getLast?_eq_some_iff_greatest increasing).2 ⟨he ▸ hid, bound⟩)
      exact Nat.lt_of_le_of_ne (bound id hid) hne
    refine ⟨ids ++ [n], h.claim_anew again, ?_, by simp⟩
    rw [List.pairwise_append]
    refine ⟨increasing, List.pairwise_singleton .., ?_⟩
    intro id hid m hm
    rw [List.mem_singleton.1 hm]
    exact below id hid

/-- Claims entered in the order of their productions leave each cell with its claimants in turn. -/
theorem exists_heldBy (cs : List (Nat × Cell V T)) (sorted : (cs.map Prod.fst).Pairwise (· ≤ ·))
    (cell : Cell V T) : ∃ ids, (empty.claimAll cs).HeldBy cell ids ∧ ids.Pairwise (· < ·) ∧
      ∀ id, id ∈ ids ↔ (id, cell) ∈ cs := by
  induction cs using List.reverseRecOn with
  | nil => exact ⟨[], ⟨rfl, rfl⟩, .nil, by simp⟩
  | append_singleton cs c ih =>
    obtain ⟨n, other⟩ := c
    rw [List.map_append, List.pairwise_append] at sorted
    obtain ⟨before, _, below⟩ := sorted
    obtain ⟨ids, held, increasing, members⟩ := ih before
    rw [claimAll_concat]
    by_cases here : cell = other
    · subst here
      have bound : ∀ id ∈ ids, id ≤ n := fun id hid =>
        below id (List.mem_map_of_mem ((members id).1 hid)) n List.mem_cons_self
      obtain ⟨ids', held', increasing', members'⟩ := held.claim_greatest increasing bound
      refine ⟨ids', held', increasing', ?_⟩
      intro id
      simp [members', members]
    · refine ⟨ids, held.claim_elsewhere here n, increasing, ?_⟩
      intro id
      simp [members, here]

theorem chosen_sublist (cs : List (Nat × Cell V T)) :
    ((empty.claimAll cs).conflicts.map Conflict.chosen).Sublist (cs.map Prod.fst) := by
  induction cs using List.reverseRecOn with
  | nil => exact .slnil
  | append_singleton cs c ih =>
    rw [claimAll_concat, claim, List.map_append, List.map_append]
    apply ih.append
    cases h : (empty.claimAll cs).conflict? c.2 c.1 with
    | none => exact List.nil_sublist _
    | some k => simp [(conflict?_cell h).2]

end History

section Tables

variable {G : Grammar V T} {first : Firsts V T} {follow : Follows V T} {v : V} {a : Lookahead T}
  {id : Nat}

/-- Production `id` claims the cell of `v` at `a`: it is one of `v`, and `a` can begin its body, or
the body can vanish and `a` follows `v`. -/
def Claimant (G : Grammar V T) (first : Firsts V T) (follow : Follows V T) (v : V)
    (a : Lookahead T) (id : Nat) : Prop :=
  ∃ p, G.production? id = some p ∧ p.head = v ∧
    ((∃ t, a = .term t ∧ .term t ∈ first.ofSymbols p.body) ∨
      .eps ∈ first.ofSymbols p.body ∧ ∃ s, follow.get? v = some s ∧ a ∈ s)

theorem claimant_iff : Claimant G first follow v a id ↔
    ∃ p, G.production? id = some p ∧ p.head = v ∧ a ∈ claims first follow p := by
  apply exists_congr
  intro p
  refine and_congr_right fun _ => and_congr_right ?_
  rintro rfl
  rw [mem_claims, Firsts.Ahead, Follows.Says, Family.mem_members_iff]
  rfl

theorem ofSets_heldBy (G : Grammar V T) (first : Firsts V T) (follow : Follows V T) (v : V)
    (a : Lookahead T) : ∃ ids, (ofSets G first follow).HeldBy ⟨v, a⟩ ids ∧ ids.Pairwise (· < ·) ∧
      ∀ id, id ∈ ids ↔ Claimant G first follow v a id := by
  obtain ⟨ids, held, increasing, members⟩ :=
    exists_heldBy _ (claimed_sorted G first follow) ⟨v, a⟩
  rw [← ofSets_eq_claimAll] at held
  refine ⟨ids, held, increasing, ?_⟩
  intro id
  rw [members, mem_claimed, claimant_iff]

theorem exists_claimant (h : (ofSets G first follow).get? v a = some id) :
    ∃ p, G.production? id = some p ∧ p.head = v ∧ a ∈ claims first follow p := by
  obtain ⟨ids, held, _, members⟩ := ofSets_heldBy G first follow v a
  have last : ids.getLast? = some id := held.get?_eq.symm.trans h
  exact claimant_iff.1 ((members id).1 (List.mem_of_getLast? last))

theorem get?_eq_none_iff :
    (ofSets G first follow).get? v a = none ↔ ∀ id, ¬ Claimant G first follow v a id := by
  obtain ⟨ids, held, _, members⟩ := ofSets_heldBy G first follow v a
  rw [held.get?_eq, List.getLast?_eq_none_iff, List.eq_nil_iff_forall_not_mem]
  exact forall_congr' fun id => not_congr (members id)

theorem ofSets_isLL1_iff : (ofSets G first follow).isLL1 = true ↔
    ∀ v a i j, Claimant G first follow v a i → Claimant G first follow v a j → i = j := by
  rw [isLL1_iff]
  constructor
  · intro none v a i j hi hj
    obtain ⟨ids, held, _, members⟩ := ofSets_heldBy G first follow v a
    have record := held.record
    rw [none, List.filter_nil] at record
    have short := handovers_eq_nil_iff.1 record.symm
    have hi := (members i).2 hi
    have hj := (members j).2 hj
    match ids, short, hi, hj with
    | [k], _, hi, hj => rw [List.mem_singleton.1 hi, List.mem_singleton.1 hj]
  · intro single
    rw [List.eq_nil_iff_forall_not_mem]
    intro c hc
    obtain ⟨ids, held, increasing, members⟩ := ofSets_heldBy G first follow c.cell.var c.cell.ahead
    have recorded : c ∈ handovers c.cell ids := by
      have : c ∈ (ofSets G first follow).conflicts.filter fun d => d.cell = c.cell :=
        List.mem_filter.2 ⟨hc, by simp⟩
      rw [held.record] at this
      exact this
    match ids, increasing, members, recorded with
    | i :: j :: _, increasing, members, _ =>
      have hi := (members i).1 List.mem_cons_self
      have hj := (members j).1 (List.mem_cons_of_mem _ List.mem_cons_self)
      have := List.rel_of_pairwise_cons increasing List.mem_cons_self
      have := single _ _ i j hi hj
      omega

theorem get?_of_mem_claims (ll1 : (ofSets G first follow).isLL1 = true) {p : Production V T}
    (hp : G.production? id = some p) (ha : a ∈ claims first follow p) :
    (ofSets G first follow).get? p.head a = some id := by
  obtain ⟨ids, held, increasing, members⟩ := ofSets_heldBy G first follow p.head a
  have claim : Claimant G first follow p.head a id := claimant_iff.2 ⟨p, hp, rfl, ha⟩
  have alone : ∀ j ∈ ids, j = id := fun j hj =>
    ofSets_isLL1_iff.1 ll1 _ _ _ _ ((members j).1 hj) claim
  have last : ids.getLast? = some id := (getLast?_eq_some_iff_greatest increasing).2
    ⟨(members id).2 claim, fun j hj => Nat.le_of_eq (alone j hj)⟩
  exact held.get?_eq.trans last

theorem Claimant.imp {first' : Firsts V T} {follow' : Follows V T}
    (firsts : ∀ v f, f ∈ Family.members first.sets v → f ∈ Family.members first'.sets v)
    (follows : ∀ v a, a ∈ Family.members follow.sets v → a ∈ Family.members follow'.sets v)
    (h : Claimant G first follow v a id) : Claimant G first' follow' v a id := by
  obtain ⟨p, hp, head, ha⟩ := claimant_iff.1 h
  refine claimant_iff.2 ⟨p, hp, head, ?_⟩
  rw [mem_claims] at ha ⊢
  refine ha.imp (fun f => ?_) (follows p.head)
  exact Firsts.leading_mono (fun v => firsts v .eps) fun v => firsts v f

/-- Sets with the same members, in whatever order, leave the same in every cell and on record for
it. -/
theorem ofSets_agree {first' : Firsts V T} {follow' : Follows V T}
    (firsts : ∀ v f, f ∈ Family.members first.sets v ↔ f ∈ Family.members first'.sets v)
    (follows : ∀ v a, a ∈ Family.members follow.sets v ↔ a ∈ Family.members follow'.sets v)
    (v : V) (a : Lookahead T) :
    (ofSets G first follow).get? v a = (ofSets G first' follow').get? v a ∧
      (ofSets G first follow).conflicts.filter (fun c => c.cell = ⟨v, a⟩) =
        (ofSets G first' follow').conflicts.filter (fun c => c.cell = ⟨v, a⟩) := by
  have same : ∀ id, Claimant G first follow v a id ↔ Claimant G first' follow' v a id := by
    intro id
    constructor
    · exact Claimant.imp (fun v f => (firsts v f).1) fun v a => (follows v a).1
    · exact Claimant.imp (fun v f => (firsts v f).2) fun v a => (follows v a).2
  obtain ⟨ids, held, increasing, members⟩ := ofSets_heldBy G first follow v a
  obtain ⟨ids', held', increasing', members'⟩ := ofSets_heldBy G first' follow' v a
  obtain rfl : ids = ids' := increasing.eq_of_mem_iff increasing' fun id => by
    rw [members, members', same]
  exact ⟨held.get?_eq.trans held'.get?_eq.symm, held.record.trans held'.record.symm⟩

/-- The table is exact, for whatever sets it is made from. A cell holds the last of its claimants,
is listed once, and has passed from each claimant to the next; conflicts are recorded in the order
of the productions that caused them. -/
theorem ofSets_exact (G : Grammar V T) (first : Firsts V T) (follow : Follows V T) :
    (∀ v a id, (ofSets G first follow).get? v a = some id ↔
      Claimant G first follow v a id ∧ ∀ j, Claimant G first follow v a j → j ≤ id) ∧
    (∀ v a, (ofSets G first follow).get? v a = none ↔ ∀ id, ¬ Claimant G first follow v a id) ∧
    (∀ v a id, (ofSets G first follow).iter.count (v, a, id) =
      if (ofSets G first follow).get? v a = some id then 1 else 0) ∧
    (∀ v a, ∃ ids, ids.Pairwise (· < ·) ∧ (∀ id, id ∈ ids ↔ Claimant G first follow v a id) ∧
      (ofSets G first follow).conflicts.filter (fun c => c.cell = ⟨v, a⟩) =
        handovers ⟨v, a⟩ ids) ∧
    ((ofSets G first follow).conflicts.map Conflict.chosen).Pairwise (· ≤ ·) ∧
    ((ofSets G first follow).isLL1 = true ↔
      ∀ v a i j, Claimant G first follow v a i → Claimant G first follow v a j → i = j) := by
  refine ⟨?_, fun v a => get?_eq_none_iff, ?_, ?_, ?_, ofSets_isLL1_iff⟩
  · intro v a id
    obtain ⟨ids, held, increasing, members⟩ := ofSets_heldBy G first follow v a
    rw [held.get?_eq, getLast?_eq_some_iff_greatest increasing]
    simp only [members]
  · intro v a id
    rw [(nodup_iter _).count]
    exact if_congr mem_iter rfl rfl
  · intro v a
    obtain ⟨ids, held, increasing, members⟩ := ofSets_heldBy G first follow v a
    exact ⟨ids, increasing, members, held.record⟩
  · rw [ofSets_eq_claimAll]
    exact (claimed_sorted G first follow).sublist (chosen_sublist _)

end Tables

end TopDown.Table
