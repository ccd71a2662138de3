import TopDown.Proofs.Sentence

/-! The choices of a derivation tree, depth first and from left to right, are a script of words, one
for each variable. Fed with it the expansion goes along the tree and leaves what stood behind the
script. -/
namespace TopDown

namespace Source

/-- Fed with `words`, `f` draws just these and returns `a`. -/
def Consumes {α : Type} (f : Source → α × Source) (words : List UInt64) (a : α) : Prop :=
  ∀ script state drawn,
    f ⟨words ++ script, state, drawn⟩ = (a, ⟨script, state, drawn + words.length⟩)

/-- Each of `n + 1` indices is picked at once from some word. -/
def Reaches [Chooser Source] (n : Nat) : Prop :=
  ∀ i : Fin (n + 1), ∃ word : UInt64, Consumes (Chooser.pick n) [word] i

end Source

variable {V T : Type}

namespace Grammar

open Source (Consumes Reaches)

theorem consumes_expandBody {expand : V → Source → Except Obstacle (List T) × Source}
    {body : List (Sym V T)} {cs : List (Tree V T)} (roots : cs.map Tree.root = erase body)
    (steers : ∀ c ∈ cs, ∀ v, c.root = .var v → ∃ words, Consumes (expand v) words (.ok c.yield)) :
    ∃ words, Consumes (expandBody expand body) words (.ok (Tree.yieldAll cs)) := by
  induction body generalizing cs with
  | nil =>
    obtain rfl : cs = [] := List.map_eq_nil_iff.1 roots
    exact ⟨[], fun _ _ _ => rfl⟩
  | cons s body ih =>
    cases s with
    | eps => exact ih roots steers
    | term t =>
      obtain ⟨c, cs, rfl, root, roots⟩ := List.map_eq_cons_iff.1 roots
      obtain ⟨words, rest⟩ := ih roots fun d hd => steers d (List.mem_cons_of_mem c hd)
      refine ⟨words, fun script state drawn => ?_⟩
      cases c with
      | leaf a =>
        cases root
        simp [expandBody, rest script state drawn, Except.map, Tree.yieldAll, Tree.yield]
      | node _ _ => cases root
    | var v =>
      obtain ⟨c, cs, rfl, root, roots⟩ := List.map_eq_cons_iff.1 roots
      obtain ⟨front, here⟩ := steers c List.mem_cons_self v root
      obtain ⟨back, rest⟩ := ih roots fun d hd => steers d (List.mem_cons_of_mem c hd)
      refine ⟨front ++ back, fun script state drawn => ?_⟩
      have first := here (back ++ script) state drawn
      have second := rest script state (drawn + front.length)
      rw [List.append_assoc]
      simp [expandBody, first, second, Except.map, Tree.yieldAll, Nat.add_assoc]

variable [DecidableEq V] {G : Grammar V T}

section Steering

variable [Chooser Source]

theorem consumes_expand_succ (reach : ∀ n < G.productions.length, Reaches n) {p : Production V T}
    (hp : p ∈ G.productions) {depth : Nat} {words : List UInt64} {r : Except Obstacle (List T)}
    (body : Consumes (expandBody (G.expand depth) p.body) words r) :
    ∃ word, Consumes (G.expand (depth + 1) p.head) (word :: words) r := by
  obtain ⟨id, hid⟩ := exists_production? hp
  obtain ⟨i, chosen⟩ := List.mem_iff_getElem?.1 (mem_productionsOf.2 ⟨hid, rfl⟩)
  obtain ⟨hi, _⟩ := List.getElem?_eq_some_iff.1 chosen
  obtain ⟨n, count⟩ := Nat.exists_eq_succ_of_ne_zero (Nat.ne_zero_of_lt hi)
  have few : n < G.productions.length := by
    have := List.length_filter_le (fun e => decide (e.1.head = p.head)) G.numbered
    rw [← productionsOf_eq_filter, numbered, List.length_zipIdx] at this
    exact Nat.lt_of_lt_of_le (Nat.lt_of_lt_of_eq (Nat.lt_succ_self n) count.symm) this
  obtain ⟨word, picks⟩ := reach n few ⟨i, Nat.lt_of_lt_of_eq hi count⟩
  refine ⟨word, fun script state drawn => ?_⟩
  have picked := picks (words ++ script) state drawn
  rw [List.length_cons, Nat.add_comm words.length, ← Nat.add_assoc, ← body script state (drawn + 1)]
  exact expand_of_pick count chosen picked depth

/-- The expansion can be led along every derivation tree that the depth allows. -/
theorem consumes_expand (reach : ∀ n < G.productions.length, Reaches n) {depth : Nat}
    {t : Tree V T} (valid : t.IsValid G) {v : V} (root : t.root = .var v)
    (height : t.height ≤ depth) : ∃ words, Consumes (G.expand depth v) words (.ok t.yield) := by
  induction depth generalizing t v with
  | zero =>
    cases t with
    | leaf a => cases root
    | node u cs => exact absurd height (Nat.not_succ_le_zero _)
  | succ depth ih =>
    cases valid with
    | leaf a => cases root
    | @node p cs hp roots valid =>
      cases root
      have low := Tree.heightAll_le_iff.1 (Nat.le_of_succ_le_succ height)
      obtain ⟨words, body⟩ := consumes_expandBody roots
        fun c hc u rootC => ih (valid c hc) rootC (low c hc)
      obtain ⟨word, fed⟩ := consumes_expand_succ reach hp body
      exact ⟨word :: words, fed⟩

theorem generate_of_consumes {L : Limits} (allowed : L.isVoid = false) (tries : 1 ≤ L.attempts)
    {words : List UInt64} {w u : List T} (fed : Consumes (G.expand L.depth G.start) words (.ok w))
    (kept : L.keep? w = some u) (seed : UInt64) :
    (G.generate L (Source.ofSeed seed words)).1.result = .ok u := by
  obtain ⟨left, attempts⟩ := Nat.exists_eq_add_of_le' tries
  have first : G.expand L.depth G.start (Source.ofSeed seed words) =
      (.ok w, ⟨[], seed, 0 + words.length⟩) := by
    simpa [Source.ofSeed] using fed [] seed 0
  simp [generate, allowed, attempts, generateFrom, first, kept]

end Steering

/-- Every derivation tree within the limits can be the one that is made, however indices are picked
from words, if only each of them can be: on some script its yield is the sentence, or the first part
of it where it is too long and cut. -/
theorem exists_script [Chooser Source] (G : Grammar V T)
    (reach : ∀ n < G.productions.length, Reaches n) (L : Limits) (room : 1 ≤ L.max)
    (tries : 1 ≤ L.attempts) (bounds : L.overflow = .retry → L.min ≤ L.max) (t : Tree V T)
    (valid : t.IsValid G) (root : t.root = .var G.start)
    (depth : ∀ v d, t.Stands v d → d < L.depth) (long : L.min ≤ t.yield.length) :
    (t.yield.length ≤ L.max → ∃ words, ∀ seed,
      (G.generate L (Source.ofSeed seed words)).1.result = .ok t.yield) ∧
    (L.overflow = .truncate → L.max < t.yield.length → ∃ words, ∀ seed,
      (G.generate L (Source.ofSeed seed words)).1.result = .ok (t.yield.take L.max)) := by
  have allowed : L.isVoid = false := by
    rw [Bool.eq_false_iff, Ne, Limits.isVoid_iff]
    rintro (none | ⟨whole, short⟩)
    · omega
    · exact absurd (bounds whole) (Nat.not_le.2 short)
  obtain ⟨words, fed⟩ := consumes_expand reach valid root (Tree.height_le_iff.2 depth)
  constructor
  · intro fits
    have kept := Limits.keep?_eq_some_iff.2 ⟨long, Or.inl ⟨rfl, fits⟩⟩
    exact ⟨words, generate_of_consumes allowed tries fed kept⟩
  · intro truncates exceeds
    have kept := Limits.keep?_eq_some_iff.2 ⟨long, Or.inr ⟨truncates, exceeds, rfl⟩⟩
    exact ⟨words, generate_of_consumes allowed tries fed kept⟩

end Grammar

namespace Source

def leastWord (n i : Nat) : Nat := (i * UInt64.size + (n - 1)) / n

section Words

variable {n i : Nat}

theorem leastWord_mul_eq (hi : i < n) :
    ∃ low < n, leastWord n i * n = i * UInt64.size + low := by
  have split := Nat.div_add_mod (i * UInt64.size + (n - 1)) n
  have rest := Nat.mod_lt (i * UInt64.size + (n - 1)) (Nat.zero_lt_of_lt hi)
  rw [Nat.mul_comm] at split
  refine ⟨n - 1 - (i * UInt64.size + (n - 1)) % n, by omega, ?_⟩
  unfold leastWord
  omega

theorem leastWord_lt (small : n ≤ UInt64.size) (hi : i < n) : leastWord n i < UInt64.size := by
  obtain ⟨low, hlow, product⟩ := leastWord_mul_eq hi
  apply Nat.lt_of_mul_lt_mul_right (a := n)
  calc leastWord n i * n
    _ = i * UInt64.size + low := product
    _ < (i + 1) * UInt64.size := by
      rw [Nat.succ_mul]
      omega
    _ ≤ n * UInt64.size := Nat.mul_le_mul_right _ hi
    _ = UInt64.size * n := Nat.mul_comm ..

theorem pred_le_zone (hn : 0 < n) : n - 1 ≤ zone n := by
  unfold zone
  rw [Nat.shiftLeft_eq]
  have := Nat.le_mul_of_pos_right n (Nat.two_pow_pos (63 - n.log2))
  omega

theorem pick_eq (n : Nat) (s : Source) :
    Chooser.pick n s = pickWithin n (s.script.length + UInt64.size) s := rfl

/-- A word that counts gives the index in the high half of its product. -/
theorem pickWithin_eq {word : UInt64} {script : List UInt64} {state : UInt64} {drawn : Nat}
    {i : Fin (n + 1)} (high : word.toNat * (n + 1) / UInt64.size = i)
    (counts : word.toNat * (n + 1) % UInt64.size ≤ zone (n + 1)) (fuel : Nat) :
    pickWithin n fuel ⟨word :: script, state, drawn⟩ = (i, ⟨script, state, drawn + 1⟩) := by
  rw [pickWithin.eq_def]
  simp [next, high, counts]

/-- The least word for an index has a low half that is too small to be drawn again. -/
theorem reaches_of_lt (small : n < UInt64.size) : Reaches n := by
  intro i
  obtain ⟨low, hlow, product⟩ := leastWord_mul_eq i.isLt
  have word : (UInt64.ofNat (leastWord (n + 1) i)).toNat = leastWord (n + 1) i :=
    UInt64.toNat_ofNat_of_lt' (leastWord_lt small i.isLt)
  have below : low < UInt64.size := by omega
  refine ⟨UInt64.ofNat (leastWord (n + 1) i), fun script state drawn => ?_⟩
  rw [pick_eq]
  apply pickWithin_eq
  · rw [word, product, Nat.mul_comm, Nat.mul_add_div (Nat.zero_lt_of_lt small),
      Nat.div_eq_of_lt below, Nat.add_zero]
  · have : n ≤ zone (n + 1) := pred_le_zone (Nat.succ_pos n)
    rw [word, product, Nat.mul_comm, Nat.mul_add_mod, Nat.mod_eq_of_lt below]
    omega

end Words

end Source

namespace Grammar

open Source (Reaches)

def deepTree : Tree Char Char :=
  .node 'S' [.leaf 'a',
    .node 'A' [.leaf 'b', .node 'D' [.leaf 'd', .node 'B' []], .leaf 'a'],
    .node 'D' [.leaf 'd', .node 'B' []]]

theorem deepTree_valid : deepTree.IsValid sampleGrammar := by
  have leaf : ∀ c, (Tree.leaf c).IsValid sampleGrammar := Tree.IsValid.leaf
  have b : (Tree.node 'B' []).IsValid sampleGrammar :=
    .node (p := ⟨'B', [.eps]⟩) (by decide) rfl (by simp)
  have d : (Tree.node 'D' [.leaf 'd', .node 'B' []]).IsValid sampleGrammar :=
    .node (p := ⟨'D', [.term 'd', .var 'B']⟩) (by decide) rfl (by simp [leaf, b])
  have a : (Tree.node 'A' [.leaf 'b', .node 'D' [.leaf 'd', .node 'B' []], .leaf 'a']).IsValid
      sampleGrammar :=
    .node (p := ⟨'A', [.term 'b', .var 'D', .term 'a']⟩) (by decide) rfl (by simp [leaf, d])
  exact .node (p := ⟨'S', [.term 'a', .var 'A', .var 'D']⟩) (by decide) rfl (by simp [leaf, a, d])

/-- With room for just its five terminals and four variables, the derivation of `abdad` can be made
in the only attempt; with room for three terminals the first three are kept. -/
theorem sample_scripts : deepTree.IsValid sampleGrammar ∧ (∀ v d, deepTree.Stands v d → d < 4) ∧
    (∃ words, ∀ seed, (sampleGrammar.generate
      { min := 5, max := 5, depth := 4, attempts := 1, overflow := .retry }
      (Source.ofSeed seed words)).1.result = .ok ['a', 'b', 'd', 'a', 'd']) ∧
    ∃ words, ∀ seed, (sampleGrammar.generate { min := 5, max := 3, depth := 4, attempts := 1 }
      (Source.ofSeed seed words)).1.result = .ok ['a', 'b', 'd'] := by
  have reach : ∀ n < sampleGrammar.productions.length, Reaches n := by
    intro n hn
    have : sampleGrammar.productions.length = 9 := by decide
    exact Source.reaches_of_lt (Nat.lt_trans hn (this ▸ by decide))
  have depth : ∀ v d, deepTree.Stands v d → d < 4 :=
    Tree.height_le_iff.1 (by simp [deepTree, Tree.height, Tree.heightAll])
  have whole := (exists_script sampleGrammar reach
    { min := 5, max := 5, depth := 4, attempts := 1, overflow := .retry } (by decide) (by decide)
    (by decide) deepTree deepTree_valid rfl depth (by decide)).1 (by decide)
  have front := (exists_script sampleGrammar reach
    { min := 5, max := 3, depth := 4, attempts := 1 } (by decide) (by decide)
    (by decide) deepTree deepTree_valid rfl depth (by decide)).2 rfl (by decide)
  exact ⟨deepTree_valid, depth, whole, front⟩

end Grammar

end TopDown
