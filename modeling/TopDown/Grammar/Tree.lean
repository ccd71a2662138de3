import TopDown.Grammar.Derivation

namespace TopDown

inductive Tree (V T : Type) where
  | leaf (t : T)
  | node (v : V) (children : List (Tree V T))

namespace Tree

variable {V T : Type}

def root : Tree V T → Sym V T
  | leaf t => .term t
  | node v _ => .var v

mutual

def yield : Tree V T → List T
  | leaf t => [t]
  | node _ children => yieldAll children

def yieldAll : List (Tree V T) → List T
  | [] => []
  | c :: cs => yield c ++ yieldAll cs

end

mutual

/-- The number of variables on the longest path: every variable stands at a depth below it, the root
at depth zero. -/
def height : Tree V T → Nat
  | leaf _ => 0
  | node _ children => heightAll children + 1

def heightAll : List (Tree V T) → Nat
  | [] => 0
  | c :: cs => max (height c) (heightAll cs)

end

/-- The variable `v` stands in the tree at depth `d`; the root is at depth zero. -/
inductive Stands : Tree V T → V → Nat → Prop
  | here (v : V) (children : List (Tree V T)) : Stands (.node v children) v 0
  | under {u v : V} {children : List (Tree V T)} {c : Tree V T} {d : Nat} :
      c ∈ children → Stands c v d → Stands (.node u children) v (d + 1)

/-- Every node stands over one of its variable's bodies, epsilons left out. -/
inductive IsValid (G : Grammar V T) : Tree V T → Prop
  | leaf (t : T) : IsValid G (.leaf t)
  | node {p : Production V T} {children : List (Tree V T)} :
      p ∈ G.productions → children.map root = erase p.body → (∀ c ∈ children, IsValid G c) →
      IsValid G (.node p.head children)

theorem heightAll_le_iff {cs : List (Tree V T)} {n : Nat} :
    heightAll cs ≤ n ↔ ∀ c ∈ cs, height c ≤ n := by
  induction cs with
  | nil => simp [heightAll]
  | cons c cs ih => rw [heightAll, Nat.max_le, List.forall_mem_cons, ih]

theorem height_le_heightAll {c : Tree V T} {cs : List (Tree V T)} (h : c ∈ cs) :
    height c ≤ heightAll cs := heightAll_le_iff.1 (Nat.le_refl _) c h

theorem height_le_iff {t : Tree V T} {n : Nat} :
    t.height ≤ n ↔ ∀ v d, t.Stands v d → d < n := by
  constructor
  · intro h v d stands
    induction stands generalizing n with
    | here v cs =>
      rw [height] at h
      omega
    | @under u v cs c d hc _ ih =>
      have := height_le_heightAll hc
      rw [height] at h
      exact Nat.lt_of_lt_of_le (Nat.succ_lt_succ (ih this)) h
  · intro bound
    induction n generalizing t with
    | zero =>
      cases t with
      | leaf a => exact Nat.le_refl _
      | node v cs => exact absurd (bound v 0 (.here v cs)) (Nat.lt_irrefl 0)
    | succ n ih =>
      cases t with
      | leaf a => exact Nat.zero_le _
      | node v cs =>
        rw [height]
        apply Nat.succ_le_succ
        rw [heightAll_le_iff]
        intro c hc
        exact ih fun u d stands => Nat.lt_of_succ_lt_succ (bound u (d + 1) (.under hc stands))

end Tree

end TopDown
