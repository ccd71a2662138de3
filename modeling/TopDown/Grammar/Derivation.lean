import Mathlib.Logic.Relation
import TopDown.Grammar.Basic

/-! What a grammar means. Bodies can be read in two ways, which differ only where a symbol stands
behind an epsilon: `erase` takes an epsilon for nothing, `cut` takes it for the end of the body. -/

namespace TopDown

variable {V T : Type}

def erase (body : List (Sym V T)) : List (Sym V T) := body.filter fun s => !s.isEps

def cut (body : List (Sym V T)) : List (Sym V T) := body.takeWhile fun s => !s.isEps

def Sym.ofWord (w : List T) : List (Sym V T) := w.map .term

namespace Grammar

/-- One variable is replaced by one of its bodies, as `read` reads it. -/
def Rewrites (G : Grammar V T) (read : List (Sym V T) → List (Sym V T))
    (x y : List (Sym V T)) : Prop :=
  ∃ p ∈ G.productions, ∃ α β, x = α ++ .var p.head :: β ∧ y = α ++ read p.body ++ β

def Derives (G : Grammar V T) (read : List (Sym V T) → List (Sym V T)) :
    List (Sym V T) → List (Sym V T) → Prop :=
  Relation.ReflTransGen (G.Rewrites read)

/-- The start variable derives `w`. -/
def Generates (G : Grammar V T) (w : List T) : Prop :=
  G.Derives erase [.var G.start] (Sym.ofWord w)

/-- Production `id` is applied to the leftmost variable. -/
def RewritesLeft (G : Grammar V T) (id : Nat) (x y : List (Sym V T)) : Prop :=
  ∃ p, G.production? id = some p ∧ ∃ (w : List T) (β : List (Sym V T)),
    x = Sym.ofWord w ++ .var p.head :: β ∧ y = Sym.ofWord w ++ erase p.body ++ β

/-- The productions `ids` are applied in turn, each to the leftmost variable. -/
inductive DerivesLeft (G : Grammar V T) : List Nat → List (Sym V T) → List (Sym V T) → Prop
  | refl (x : List (Sym V T)) : DerivesLeft G [] x x
  | step {id : Nat} {ids : List Nat} {x y z : List (Sym V T)} :
      G.RewritesLeft id x y → DerivesLeft G ids y z → DerivesLeft G (id :: ids) x z

/-- Behind an epsilon a body has nothing but epsilons. -/
def EpsilonLast (G : Grammar V T) : Prop :=
  ∀ p ∈ G.productions, ∀ α β, p.body = α ++ .eps :: β → ∀ s ∈ β, s = .eps

end Grammar

theorem erase_append (x y : List (Sym V T)) : erase (x ++ y) = erase x ++ erase y :=
  List.filter_append ..

theorem eps_not_mem_erase (body : List (Sym V T)) : Sym.eps ∉ erase body := by
  simp [erase, Sym.isEps]

/-- The two readings agree on bodies that end with their epsilons. -/
theorem cut_eq_erase {body : List (Sym V T)}
    (h : ∀ α β, body = α ++ .eps :: β → ∀ s ∈ β, s = .eps) : cut body = erase body := by
  induction body with
  | nil => rfl
  | cons s body ih =>
    cases s with
    | eps =>
      have hall := h [] body rfl
      have : erase body = [] := List.filter_eq_nil_iff.2 fun s hs => by simp [hall s hs, Sym.isEps]
      simpa [cut, erase, Sym.isEps] using this.symm
    | term t =>
      have := ih fun α β hb => h (.term t :: α) β (by rw [hb]; rfl)
      simpa [cut, erase, Sym.isEps] using this
    | var v =>
      have := ih fun α β hb => h (.var v :: α) β (by rw [hb]; rfl)
      simpa [cut, erase, Sym.isEps] using this

namespace Grammar

theorem RewritesLeft.rewrites {G : Grammar V T} {id : Nat} {x y : List (Sym V T)}
    (h : G.RewritesLeft id x y) : G.Rewrites erase x y := by
  obtain ⟨p, hp, w, β, hx, hy⟩ := h
  exact ⟨p, mem_productions_of_production? hp, _, β, hx, hy⟩

theorem DerivesLeft.derives {G : Grammar V T} {ids : List Nat} {x y : List (Sym V T)}
    (h : G.DerivesLeft ids x y) : G.Derives erase x y := by
  induction h with
  | refl x => exact .refl
  | step hstep _ ih => exact .head hstep.rewrites ih

end Grammar

end TopDown
