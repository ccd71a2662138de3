import TopDown.Grammar.Derivation

namespace TopDown

variable {V T : Type}

@[simp] theorem erase_term (t : T) (x : List (Sym V T)) :
    erase (.term t :: x) = .term t :: erase x := rfl

@[simp] theorem erase_var (v : V) (x : List (Sym V T)) :
    erase (.var v :: x) = .var v :: erase x := rfl

@[simp] theorem erase_eps (x : List (Sym V T)) : erase (.eps :: x) = erase x := rfl

@[simp] theorem cut_nil : cut ([] : List (Sym V T)) = [] := rfl

@[simp] theorem cut_term (t : T) (x : List (Sym V T)) : cut (.term t :: x) = .term t :: cut x := rfl

@[simp] theorem cut_var (v : V) (x : List (Sym V T)) : cut (.var v :: x) = .var v :: cut x := rfl

@[simp] theorem cut_eps (x : List (Sym V T)) : cut (.eps :: x) = [] := rfl

theorem eps_not_mem_cut (body : List (Sym V T)) : Sym.eps ∉ cut body := by
  induction body with
  | nil => simp
  | cons s body ih =>
    cases s with
    | term t => simpa using ih
    | var v => simpa using ih
    | eps => simp

theorem Sym.ofWord_append (u w : List T) :
    (ofWord (u ++ w) : List (Sym V T)) = ofWord u ++ ofWord w := List.map_append

theorem length_erase_le (body : List (Sym V T)) : (erase body).length ≤ body.length :=
  List.length_filter_le ..

/-- Behind an epsilon `x` has nothing but epsilons. -/
def EndsInEps (x : List (Sym V T)) : Prop :=
  ∀ α β, x = α ++ .eps :: β → ∀ s ∈ β, s = .eps

theorem EndsInEps.tail {s : Sym V T} {x : List (Sym V T)} (h : EndsInEps (s :: x)) :
    EndsInEps x := by
  intro α β hx
  exact h (s :: α) β (by rw [hx, List.cons_append])

theorem EndsInEps.behind {x y : List (Sym V T)} (h : EndsInEps (x ++ y)) : EndsInEps y := by
  induction x with
  | nil => exact h
  | cons s x ih => exact ih h.tail

theorem endsInEps_eps {x : List (Sym V T)} : EndsInEps (.eps :: x) ↔ ∀ s ∈ x, s = .eps := by
  constructor
  · intro h
    exact h [] x rfl
  · intro all α β hx s hs
    have hs' : s ∈ Sym.eps :: x := hx ▸ List.mem_append_right α (List.mem_cons_of_mem _ hs)
    rcases List.mem_cons.1 hs' with rfl | hs'
    · rfl
    · exact all s hs'

theorem endsInEps_cons {s : Sym V T} {x : List (Sym V T)} (hs : s ≠ .eps) :
    EndsInEps (s :: x) ↔ EndsInEps x := by
  refine ⟨EndsInEps.tail, ?_⟩
  intro h α β hx
  cases α with
  | nil => exact absurd (List.cons.inj hx).1 hs
  | cons _ α => exact h α β (List.cons.inj hx).2

theorem endsInEps_iff {x : List (Sym V T)} :
    EndsInEps x ↔ ∀ s ∈ x.dropWhile fun s => !s.isEps, s = .eps := by
  induction x with
  | nil => simp [EndsInEps]
  | cons s x ih =>
    cases s with
    | term t => rw [endsInEps_cons (by simp), ih, List.dropWhile_cons_of_pos rfl]
    | var v => rw [endsInEps_cons (by simp), ih, List.dropWhile_cons_of_pos rfl]
    | eps => simp [endsInEps_eps, Sym.isEps]

theorem EndsInEps.cut_eq {x : List (Sym V T)} (h : EndsInEps x) : cut x = erase x := cut_eq_erase h

namespace Grammar

theorem exists_production? {G : Grammar V T} {p : Production V T} (hp : p ∈ G.productions) :
    ∃ id, G.production? id = some p := List.mem_iff_getElem?.1 hp

variable {G : Grammar V T} {read : List (Sym V T) → List (Sym V T)} {x y z : List (Sym V T)}

theorem rewrites_head {p : Production V T} (hp : p ∈ G.productions) (β : List (Sym V T)) :
    G.Rewrites read (.var p.head :: β) (read p.body ++ β) :=
  ⟨p, hp, [], β, rfl, rfl⟩

theorem Rewrites.context (h : G.Rewrites read x y) (γ δ : List (Sym V T)) :
    G.Rewrites read (γ ++ x ++ δ) (γ ++ y ++ δ) := by
  obtain ⟨p, hp, α, β, rfl, rfl⟩ := h
  exact ⟨p, hp, γ ++ α, β ++ δ, by simp, by simp⟩

theorem Derives.trans (h : G.Derives read x y) (h' : G.Derives read y z) : G.Derives read x z :=
  Relation.ReflTransGen.trans h h'

theorem Rewrites.derives (h : G.Rewrites read x y) : G.Derives read x y := .single h

theorem derives_body {p : Production V T} (hp : p ∈ G.productions) :
    G.Derives read [.var p.head] (read p.body) := by
  have step : G.Rewrites read [.var p.head] (read p.body ++ []) := rewrites_head hp []
  rw [List.append_nil] at step
  exact step.derives

theorem Derives.context (h : G.Derives read x y) (γ δ : List (Sym V T)) :
    G.Derives read (γ ++ x ++ δ) (γ ++ y ++ δ) := by
  induction h with
  | refl => exact .refl
  | tail _ last ih => exact ih.tail (last.context γ δ)

theorem Derives.append_left (h : G.Derives read x y) (γ : List (Sym V T)) :
    G.Derives read (γ ++ x) (γ ++ y) := by
  simpa using h.context γ []

theorem Derives.append_right (h : G.Derives read x y) (δ : List (Sym V T)) :
    G.Derives read (x ++ δ) (y ++ δ) := by
  simpa using h.context [] δ

theorem Derives.vanish_append (h : G.Derives read x []) (y : List (Sym V T)) :
    G.Derives read (x ++ y) y := h.append_right y

theorem Rewrites.eps_not_mem (clean : ∀ body, Sym.eps ∉ read body) (h : G.Rewrites read x y)
    (hx : Sym.eps ∉ x) : Sym.eps ∉ y := by
  obtain ⟨p, hp, α, β, rfl, rfl⟩ := h
  have := clean p.body
  simp_all

theorem Derives.eps_not_mem (clean : ∀ body, Sym.eps ∉ read body) (h : G.Derives read x y)
    (hx : Sym.eps ∉ x) : Sym.eps ∉ y := by
  induction h with
  | refl => exact hx
  | tail _ last ih => exact last.eps_not_mem clean ih

theorem EpsilonLast.ends (h : G.EpsilonLast) {p : Production V T} (hp : p ∈ G.productions) :
    EndsInEps p.body := h p hp

instance [DecidableEq V] [DecidableEq T] : Decidable G.EpsilonLast :=
  decidable_of_iff
    (∀ p ∈ G.productions, ∀ s ∈ p.body.dropWhile fun s : Sym V T => !s.isEps, s = .eps)
    (forall₂_congr fun _ _ => endsInEps_iff.symm)

theorem EpsilonLast.rewrites_head (h : G.EpsilonLast) {p : Production V T} (hp : p ∈ G.productions)
    (β : List (Sym V T)) : G.Rewrites cut (.var p.head :: β) (erase p.body ++ β) :=
  (h.ends hp).cut_eq ▸ Grammar.rewrites_head hp β

/-- Where bodies end with their epsilons, the two readings derive the same. -/
theorem EpsilonLast.derives_cut_iff (h : G.EpsilonLast) :
    G.Derives cut x y ↔ G.Derives erase x y := by
  have same : G.Rewrites cut = G.Rewrites erase := by
    funext u v
    apply propext
    constructor
    · rintro ⟨p, hp, α, β, hu, hv⟩
      exact ⟨p, hp, α, β, hu, by rw [← cut_eq_erase (h p hp), hv]⟩
    · rintro ⟨p, hp, α, β, hu, hv⟩
      exact ⟨p, hp, α, β, hu, by rw [cut_eq_erase (h p hp), hv]⟩
  rw [Derives, Derives, same]

/-- What `x` can begin with: a terminal that a derived form has in front, or nothing at all. -/
def Begins (G : Grammar V T) (read : List (Sym V T) → List (Sym V T)) (x : List (Sym V T)) :
    First T → Prop
  | .term t => ∃ β, G.Derives read x (.term t :: β)
  | .eps => G.Derives read x []

theorem Begins.of_derives {f : First T} (h : G.Derives read x y) (hy : G.Begins read y f) :
    G.Begins read x f := by
  cases f with
  | term t =>
    obtain ⟨β, hβ⟩ := hy
    exact ⟨β, h.trans hβ⟩
  | eps => exact h.trans hy

theorem Begins.term_append {t : T} (h : G.Begins read x (.term t)) (y : List (Sym V T)) :
    G.Begins read (x ++ y) (.term t) := by
  obtain ⟨β, hβ⟩ := h
  exact ⟨β ++ y, hβ.append_right y⟩

theorem EpsilonLast.begins_cut_iff (h : G.EpsilonLast) {f : First T} :
    G.Begins cut x f ↔ G.Begins erase x f := by
  cases f with
  | term t => exact exists_congr fun β => h.derives_cut_iff
  | eps => exact h.derives_cut_iff

/-- Leftmost steps lead from `x` past the terminals `w` to `y`, by the productions `ids`. -/
inductive Leads (G : Grammar V T) :
    List (Sym V T) → List Nat → List T → List (Sym V T) → Prop
  | refl (x : List (Sym V T)) : Leads G x [] [] x
  | pass {t : T} {x y : List (Sym V T)} {ids : List Nat} {w : List T} :
      Leads G x ids w y → Leads G (.term t :: x) ids (t :: w) y
  | apply {id : Nat} {p : Production V T} {x y : List (Sym V T)} {ids : List Nat} {w : List T} :
      G.production? id = some p → Leads G (erase p.body ++ x) ids w y →
      Leads G (.var p.head :: x) (id :: ids) w y

variable {ids : List Nat} {w : List T}

theorem RewritesLeft.cons_term {id : Nat} (h : G.RewritesLeft id x y) (t : T) :
    G.RewritesLeft id (.term t :: x) (.term t :: y) := by
  obtain ⟨p, hp, u, β, rfl, rfl⟩ := h
  exact ⟨p, hp, t :: u, β, rfl, rfl⟩

theorem DerivesLeft.cons_term (h : G.DerivesLeft ids x y) (t : T) :
    G.DerivesLeft ids (.term t :: x) (.term t :: y) := by
  induction h with
  | refl x => exact .refl _
  | step first _ ih => exact .step (first.cons_term t) ih

theorem Leads.derivesLeft (h : G.Leads x ids w y) : G.DerivesLeft ids x (Sym.ofWord w ++ y) := by
  induction h with
  | refl x => exact .refl x
  | pass _ ih => exact ih.cons_term _
  | apply hid _ ih => exact .step ⟨_, hid, [], _, rfl, rfl⟩ ih

theorem Leads.derives (h : G.Leads x ids w y) : G.Derives erase x (Sym.ofWord w ++ y) :=
  h.derivesLeft.derives

theorem leads_ofWord (w : List T) (y : List (Sym V T)) :
    G.Leads (Sym.ofWord w ++ y) [] w y := by
  induction w with
  | nil => exact .refl y
  | cons t w ih => exact .pass ih

theorem Leads.of_rewritesLeft {id : Nat} (hx : G.RewritesLeft id x y) (h : G.Leads y ids w []) :
    G.Leads x (id :: ids) w [] := by
  obtain ⟨p, hid, u, β, rfl, rfl⟩ := hx
  induction u generalizing w with
  | nil => exact .apply hid h
  | cons t u ih =>
    cases h with
    | pass h => exact (ih h).pass

theorem DerivesLeft.leads (h : G.DerivesLeft ids x (Sym.ofWord w)) : G.Leads x ids w [] := by
  generalize hz : Sym.ofWord w = z at h
  induction h with
  | refl x =>
    rw [← hz, ← List.append_nil (Sym.ofWord w)]
    exact leads_ofWord w []
  | step first _ ih => exact (ih hz).of_rewritesLeft first

/-- A step is made at the first symbol, or the first symbol stays. -/
theorem Rewrites.head_or_tail (h : G.Rewrites read x z) :
    (∃ id p β, G.production? id = some p ∧ x = .var p.head :: β ∧ z = read p.body ++ β) ∨
      ∃ s x' z', x = s :: x' ∧ z = s :: z' ∧ G.Rewrites read x' z' := by
  obtain ⟨p, hp, α, β, rfl, rfl⟩ := h
  cases α with
  | nil =>
    obtain ⟨id, hid⟩ := exists_production? hp
    exact Or.inl ⟨id, p, β, hid, rfl, rfl⟩
  | cons s α => exact Or.inr ⟨s, _, _, rfl, rfl, p, hp, α, β, rfl, rfl⟩

/-- A step somewhere can be put off until it is a leftmost one, or it is not needed to get past `w`
and to uncover what then stands in front. -/
theorem Leads.of_rewrites (hx : G.Rewrites erase x z) (h : G.Leads z ids w y) :
    ∃ ids' y', G.Leads x ids' w y' ∧ y'.head? = y.head? := by
  induction h generalizing x with
  | refl z =>
    rcases hx.head_or_tail with ⟨id, p, β, hid, rfl, rfl⟩ | ⟨s, x', z', rfl, rfl, _⟩
    · exact ⟨_, _, .apply hid (.refl _), rfl⟩
    · exact ⟨_, _, .refl _, rfl⟩
  | @pass t z y ids w h ih =>
    rcases hx.head_or_tail with ⟨id, p, β, hid, rfl, hz⟩ | ⟨s, x', z', rfl, hz, hx'⟩
    · have whole : G.Leads (.term t :: z) ids (t :: w) y := .pass h
      rw [hz] at whole
      exact ⟨_, _, .apply hid whole, rfl⟩
    · obtain ⟨rfl, rfl⟩ := List.cons.inj hz
      obtain ⟨ids', y', h', same⟩ := ih hx'
      exact ⟨ids', y', .pass h', same⟩
  | @apply _ q z y ids w hid h ih =>
    rcases hx.head_or_tail with ⟨id, p, β, hid', rfl, hz⟩ | ⟨s, x', z', rfl, hz, hx'⟩
    · have whole := Leads.apply hid h
      rw [hz] at whole
      exact ⟨_, _, .apply hid' whole, rfl⟩
    · obtain ⟨rfl, rfl⟩ := List.cons.inj hz
      have inner := hx'.context (erase q.body) []
      simp only [List.append_nil] at inner
      obtain ⟨ids', y', h', same⟩ := ih inner
      exact ⟨_, y', .apply hid h', same⟩

theorem exists_leads (h : G.Derives erase x (Sym.ofWord w ++ y)) :
    ∃ ids y', G.Leads x ids w y' ∧ y'.head? = y.head? := by
  induction h using Relation.ReflTransGen.head_induction_on with
  | refl => exact ⟨[], y, leads_ofWord w y, rfl⟩
  | head first _ ih =>
    obtain ⟨ids, y', h', same⟩ := ih
    obtain ⟨ids', y'', h'', same'⟩ := h'.of_rewrites first
    exact ⟨ids', y'', h'', same'.trans same⟩

theorem exists_leads_to_end (h : G.Derives erase x (Sym.ofWord w)) :
    ∃ ids, G.Leads x ids w [] := by
  obtain ⟨ids, y, hy, empty⟩ := exists_leads (y := []) (by simpa using h)
  have : y = [] := List.head?_eq_none_iff.1 empty
  exact ⟨ids, this ▸ hy⟩

theorem exists_leads_to_term {t : T} {β : List (Sym V T)} (h : G.Derives erase x (.term t :: β)) :
    ∃ ids γ, G.Leads x ids [] (.term t :: γ) := by
  obtain ⟨ids, y, hy, front⟩ := exists_leads (w := []) (y := .term t :: β) h
  obtain ⟨γ, rfl⟩ := List.head?_eq_some_iff.1 front
  exact ⟨ids, γ, hy⟩

end Grammar

end TopDown
