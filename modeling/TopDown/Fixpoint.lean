namespace TopDown

/-- A value that a further step does not enlarge, and the number of steps taken to see it. -/
structure Saturated (α : Type) where
  value : α
  passes : Nat

variable {α : Type}

/-- Repeats `step` until the size stays the same, at most `fuel` times after the first. -/
def saturate (size : α → Nat) (step : α → α) : Nat → α → Saturated α
  | 0, a => ⟨step a, 1⟩
  | fuel + 1, a =>
    let b := step a
    if size b = size a then ⟨b, 1⟩
    else
      let r := saturate size step fuel b
      ⟨r.value, r.passes + 1⟩

theorem saturate_induction {size : α → Nat} {step : α → α} {p : α → Prop}
    (hstep : ∀ a, p a → p (step a)) (fuel : Nat) {a : α} (ha : p a) :
    p (saturate size step fuel a).value := by
  induction fuel generalizing a with
  | zero => exact hstep a ha
  | succ n ih =>
    rw [saturate]
    split
    · exact hstep a ha
    · exact ih (hstep a ha)

/-- With fuel up to the bound on the size, the last pass has changed no size. -/
theorem exists_saturate_eq {size : α → Nat} {step : α → α} {p : α → Prop} {bound : Nat}
    (hstep : ∀ a, p a → p (step a)) (hgrow : ∀ a, p a → size a ≤ size (step a))
    (hbound : ∀ a, p a → size a ≤ bound) (fuel : Nat) {a : α} (ha : p a)
    (hfuel : bound ≤ size a + fuel) :
    ∃ b, p b ∧ (saturate size step fuel a).value = step b ∧ size (step b) = size b := by
  induction fuel generalizing a with
  | zero =>
    have := hgrow a ha
    have := hbound _ (hstep a ha)
    exact ⟨a, ha, rfl, by omega⟩
  | succ n ih =>
    rw [saturate]
    split
    · exact ⟨a, ha, rfl, ‹_›⟩
    · rename_i hne
      have := hgrow a ha
      exact ih (hstep a ha) (by omega)

end TopDown
