import Mathlib

/-! Functions that are changed at one point. -/
namespace Update

open Function

variable {A B C : Type} [DecidableEq A] {g : A → B} {a i : A} {b v : B}

/-- What the new value has in common with the old one, all values have. -/
theorem keeps (f : B → C) (hf : f b = f (g a)) (i : A) : f (update g a b i) = f (g i) := by
  by_cases hi : i = a
  · rw [hi, update_self, hf]
  · rw [update_of_ne hi]

end Update
