import Mathlib.Logic.Function.Basic

/-!
This module contains the discipline of a mutex: whoever is at a place where the mutex is held is
recorded as its owner. A step of one thread keeps the discipline when it keeps the hold, takes the
mutex while it is free, or gives up its own hold.
-/

namespace Mutex

variable {ι : Type u} {holds holds' : ι → Bool} {m m' : Option ι} {i j : ι}

def Excl (holds : ι → Bool) (m : Option ι) : Prop := ∀ i, holds i = true → m = some i

namespace Excl

theorem unique (h : Excl holds m) (hi : holds i = true) (hj : holds j = true) : i = j := by
  have := h i hi
  rw [h j hj] at this
  exact (Option.some.inj this).symm

theorem not_of_ne (h : Excl holds m) (hm : m ≠ some i) : holds i = false := by
  cases hi : holds i with
  | false => rfl
  | true => exact absurd (h i hi) hm

theorem not_of_free (h : Excl holds none) (i : ι) : holds i = false := h.not_of_ne nofun

theorem keep (h : Excl holds m) (hholds : ∀ j, holds' j = true → holds j = true) : Excl holds' m := by
  intro j hj
  exact h j (hholds j hj)

theorem take (h : Excl holds none) (hne : ∀ j, j ≠ i → holds' j = holds j) : Excl holds' (some i) := by
  intro j hj
  by_cases heq : j = i
  . rw [heq]
  . rw [hne j heq, h.not_of_free] at hj
    cases hj

theorem release (h : Excl holds m) (hi : holds i = true) (hne : ∀ j, j ≠ i → holds' j = holds j)
    (hout : holds' i = false)
    : Excl holds' m' := by
  intro j hj
  by_cases heq : j = i
  . rw [heq, hout] at hj
    cases hj
  . rw [hne j heq] at hj
    exact absurd (h.unique hj hi) heq

end Excl

end Mutex
