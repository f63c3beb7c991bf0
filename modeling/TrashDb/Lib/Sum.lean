import Mathlib.Algebra.BigOperators.Group.Finset.Basic
import Mathlib.Algebra.BigOperators.Group.Finset.Piecewise

/-!
This module contains how a sum over the members of a finite set changes if the state of one member is
replaced, or if a member is added.
-/

namespace Finset

open Function

variable {κ : Type u} {α : Type v} [DecidableEq κ]

theorem sum_update_add {s : Finset κ} {k : κ} (hk : k ∈ s) (φ : κ → α) (a : α) (f : α → Nat)
    : ∑ i ∈ s, f (update φ k a i) + f (φ k) = ∑ i ∈ s, f (φ i) + f a := by
  have hcomp : (fun i => f (update φ k a i)) = update (fun i => f (φ i)) k (f a) := by
    funext i
    rw [update_apply, update_apply]
    split <;> rfl
  have herase := sum_erase_add s (fun i => f (φ i)) hk
  rw [hcomp, sum_update_of_mem hk, sdiff_singleton_eq_erase]
  omega

theorem sum_range_succ_update (n : Nat) (φ : Nat → α) (a : α) (f : α → Nat)
    : ∑ i ∈ range (n + 1), f (update φ n a i) = ∑ i ∈ range n, f (φ i) + f a := by
  rw [sum_range_succ, update_self]
  congr 1
  apply sum_congr rfl
  intro i hi
  rw [mem_range] at hi
  rw [update_of_ne (by omega)]

end Finset
