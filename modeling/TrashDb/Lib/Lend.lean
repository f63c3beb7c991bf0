import Mathlib.Data.List.Perm.Basic
import Mathlib.Data.List.Nodup

/-!
This module contains a fixed number of items, each of which is free or lent. An item is lent when it is
taken from the free ones, and free again when it is given back.
-/

namespace Lend

variable {α : Type u} {n : Nat} {free lent : List α} {a : α}

theorem perm_giveBack [DecidableEq α] (hnodup : lent.Nodup) (ha : a ∈ lent)
    : (free ++ lent).Perm (a :: free ++ lent.filter (· != a)) := by
  rw [← hnodup.erase_eq_filter]
  exact ((List.perm_cons_erase ha).append_left free).trans List.perm_middle

structure Conserved (n : Nat) (free lent : List α) : Prop where
  nodup : (free ++ lent).Nodup
  length : (free ++ lent).length = n

namespace Conserved

theorem perm {free' lent' : List α} (h : Conserved n free lent) (hperm : (free' ++ lent').Perm (free ++ lent))
    : Conserved n free' lent' :=
  ⟨hperm.nodup_iff.mpr h.nodup, hperm.length_eq.trans h.length⟩

theorem length_lt (h : Conserved n free lent) (ha : a ∈ lent) : free.length < n := by
  have hpos := List.length_pos_of_mem ha
  have hlen := h.length
  rw [List.length_append] at hlen
  omega

theorem not_mem_lent (h : Conserved n free lent) (ha : a ∈ free) : a ∉ lent :=
  fun hlent => (List.nodup_append.mp h.nodup).2.2 a ha a hlent rfl

end Conserved

end Lend
