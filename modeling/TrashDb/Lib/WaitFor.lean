import Mathlib.Logic.Relation

/-!
This module contains a rule for wait-for graphs. A party on a cycle is waited for and waits itself. If
the rank goes down along every edge between two such parties then there is no cycle.
-/

namespace WaitFor

open Relation

variable {α : Type u} {r : α → α → Prop}

theorem exists_of_transGen {a b : α} (h : TransGen r a b) : (∃ c, r a c) ∧ ∃ c, r c b := by
  constructor
  . obtain ⟨c, hc, _⟩ := TransGen.head'_iff.mp h
    exact ⟨c, hc⟩
  . obtain ⟨c, _, hc⟩ := TransGen.tail'_iff.mp h
    exact ⟨c, hc⟩

theorem not_cycle (rank : α → Nat)
    (h : ∀ a b, (∃ c, r c a) → r a b → (∃ c, r b c) → rank b < rank a) (a : α)
    : ¬ TransGen r a a := by
  have hlt : ∀ b, TransGen r a b → (∃ c, r c a) → (∃ c, r b c) → rank b < rank a := by
    intro b hab ha hb
    induction hab with
    | single hab => exact h a _ ha hab hb
    | tail hab hbc ih =>
      have := ih ⟨_, hbc⟩
      have := h _ _ (exists_of_transGen hab).2 hbc hb
      omega
  intro hcycle
  have := hlt a hcycle (exists_of_transGen hcycle).2 (exists_of_transGen hcycle).1
  omega

end WaitFor
