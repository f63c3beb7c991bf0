import Mathlib.Logic.Relation
import TrashDb.Lib.Lts

/-!
This module contains what can still be reached from a state of a system, whatever has happened before. The
steps that may be taken are a relation, which can be chosen as small as the argument needs: what all of its
steps leave alone is the same in the state that is reached.
-/

namespace Reach

open Relation

variable {α : Type u} {r r' : α → α → Prop} {P Q : α → Prop} {a b : α}

theorem invariant {I : α → Prop} (hI : ∀ a b, I a → r a b → I b) (ha : I a) (h : ReflTransGen r a b)
    : I b := by
  induction h with
  | refl => exact ha
  | tail _ hstep ih => exact hI _ _ ih hstep

theorem frame {R : α → α → Prop} [Std.Refl R] [IsTrans α R] (hr : ∀ a b, r a b → R a b)
    (h : ReflTransGen r a b)
    : R a b :=
  invariant (I := R a) (fun b c hab hbc => IsTrans.trans a b c hab (hr b c hbc)) (Std.Refl.refl a) h

def Reaches (r : α → α → Prop) (P : α → Prop) (a : α) : Prop := ∃ b, ReflTransGen r a b ∧ P b

namespace Reaches

theorem of_self (h : P a) : Reaches r P a := ⟨a, .refl, h⟩

theorem of_step (hstep : r a b) (h : Reaches r P b) : Reaches r P a := by
  obtain ⟨c, hbc, hc⟩ := h
  exact ⟨c, .head hstep hbc, hc⟩

theorem bind (h : Reaches r P a) (hnext : ∀ b, ReflTransGen r a b → P b → Reaches r Q b)
    : Reaches r Q a := by
  obtain ⟨b, hab, hb⟩ := h
  obtain ⟨c, hbc, hc⟩ := hnext b hab hb
  exact ⟨c, hab.trans hbc, hc⟩

theorem imp (h : Reaches r P a) (hPQ : ∀ b, P b → Q b) : Reaches r Q a :=
  h.bind fun b _ hb => of_self (hPQ b hb)

theorem mono (h : Reaches r P a) (hr : ∀ a b, r a b → r' a b) : Reaches r' P a := by
  obtain ⟨b, hab, hb⟩ := h
  exact ⟨b, ReflTransGen.mono hr a b hab, hb⟩

theorem lift {β : Type v} {f : β → α} {r' : β → β → Prop}
    (hr : ∀ y b, r (f y) b → ∃ z, r' y z ∧ f z = b) (y : β) (h : Reaches r P (f y))
    : Reaches r' (fun z => P (f z)) y := by
  obtain ⟨c, hc, hP⟩ := h
  generalize hy : f y = a at hc
  induction hc using ReflTransGen.head_induction_on generalizing y with
  | refl => exact of_self (hy ▸ hP)
  | head hstep _ ih =>
    subst hy
    obtain ⟨z, hz, heq⟩ := hr y _ hstep
    exact of_step hz (ih z heq)

theorem keep {I : α → Prop} (hI : ∀ a b, I a → r a b → I b) (ha : I a) (h : Reaches r P a)
    : Reaches r (fun b => I b ∧ P b) a :=
  h.bind fun _ hab hb => of_self ⟨invariant hI ha hab, hb⟩

/--
If every state that is not there yet reaches one that is nearer then every state gets there.
-/
theorem of_measure {I : α → Prop} (m : α → Nat)
    (h : ∀ a, I a → Reaches r (fun b => P b ∨ (I b ∧ m b < m a)) a)
    : ∀ a, I a → Reaches r P a := by
  intro a ha
  induction hm : m a using Nat.strongRecOn generalizing a with
  | ind n ih =>
    refine (h a ha).bind ?_
    rintro b _ (hb | ⟨hb, hlt⟩)
    . exact of_self hb
    . exact ih (m b) (hm ▸ hlt) b hb rfl

theorem forall_mem {β : Type v} {I : α → Prop} {P : β → α → Prop} (hI : ∀ a b, I a → r a b → I b)
    (hP : ∀ x a b, P x a → r a b → P x b) (h : ∀ x a, I a → Reaches r (P x) a) (xs : List β)
    : ∀ a, I a → Reaches r (fun b => ∀ x ∈ xs, P x b) a := by
  induction xs with
  | nil =>
    intro a _
    exact of_self (by simp)
  | cons x xs ih =>
    intro a ha
    refine (h x a ha).bind fun b hab hb => ?_
    refine (ih b (invariant hI ha hab)).bind fun c hbc hc => ?_
    apply of_self
    rw [List.forall_mem_cons]
    exact ⟨invariant (hP x) hb hbc, hc⟩

end Reaches

theorem exists_run {step : α → β → Option α} {P : α → β → Prop}
    (h : ReflTransGen (fun s s' => ∃ x, P s x ∧ step s x = some s') a b)
    : ∃ xs, Lts.Along step P a xs ∧ Lts.run step a xs = some b := by
  induction h using ReflTransGen.head_induction_on with
  | refl => exact ⟨[], trivial, rfl⟩
  | head hstep _ ih =>
    obtain ⟨x, hx, hs⟩ := hstep
    obtain ⟨xs, hxs, hrun⟩ := ih
    refine ⟨x :: xs, ⟨hx, ?_⟩, ?_⟩
    . intro s' hs'
      cases hs.symm.trans hs'
      exact hxs
    . rw [Lts.run_cons, hs]
      exact hrun

end Reach
