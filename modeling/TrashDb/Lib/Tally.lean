import Mathlib.Algebra.Order.Ring.Int
import Mathlib.Data.Finset.Card
import Mathlib.Data.Finset.Lattice.Basic

/-!
This module contains a counter that waiters sleep on until somebody brings it down to zero. The one who
sets it up goes through the linked members afterwards. A member with nothing to do is taken off the
counter right away, the others get a flag. A member that is done clears its flag first and settles in a
second step, in which it takes itself off the counter and wakes up the waiters if nothing is left.

The counter is set up to a value from elsewhere, it can be set up again while there are waiters, and
members can be unlinked. `Safe` says what these steps must not do to the waiters. `Orderly` says what
keeps the counter exact.
-/

namespace Tally

structure State (γ τ κ : Type) where
  count : Int
  left : Option (List γ)
  linked : Finset γ
  flagged : Finset γ
  due : Finset τ
  waiters : Finset κ

inductive Event (γ τ κ : Type) where
  | stay
  | link (g : γ)
  | unlink (g : γ)
  | free (g : γ)
  | start (gs : List γ) (n : Int)
  | skip
  | flag
  | test (k : κ)
  | clear (g : γ) (t : τ)
  | settle (t : τ)

variable {γ τ κ : Type} [DecidableEq γ] {x y : State γ τ κ} {g : γ} {t : τ} {k : κ} {gs : List γ}

def State.raised (x : State γ τ κ) : Finset γ := (x.flagged ∩ x.linked) \ (x.left.getD []).toFinset

def State.owed (x : State γ τ κ) : Nat := (x.left.getD []).length + x.raised.card + x.due.card

structure Listed (x : State γ τ κ) : Prop where
  nodup : (x.left.getD []).Nodup
  linked : (x.left.getD []).toFinset ⊆ x.linked

structure Covered (x : State γ τ κ) : Prop where
  count : x.count ≤ x.owed
  positive : x.left = none → x.waiters.Nonempty → 0 < x.count
  awaited : x.waiters.Nonempty → (x.flagged ∩ x.linked).Nonempty ∨ x.due.Nonempty

structure Exact (x : State γ τ κ) : Prop where
  count : x.count = x.owed
  linked : x.flagged ⊆ x.linked
  apart : ∀ g, g ∈ x.left.getD [] → g ∉ x.flagged

def Safe (x : State γ τ κ) : Event γ τ κ → Prop
  | .start gs n => n ≤ gs.length + x.due.card
  | .unlink g => g ∈ x.flagged ∩ x.linked → x.count < (x.flagged ∩ x.linked).card + x.due.card
  | .test k => x.left = some [] → x.count ≤ 0 → x.waiters ⊆ {k}
  | _ => True

def Orderly (x : State γ τ κ) : Event γ τ κ → Prop
  | .start gs n => n = gs.length ∧ x.count = 0
  | .unlink g | .free g => g ∉ x.flagged
  | _ => True

theorem owed_of_some (hleft : x.left = some gs)
    : x.owed = gs.length + ((x.flagged ∩ x.linked) \ gs.toFinset).card + x.due.card := by
  rw [State.owed, State.raised, hleft, Option.getD_some]

theorem owed_of_none (hleft : x.left = none)
    : x.owed = (x.flagged ∩ x.linked).card + x.due.card := by
  simp [State.owed, State.raised, hleft]

theorem owed_of_test (hleft : x.left = none ∨ x.left = some [])
    : x.owed = (x.flagged ∩ x.linked).card + x.due.card := by
  rcases hleft with hleft | hleft
  . apply owed_of_none hleft
  . simp [owed_of_some hleft]

theorem Listed.of_cons (h : Listed x) (hleft : x.left = some (g :: gs))
    : g ∈ x.linked ∧ g ∉ gs ∧ gs.Nodup ∧ gs.toFinset ⊆ x.linked := by
  have hnodup := h.nodup
  have hlinked := h.linked
  rw [hleft, Option.getD_some] at hnodup hlinked
  rw [List.nodup_cons] at hnodup
  rw [List.toFinset_cons, Finset.insert_subset_iff] at hlinked
  exact ⟨hlinked.1, hnodup.1, hnodup.2, hlinked.2⟩

theorem card_flag (hg : g ∈ x.linked) (hgs : g ∉ gs)
    : ((insert g x.flagged ∩ x.linked) \ gs.toFinset).card =
        ((x.flagged ∩ x.linked) \ (g :: gs).toFinset).card + 1 := by
  have heq : (insert g x.flagged ∩ x.linked) \ gs.toFinset =
      insert g ((x.flagged ∩ x.linked) \ (g :: gs).toFinset) := by
    ext i
    simp only [Finset.mem_sdiff, Finset.mem_inter, Finset.mem_insert, List.mem_toFinset, List.mem_cons]
    by_cases hi : i = g
    . subst hi
      simp [hg, hgs]
    . simp [hi]
  rw [heq, Finset.card_insert_of_notMem]
  simp

namespace Covered

theorem of_none (hleft : y.left = none)
    (hcount : y.count ≤ ((y.flagged ∩ y.linked).card + y.due.card : Nat))
    (hpositive : y.waiters.Nonempty → 0 < y.count)
    : Covered y := by
  refine ⟨?_, fun _ => hpositive, ?_⟩
  . rw [owed_of_none hleft]
    exact hcount
  . intro hwaiters
    have := hpositive hwaiters
    rw [← Finset.card_pos, ← Finset.card_pos]
    omega

theorem of_some (hleft : y.left = some gs)
    (hcount : y.count ≤
      (gs.length + ((y.flagged ∩ y.linked) \ gs.toFinset).card + y.due.card : Nat))
    (hawaited : y.waiters.Nonempty → (y.flagged ∩ y.linked).Nonempty ∨ y.due.Nonempty)
    : Covered y := by
  refine ⟨?_, ?_, hawaited⟩
  . rw [owed_of_some hleft]
    exact hcount
  . intro hnone
    rw [hleft] at hnone
    cases hnone

theorem link (h : Covered x) (hleft : x.left = none)
    : Covered { x with linked := insert g x.linked } := by
  refine .of_none hleft ?_ (h.positive hleft)
  have hle : (x.flagged ∩ x.linked).card ≤ (x.flagged ∩ insert g x.linked).card := by
    apply Finset.card_le_card
    apply Finset.inter_subset_inter_left (Finset.subset_insert g x.linked)
  have hcount := h.count
  rw [owed_of_none hleft] at hcount
  dsimp only
  omega

theorem unlink (h : Covered x) (hleft : x.left = none) (hsafe : Safe x (.unlink g))
    : Covered { x with linked := x.linked.erase g } := by
  refine .of_none hleft ?_ (h.positive hleft)
  have hcount := h.count
  rw [owed_of_none hleft] at hcount
  dsimp only
  rw [Finset.inter_erase]
  by_cases hg : g ∈ x.flagged ∩ x.linked
  . have hlt := hsafe hg
    have hcard := Finset.card_erase_add_one hg
    omega
  . rw [Finset.erase_eq_of_notMem hg]
    exact hcount

theorem free (h : Covered x) (hg : g ∉ x.linked)
    : Covered { x with flagged := x.flagged.erase g } := by
  have heq : x.flagged.erase g ∩ x.linked = x.flagged ∩ x.linked := by
    rw [Finset.erase_inter, Finset.erase_eq_of_notMem]
    simp [hg]
  refine ⟨?_, h.positive, ?_⟩
  . rw [State.owed, State.raised]
    dsimp only
    rw [heq]
    exact h.count
  . dsimp only
    rw [heq]
    exact h.awaited

theorem start {n : Int} (h : Covered x) (hlinked : gs.toFinset = x.linked)
    (hsafe : Safe x (.start gs n))
    : Covered { x with left := some gs, count := n } := by
  have hsafe : n ≤ gs.length + x.due.card := hsafe
  have hempty : (x.flagged ∩ x.linked) \ gs.toFinset = ∅ := by
    rw [hlinked, Finset.sdiff_eq_empty_iff_subset]
    apply Finset.inter_subset_right
  refine .of_some rfl ?_ h.awaited
  dsimp only
  rw [hempty, Finset.card_empty]
  omega

theorem skip (h : Covered x) (hleft : x.left = some (g :: gs))
    : Covered { x with left := some gs, count := x.count - 1 } := by
  have hle : ((x.flagged ∩ x.linked) \ (g :: gs).toFinset).card ≤
      ((x.flagged ∩ x.linked) \ gs.toFinset).card := by
    apply Finset.card_le_card
    apply Finset.sdiff_subset_sdiff (Finset.Subset.refl _)
    rw [List.toFinset_cons]
    apply Finset.subset_insert
  have hcount := h.count
  rw [owed_of_some hleft, List.length_cons] at hcount
  refine .of_some rfl ?_ h.awaited
  dsimp only
  omega

theorem flag (h : Covered x) (hlisted : Listed x) (hleft : x.left = some (g :: gs))
    : Covered { x with left := some gs, flagged := insert g x.flagged } := by
  obtain ⟨hg, hgs, _, _⟩ := hlisted.of_cons hleft
  refine .of_some rfl ?_ ?_
  . have hcount := h.count
    rw [owed_of_some hleft, List.length_cons] at hcount
    dsimp only
    rw [card_flag hg hgs]
    omega
  . intro _
    left
    exact ⟨g, Finset.mem_inter.mpr ⟨Finset.mem_insert_self g _, hg⟩⟩

theorem sleep [DecidableEq κ] (h : Covered x) (hleft : x.left = none ∨ x.left = some []) (hcount : 0 < x.count)
    : Covered { x with left := none, waiters := insert k x.waiters } := by
  refine .of_none rfl ?_ (fun _ => hcount)
  have hle := h.count
  rw [owed_of_test hleft] at hle
  exact hle

theorem pass [DecidableEq κ] (h : Covered x) (hleft : x.left = none ∨ x.left = some []) (hcount : x.count ≤ 0)
    (hsafe : Safe x (.test k))
    : Covered { x with left := none, waiters := x.waiters.erase k } := by
  refine .of_none rfl ?_ ?_
  . have hle := h.count
    rw [owed_of_test hleft] at hle
    exact hle
  . rintro ⟨i, hi⟩
    rw [Finset.mem_erase] at hi
    rcases hleft with hleft | hleft
    . have := h.positive hleft ⟨i, hi.2⟩
      omega
    . have hmem := hsafe hleft hcount hi.2
      exact absurd (Finset.mem_singleton.mp hmem) hi.1

theorem clear [DecidableEq τ] (h : Covered x) (ht : t ∉ x.due)
    : Covered { x with flagged := x.flagged.erase g, due := insert t x.due } := by
  have hle : x.raised.card ≤
      ((x.flagged.erase g ∩ x.linked) \ (x.left.getD []).toFinset).card + 1 := by
    have hpred := Finset.pred_card_le_card_erase (s := x.raised) (a := g)
    rw [Finset.erase_inter, Finset.erase_sdiff_comm]
    rw [State.raised] at hpred ⊢
    omega
  refine ⟨?_, h.positive, fun _ => .inr (Finset.insert_nonempty t x.due)⟩
  have hcount := h.count
  rw [State.owed] at hcount ⊢
  rw [State.raised]
  dsimp only
  rw [Finset.card_insert_of_notMem ht]
  omega

theorem settle [DecidableEq τ] (h : Covered x) (ht : t ∈ x.due) (hleft : x.left = none)
    : Covered
        {
          x with
          count := x.count - 1
          due := x.due.erase t
          waiters := if x.count - 1 = 0 then ∅ else x.waiters
        } := by
  refine .of_none hleft ?_ ?_
  . have hcount := h.count
    have hcard := Finset.card_erase_add_one ht
    rw [owed_of_none hleft] at hcount
    dsimp only
    omega
  . dsimp only
    split
    . intro hempty
      exact absurd hempty Finset.not_nonempty_empty
    . intro hwaiters
      have := h.positive hleft hwaiters
      omega

end Covered

namespace Exact

theorem of_eq (h : Exact x) (hcount : y.count = x.count) (hleft : y.left = x.left)
    (hflagged : y.flagged = x.flagged) (hdue : y.due = x.due) (hlinked : y.flagged ⊆ y.linked)
    : Exact y := by
  have hinter : y.flagged ∩ y.linked = x.flagged ∩ x.linked := by
    rw [Finset.inter_eq_left.mpr hlinked, Finset.inter_eq_left.mpr h.linked, hflagged]
  refine ⟨?_, hlinked, ?_⟩
  . rw [hcount, h.count, State.owed, State.owed, State.raised, State.raised, hinter, hleft, hdue]
  . rw [hleft, hflagged]
    exact h.apart

theorem eq_empty (h : Exact x) (hleft : x.left = none) (hcount : x.count = 0)
    : x.flagged = ∅ ∧ x.due = ∅ := by
  have howed := h.count
  rw [owed_of_none hleft, Finset.inter_eq_left.mpr h.linked] at howed
  rw [← Finset.card_eq_zero, ← Finset.card_eq_zero]
  omega

theorem start {n : Int} (h : Exact x) (hleft : x.left = none) (horderly : Orderly x (.start gs n))
    : Exact { x with left := some gs, count := n } := by
  obtain ⟨hn, hcount⟩ := horderly
  obtain ⟨hflagged, hdue⟩ := h.eq_empty hleft hcount
  refine ⟨?_, h.linked, ?_⟩
  . rw [owed_of_some rfl]
    dsimp only
    rw [hflagged, hdue, hn]
    simp
  . intro i _
    dsimp only
    rw [hflagged]
    apply Finset.notMem_empty

theorem skip (h : Exact x) (hleft : x.left = some (g :: gs))
    : Exact { x with left := some gs, count := x.count - 1 } := by
  have happart : ∀ i, i ∈ g :: gs → i ∉ x.flagged := by
    have happart := h.apart
    rw [hleft, Option.getD_some] at happart
    exact happart
  have heq : (x.flagged ∩ x.linked) \ (g :: gs).toFinset = (x.flagged ∩ x.linked) \ gs.toFinset := by
    rw [List.toFinset_cons, Finset.sdiff_insert, Finset.erase_eq_of_notMem]
    simp [happart g List.mem_cons_self]
  refine ⟨?_, h.linked, ?_⟩
  . have hcount := h.count
    rw [owed_of_some hleft, List.length_cons, heq] at hcount
    rw [owed_of_some rfl]
    dsimp only
    omega
  . intro i hi
    apply happart i (List.mem_cons_of_mem g hi)

theorem flag (h : Exact x) (hlisted : Listed x) (hleft : x.left = some (g :: gs))
    : Exact { x with left := some gs, flagged := insert g x.flagged } := by
  obtain ⟨hg, hgs, _, _⟩ := hlisted.of_cons hleft
  refine ⟨?_, Finset.insert_subset hg h.linked, ?_⟩
  . have hcount := h.count
    rw [owed_of_some hleft, List.length_cons] at hcount
    rw [owed_of_some rfl]
    dsimp only
    rw [card_flag hg hgs]
    omega
  . intro i hi
    have hi : i ∈ gs := hi
    have happart := h.apart i
    rw [hleft, Option.getD_some] at happart
    rw [Finset.mem_insert, not_or]
    exact ⟨fun heq => hgs (heq ▸ hi), happart (List.mem_cons_of_mem g hi)⟩

theorem test {s : Finset κ} (h : Exact x) (hleft : x.left = none ∨ x.left = some [])
    : Exact { x with left := none, waiters := s } := by
  refine ⟨?_, h.linked, by nofun⟩
  have hcount := h.count
  rw [owed_of_test hleft] at hcount
  rw [owed_of_none rfl]
  exact hcount

theorem clear [DecidableEq τ] (h : Exact x) (hg : g ∈ x.flagged) (ht : t ∉ x.due)
    : Exact { x with flagged := x.flagged.erase g, due := insert t x.due } := by
  refine ⟨?_, (Finset.erase_subset g x.flagged).trans h.linked, ?_⟩
  . have hraised : g ∈ x.raised := by
      rw [State.raised, Finset.mem_sdiff, Finset.mem_inter, List.mem_toFinset]
      exact ⟨⟨hg, h.linked hg⟩, fun hmem => h.apart g hmem hg⟩
    have hcard := Finset.card_erase_add_one hraised
    have hcount := h.count
    rw [State.owed] at hcount ⊢
    rw [State.raised] at hcard hcount ⊢
    dsimp only
    rw [Finset.card_insert_of_notMem ht, Finset.erase_inter, Finset.erase_sdiff_comm]
    omega
  . intro i hi hmem
    apply h.apart i hi (Finset.mem_of_mem_erase hmem)

theorem settle [DecidableEq τ] {s : Finset κ} (h : Exact x) (ht : t ∈ x.due)
    : Exact { x with count := x.count - 1, due := x.due.erase t, waiters := s } := by
  refine ⟨?_, h.linked, h.apart⟩
  have hcount := h.count
  have hcard := Finset.card_erase_add_one ht
  rw [State.owed] at hcount ⊢
  rw [State.raised] at hcount ⊢
  dsimp only
  omega

end Exact

variable [DecidableEq τ] [DecidableEq κ] {e : Event γ τ κ}

inductive Step (x : State γ τ κ) : Event γ τ κ → State γ τ κ → Prop where
  | stay : Step x .stay x
  | link (g : γ) (hg : g ∉ x.linked) (hleft : x.left = none) :
    Step x (.link g) { x with linked := insert g x.linked }
  | unlink (g : γ) (hleft : x.left = none) :
    Step x (.unlink g) { x with linked := x.linked.erase g }
  | free (g : γ) (hg : g ∉ x.linked) : Step x (.free g) { x with flagged := x.flagged.erase g }
  | start (gs : List γ) (n : Int) (hleft : x.left = none) (hnodup : gs.Nodup)
    (hlinked : gs.toFinset = x.linked) :
    Step x (.start gs n) { x with left := some gs, count := n }
  | skip (g : γ) (gs : List γ) (hleft : x.left = some (g :: gs)) :
    Step x .skip { x with left := some gs, count := x.count - 1 }
  | flag (g : γ) (gs : List γ) (hleft : x.left = some (g :: gs)) :
    Step x .flag { x with left := some gs, flagged := insert g x.flagged }
  | sleep (k : κ) (hleft : x.left = none ∨ x.left = some []) (hcount : 0 < x.count) :
    Step x (.test k) { x with left := none, waiters := insert k x.waiters }
  | pass (k : κ) (hleft : x.left = none ∨ x.left = some []) (hcount : x.count ≤ 0) :
    Step x (.test k) { x with left := none, waiters := x.waiters.erase k }
  | clear (g : γ) (t : τ) (hg : g ∈ x.flagged) (ht : t ∉ x.due) :
    Step x (.clear g t) { x with flagged := x.flagged.erase g, due := insert t x.due }
  | settle (t : τ) (ht : t ∈ x.due) (hleft : x.left = none) :
    Step x (.settle t)
      {
        x with
        count := x.count - 1
        due := x.due.erase t
        waiters := if x.count - 1 = 0 then ∅ else x.waiters
      }

theorem Listed.step (h : Listed x) (hs : Step x e y) : Listed y := by
  cases hs with
  | stay | free | clear | settle => exact ⟨h.nodup, h.linked⟩
  | link g hg hleft => exact ⟨h.nodup, h.linked.trans (Finset.subset_insert g x.linked)⟩
  | unlink g hleft =>
    constructor <;> rw [hleft, Option.getD_none]
    . exact List.nodup_nil
    . exact Finset.empty_subset _
  | start gs n hleft hnodup hlinked => exact ⟨hnodup, hlinked.subset⟩
  | skip g gs hleft | flag g gs hleft =>
    obtain ⟨_, _, hnodup, hlinked⟩ := h.of_cons hleft
    exact ⟨hnodup, hlinked⟩
  | sleep k hleft | pass k hleft => exact ⟨List.nodup_nil, Finset.empty_subset _⟩

/--
A safe step leaves no waiter behind that nobody is going to wake up.
-/
theorem Covered.step (h : Covered x) (hlisted : Listed x) (hsafe : Safe x e) (hs : Step x e y)
    : Covered y := by
  cases hs with
  | stay => exact h
  | link g hg hleft => apply h.link hleft
  | unlink g hleft => apply h.unlink hleft hsafe
  | free g hg => apply h.free hg
  | start gs n hleft hnodup hlinked => apply h.start hlinked hsafe
  | skip g gs hleft => apply h.skip hleft
  | flag g gs hleft => apply h.flag hlisted hleft
  | sleep k hleft hcount => apply h.sleep hleft hcount
  | pass k hleft hcount => apply h.pass hleft hcount hsafe
  | clear g t hg ht => apply h.clear ht
  | settle t ht hleft => apply h.settle ht hleft

theorem Exact.step (h : Exact x) (hlisted : Listed x) (horderly : Orderly x e) (hs : Step x e y)
    : Exact y := by
  cases hs with
  | stay => exact h
  | link g hg hleft =>
    exact h.of_eq rfl rfl rfl rfl (h.linked.trans (Finset.subset_insert g x.linked))
  | unlink g hleft => exact h.of_eq rfl rfl rfl rfl (Finset.subset_erase.mpr ⟨h.linked, horderly⟩)
  | free g hg =>
    have heq := Finset.erase_eq_of_notMem horderly
    refine h.of_eq rfl rfl heq rfl ?_
    dsimp only
    rw [heq]
    exact h.linked
  | start gs n hleft hnodup hlinked => apply h.start hleft horderly
  | skip g gs hleft => apply h.skip hleft
  | flag g gs hleft => apply h.flag hlisted hleft
  | sleep k hleft hcount => apply h.test hleft
  | pass k hleft hcount => apply h.test hleft
  | clear g t hg ht => apply h.clear hg ht
  | settle t ht hleft => apply h.settle ht

end Tally
