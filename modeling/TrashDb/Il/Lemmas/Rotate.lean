import Mathlib.Data.List.Rotate
import TrashDb.Il.Lemmas.Refine

/-!
This module contains successive calls of `list_rotate`. Each call pops the first node with `list_pop`,
which decrements `len`, and puts it back with `item_append`, which does not increment it: the links are
rotated, but the counter goes down to zero, and the next call passes `NULL` to `item_append`.
-/

namespace Heap

variable {α : Type u} [DecidableEq α] {h h' : Heap α} {l : α} {list : LL α} {items : List α} {k : Nat}
  {answers : List (Option α)}

def rotations (h : Heap α) (l : α) : Nat → Option (Heap α × List (Option α))
  | 0 => return (h, [])
  | k + 1 => do
    let (h, item) ← h.listRotate l
    let (h, items) ← h.rotations l k
    return (h, item :: items)

/--
What `k` calls are to leave behind: the nodes `items` rotated, and a list that still has all of them.
-/
structure Rotated (h : Heap α) (l : α) (items : List α) (k : Nat) (h' : Heap α)
    (answers : List (Option α)) : Prop where
  answers : answers = (List.range k).map fun i => items[i % items.length]?
  ring : LinkedRing h'.next h'.prev l (items.rotate (k % items.length))
  len : h'.len l = items.length
  emptyList : h'.emptyList l = items.isEmpty
  listPop : ∃ h'', h'.listPop l = some (h'', (items.rotate (k % items.length)).head?)
    ∧ h''.Holds l ⟨(items.rotate (k % items.length)).tail, items.length - 1⟩
  listAppend : ∀ x, x ∉ l :: items → ∃ h'', h'.listAppend l (some x) = some h''
    ∧ h''.Holds l ⟨items.rotate (k % items.length) ++ [x], items.length + 1⟩

theorem Holds.rotated_zero (hl : h.Holds l ⟨items, items.length⟩) : h.Rotated l items 0 h [] := by
  have hrotate : items.rotate (0 % items.length) = items := by simp
  refine ⟨rfl, by rw [hrotate]; exact hl.ring, hl.len, ?_, ?_, ?_⟩
  . rw [Heap.emptyList, hl.len, Bool.eq_iff_iff]
    simp
  . rw [hrotate]
    obtain ⟨h'', hpop, hl'', _⟩ := hl.listPop
    cases items <;> exact ⟨h'', hpop, hl''⟩
  . rw [hrotate]
    intro x hx
    obtain ⟨h'', happend, hl'', _⟩ := hl.listAppend hx
    exact ⟨h'', happend, hl''⟩

theorem Holds.listRotate_eq_some {item : Option α} (hl : h.Holds l list) (hitems : list.items ≠ [])
    (hrotate : h.listRotate l = some (h', item))
    : item = list.items.head? ∧ ∃ n, list.len = n + 1 ∧ h'.Holds l ⟨list.items.rotate 1, n⟩ := by
  by_cases hlen : list.len = 0
  . rw [hl.listRotate_eq_none hlen] at hrotate
    cases hrotate
  . obtain ⟨x, xs, hxs⟩ := List.exists_cons_of_ne_nil hitems
    obtain ⟨h₁, list₁, hlist, heq, hl₁, _⟩ := hl.listRotate hxs hlen
    cases heq.symm.trans hrotate
    rw [LL.listRotate_of_cons hxs hlen] at hlist
    cases hlist
    refine ⟨by simp [hxs], list.len - 1, by omega, ?_⟩
    simpa [hxs, List.rotate_cons_succ] using hl₁

theorem Holds.rotations_eq_some (hl : h.Holds l list) (hitems : list.items ≠ [])
    (hrotations : h.rotations l k = some (h', answers))
    : ∃ n, list.len = n + k ∧ h'.Holds l ⟨list.items.rotate k, n⟩
        ∧ answers = (List.range k).map fun i => (list.items.rotate i).head? := by
  induction k generalizing h list answers with
  | zero =>
    cases hrotations
    exact ⟨list.len, rfl, by simpa using hl, rfl⟩
  | succ k ih =>
    obtain ⟨⟨h₁, item⟩, hrotate, hrun⟩ := Option.bind_eq_some_iff.mp hrotations
    obtain ⟨⟨h₂, rest⟩, hrest, heq⟩ := Option.bind_eq_some_iff.mp hrun
    cases heq
    obtain ⟨rfl, n, hn, hl₁⟩ := hl.listRotate_eq_some hitems hrotate
    obtain ⟨m, hm, hl', rfl⟩ := ih hl₁ (by simpa using hitems) hrest
    simp only at hm
    refine ⟨m, by omega, ?_, ?_⟩
    . rwa [List.rotate_rotate, Nat.add_comm] at hl'
    . rw [List.range_succ_eq_map, List.map_cons, List.map_map, List.rotate_zero]
      congr 1
      refine List.map_congr_left fun i _ => ?_
      rw [Function.comp_apply, List.rotate_rotate, Nat.add_comm]

theorem Holds.exists_rotations (hl : h.Holds l list) (hitems : list.items ≠ []) (hk : k ≤ list.len)
    : ∃ r, h.rotations l k = some r := by
  induction k generalizing h list with
  | zero => exact ⟨(h, []), rfl⟩
  | succ k ih =>
    obtain ⟨x, xs, hxs⟩ := List.exists_cons_of_ne_nil hitems
    obtain ⟨h₁, _, _, hrotate, _⟩ := hl.listRotate hxs (by omega)
    obtain ⟨_, n, hn, hl₁⟩ := hl.listRotate_eq_some hitems hrotate
    obtain ⟨⟨h', answers⟩, hrest⟩ := ih hl₁ (by simpa using hitems) (by simp only; omega)
    exact ⟨(h', some x :: answers), by simp [rotations, hrotate, hrest]⟩

/--
The calls rotate the links as long as the counter lasts, one more call dereferences `NULL`.
-/
theorem Holds.rotations_eq (hl : h.Holds l list) (hitems : list.items ≠ [])
    : if k ≤ list.len then
        ∃ h', h.rotations l k = some (h', (List.range k).map fun i => (list.items.rotate i).head?)
          ∧ h'.Holds l ⟨list.items.rotate k, list.len - k⟩
      else
        h.rotations l k = none := by
  split
  . next hk =>
    obtain ⟨⟨h', answers⟩, hrotations⟩ := hl.exists_rotations hitems hk
    obtain ⟨n, hn, hl', rfl⟩ := hl.rotations_eq_some hitems hrotations
    exact ⟨h', hrotations, by rwa [hn, Nat.add_sub_cancel]⟩
  . next hk =>
    cases hrotations : h.rotations l k with
    | none => rfl
    | some r =>
      obtain ⟨h', answers⟩ := r
      obtain ⟨n, hn, _⟩ := hl.rotations_eq_some hitems hrotations
      omega

theorem rotations_keep_list_iff (hl : h.Holds l ⟨items, items.length⟩) (hitems : items ≠ [])
    : (∃ h' answers, h.rotations l k = some (h', answers) ∧ h.Rotated l items k h' answers) ↔ k = 0 := by
  constructor
  . rintro ⟨h', answers, hrotations, hrotated⟩
    have hrun := hl.rotations_eq (k := k) hitems
    split at hrun
    . next hk =>
      obtain ⟨h₁, hrun, hl'⟩ := hrun
      cases hrotations.symm.trans hrun
      -- the counter has gone down with each call
      have hlen : items.length - k = items.length := hl'.len.symm.trans hrotated.len
      simp only at hk
      omega
    . rw [hrun] at hrotations
      cases hrotations
  . rintro rfl
    exact ⟨h, [], rfl, hl.rotated_zero⟩

def threeNodes : Heap Nat where
  next x := some ((x + 1) % 4)
  prev x := some ((x + 3) % 4)
  len x := if x = 0 then 3 else 0

theorem holds_threeNodes : threeNodes.Holds 0 ⟨[1, 2, 3], 3⟩ where
  ring := ⟨by decide, by simp [LinkedRing.Linked, threeNodes]⟩
  len := rfl

/--
Two calls rotate the nodes, but one of the three cannot be popped any more.
-/
theorem rotations_keep_list_threeNodes
    : (threeNodes.rotations 0 2).isSome = true ∧
        (¬ ∃ h' answers, threeNodes.rotations 0 2 = some (h', answers) ∧ threeNodes.Rotated 0 [1, 2, 3] 2 h' answers) ∧
        ∃ h' answers, threeNodes.rotations 0 0 = some (h', answers) ∧ threeNodes.Rotated 0 [1, 2, 3] 0 h' answers := by
  refine ⟨rfl, ?_, ?_⟩
  . intro h
    cases (rotations_keep_list_iff holds_threeNodes (by decide)).mp h
  . exact (rotations_keep_list_iff holds_threeNodes (by decide)).mpr rfl

def oneNode : Heap Nat where
  next x := some (1 - x)
  prev x := some (1 - x)
  len x := 1 - x

theorem holds_oneNode : oneNode.Holds 0 ⟨[1], 1⟩ where
  ring := ⟨by decide, by simp [LinkedRing.Linked, oneNode]⟩
  len := rfl

theorem rotations_lose_node
    : oneNode.Holds 0 ⟨[1], 1⟩ ∧ oneNode.rotations 0 2 = none
        ∧ ¬ ∃ h' answers, oneNode.rotations 0 1 = some (h', answers) ∧ oneNode.Rotated 0 [1] 1 h' answers := by
  refine ⟨holds_oneNode, rfl, ?_⟩
  rintro ⟨h', answers, hrotations, hrotated⟩
  obtain ⟨n, hn, hl', _⟩ := holds_oneNode.rotations_eq_some (by decide) hrotations
  have : n = 1 := hl'.len.symm.trans hrotated.len
  simp only at hn
  omega

end Heap
