import Mathlib.Data.List.Chain
import Mathlib.Data.List.Nodup

/-!
This module contains circular doubly linked rings. `next` and `prev` give the pointers that are stored
in a node, `none` is the null pointer. In `LinkedRing next prev head items` the nodes `items` are linked
from `head` in this order and back. The lemmas say how a ring changes when a node is linked in before
the head or unlinked, in terms of the pointers that differ afterwards.
-/

def LinkedRing.Linked {α : Type u} (next prev : α → Option α) (x y : α) : Prop :=
  next x = some y ∧ prev y = some x

structure LinkedRing {α : Type u} (next prev : α → Option α) (head : α) (items : List α) : Prop where
  nodup : (head :: items).Nodup
  chain : (head :: (items ++ [head])).IsChain (LinkedRing.Linked next prev)

namespace LinkedRing

variable {α : Type u} {next prev next' prev' : α → Option α} {head x y : α} {items xs ys : List α}

theorem isChain_linked_congr (h : xs.IsChain (Linked next prev))
    (hnext : ∀ x ∈ xs.dropLast, next' x = next x) (hprev : ∀ x ∈ xs.tail, prev' x = prev x)
    : xs.IsChain (Linked next' prev') := by
  induction xs with
  | nil => exact .nil
  | cons x xs ih =>
    cases xs with
    | nil => exact .singleton x
    | cons y ys =>
      obtain ⟨hxy, hys⟩ := List.isChain_cons_cons.mp h
      refine List.isChain_cons_cons.mpr ⟨⟨?_, ?_⟩, ih hys ?_ ?_⟩
      . rw [hnext x (by simp)]
        exact hxy.1
      . rw [hprev y (by simp)]
        exact hxy.2
      . intro z hz
        exact hnext z (by simp [hz])
      . intro z hz
        exact hprev z (List.mem_cons_of_mem y hz)

theorem nil_iff : LinkedRing next prev head [] ↔ next head = some head ∧ prev head = some head := by
  constructor
  . intro h
    have : Linked next prev head head := List.isChain_pair.mp h.chain
    exact this
  . intro h
    have : Linked next prev head head := h
    exact ⟨List.nodup_singleton head, List.isChain_pair.mpr this⟩

theorem congr (h : LinkedRing next prev head items) (hnext : ∀ x ∈ head :: items, next' x = next x)
    (hprev : ∀ x ∈ head :: items, prev' x = prev x)
    : LinkedRing next' prev' head items := by
  refine ⟨h.nodup, isChain_linked_congr h.chain ?_ ?_⟩
  . rw [← List.cons_append, List.dropLast_concat]
    exact hnext
  . intro x hx
    refine hprev x ?_
    rw [List.tail_cons, List.mem_append, List.mem_singleton] at hx
    exact List.mem_cons.mpr hx.symm

theorem snoc_split (h : LinkedRing next prev head items)
    : ∃ as p, head :: items = as ++ [p] ∧ (as ++ [p]).IsChain (Linked next prev)
        ∧ Linked next prev p head := by
  obtain ⟨as, p, hsplit⟩ := List.eq_nil_or_concat' (head :: items) |>.resolve_left (by simp)
  have hchain := h.chain
  rw [← List.cons_append, hsplit, List.append_assoc, List.singleton_append, List.isChain_split] at hchain
  exact ⟨as, p, hsplit, hchain.1, List.isChain_pair.mp hchain.2⟩

theorem exists_next (h : LinkedRing next prev head items) (hx : x ∈ head :: items)
    : ∃ y ∈ head :: items, Linked next prev x y := by
  obtain ⟨as, bs, hsplit⟩ := List.append_of_mem hx
  have hchain := h.chain
  rw [← List.cons_append, hsplit, List.append_assoc, List.cons_append, List.isChain_split] at hchain
  cases bs with
  | nil => exact ⟨head, List.mem_cons_self, List.isChain_pair.mp hchain.2⟩
  | cons y bs =>
    refine ⟨y, ?_, (List.isChain_cons_cons.mp hchain.2).1⟩
    rw [hsplit]
    simp

theorem next_ne (h : LinkedRing next prev head items) (hx : x ∈ items) (hnext : next x = some y)
    : y ≠ x := by
  obtain ⟨as, bs, rfl⟩ := List.append_of_mem hx
  have hnodup := h.nodup
  have hchain := h.chain
  rw [List.append_assoc, List.cons_append, ← List.cons_append, List.isChain_split] at hchain
  rintro rfl
  cases bs with
  | nil =>
    cases hnext.symm.trans (List.isChain_pair.mp hchain.2).1
    simp at hnodup
  | cons z bs =>
    cases hnext.symm.trans (List.isChain_cons_cons.mp hchain.2).1.1
    simp [List.nodup_append] at hnodup

theorem exists_prev (h : LinkedRing next prev head items) (hx : x ∈ head :: items)
    : ∃ y ∈ head :: items, Linked next prev y x := by
  rcases List.mem_cons.mp hx with rfl | hx
  . obtain ⟨as, p, hsplit, _, hp⟩ := h.snoc_split
    refine ⟨p, ?_, hp⟩
    rw [hsplit]
    simp
  . obtain ⟨as, bs, rfl⟩ := List.append_of_mem hx
    have hchain := h.chain
    rw [List.append_assoc, List.cons_append, ← List.cons_append, List.isChain_split] at hchain
    obtain ⟨cs, p, hcs⟩ := List.eq_nil_or_concat' (head :: as) |>.resolve_left (by simp)
    refine ⟨p, ?_, ?_⟩
    . rw [← List.cons_append, hcs]
      simp
    . have := hchain.1
      rw [hcs, List.append_assoc, List.singleton_append, List.isChain_split] at this
      exact List.isChain_pair.mp this.2

theorem next_eq_iff (h : LinkedRing next prev head items) (hx : x ∈ head :: items)
    (hy : y ∈ head :: items)
    : next x = some y ↔ prev y = some x := by
  constructor
  . intro hnext
    obtain ⟨z, _, hz⟩ := h.exists_next hx
    cases hnext.symm.trans hz.1
    exact hz.2
  . intro hprev
    obtain ⟨z, _, hz⟩ := h.exists_prev hy
    cases hprev.symm.trans hz.2
    exact hz.1

theorem append {p : α} (h : LinkedRing next prev head items) (hx : x ∉ head :: items)
    (hp : prev head = some p) (hnextp : next' p = some x) (hnextx : next' x = some head)
    (hprevx : prev' x = some p)
    (hprevh : prev' head = some x) (hnext : ∀ y, y ≠ p → y ≠ x → next' y = next y)
    (hprev : ∀ y, y ≠ x → y ≠ head → prev' y = prev y)
    : LinkedRing next' prev' head (items ++ [x]) := by
  obtain ⟨as, q, hsplit, hchain, hq⟩ := h.snoc_split
  cases hp.symm.trans hq.2
  have hnodup := h.nodup
  refine ⟨?_, ?_⟩
  . rw [← List.cons_append]
    exact hnodup.append (List.nodup_singleton x) (List.disjoint_singleton.mpr hx)
  . have hlast : [p, x, head].IsChain (Linked next' prev') := by
      simp [Linked, hnextp, hprevx, hnextx, hprevh]
    rw [List.append_assoc, List.singleton_append, ← List.cons_append, hsplit, List.append_assoc,
      List.singleton_append, List.isChain_split]
    refine ⟨isChain_linked_congr hchain ?_ ?_, hlast⟩
    . intro y hy
      rw [List.dropLast_concat] at hy
      refine hnext y ?_ ?_
      . rintro rfl
        rw [hsplit] at hnodup
        exact (List.nodup_append.mp hnodup).2.2 y hy y (by simp) rfl
      . rintro rfl
        exact hx (by rw [hsplit]; simp [hy])
    . intro y hy
      rw [← hsplit, List.tail_cons] at hy
      refine hprev y ?_ ?_
      . rintro rfl
        exact hx (List.mem_cons_of_mem head hy)
      . rintro rfl
        exact (List.nodup_cons.mp hnodup).1 hy

theorem remove {p q : α} (h : LinkedRing next prev head (xs ++ x :: ys)) (hp : prev x = some p)
    (hq : next x = some q) (hnextp : next' p = some q) (hprevq : prev' q = some p)
    (hnext : ∀ y, y ≠ p → y ≠ x → next' y = next y)
    (hprev : ∀ y, y ≠ q → y ≠ x → prev' y = prev y)
    : LinkedRing next' prev' head (xs ++ ys) := by
  have hnodup : (head :: xs ++ x :: ys).Nodup := h.nodup
  have hchain : (head :: xs ++ x :: (ys ++ [head])).IsChain (Linked next prev) := by
    have := h.chain
    rwa [List.append_assoc, List.cons_append, ← List.cons_append] at this
  obtain ⟨as, p', has⟩ := List.eq_nil_or_concat' (head :: xs) |>.resolve_left (by simp)
  obtain ⟨q', bs, hbs⟩ := List.exists_cons_of_ne_nil (l := ys ++ [head]) (by simp)
  rw [has, hbs, List.append_assoc, List.singleton_append, List.isChain_split, List.isChain_cons_cons,
    List.isChain_cons_cons] at hchain
  obtain ⟨hfront, hpx, hxq, hback⟩ := hchain
  cases hp.symm.trans hpx.2
  cases hq.symm.trans hxq.1
  obtain ⟨hnodupl, hnodupr, hdisjoint⟩ := List.nodup_append.mp hnodup
  obtain ⟨hxys, hnodupys⟩ := List.nodup_cons.mp hnodupr
  have hheadys : head ∉ ys := fun hys => hdisjoint head (by simp) head (by simp [hys]) rfl
  have hround : (q :: bs).Nodup := by
    rw [← hbs]
    exact hnodupys.append (List.nodup_singleton head) (List.disjoint_singleton.mpr hheadys)
  refine ⟨?_, ?_⟩
  . exact hnodup.sublist (List.Sublist.append_left (List.sublist_cons_self x ys) (head :: xs))
  . rw [List.append_assoc, ← List.cons_append, has, hbs, List.append_assoc, List.singleton_append,
      List.isChain_split, List.isChain_cons_cons]
    refine ⟨isChain_linked_congr hfront ?_ ?_, ⟨hnextp, hprevq⟩, isChain_linked_congr hback ?_ ?_⟩
    . intro y hy
      rw [List.dropLast_concat] at hy
      have hmem : y ∈ head :: xs := by rw [has]; simp [hy]
      refine hnext y ?_ fun hyx => hdisjoint y hmem x (by simp) hyx
      rintro rfl
      rw [has] at hnodupl
      exact (List.nodup_append.mp hnodupl).2.2 y hy y (by simp) rfl
    . intro y hy
      rw [← has, List.tail_cons] at hy
      have hmem : y ∈ head :: xs := List.mem_cons_of_mem head hy
      refine hprev y ?_ fun hyx => hdisjoint y hmem x (by simp) hyx
      rintro rfl
      have hq : y ∈ ys ++ [head] := by rw [hbs]; simp
      rcases List.mem_append.mp hq with hys | hhead
      . exact hdisjoint y hmem y (by simp [hys]) rfl
      . rw [List.mem_singleton.mp hhead] at hy
        exact (List.nodup_cons.mp hnodupl).1 hy
    . intro y hy
      rw [← hbs, List.dropLast_concat] at hy
      refine hnext y ?_ ?_
      . rintro rfl
        exact hdisjoint y (by rw [has]; simp) y (by simp [hy]) rfl
      . rintro rfl
        exact hxys hy
    . intro y hy
      refine hprev y ?_ ?_
      . rintro rfl
        exact (List.nodup_cons.mp hround).1 hy
      . rintro rfl
        have : y ∈ ys ++ [head] := by rw [hbs]; simp [show y ∈ bs from hy]
        rcases List.mem_append.mp this with hys | hhead
        . exact hxys hys
        . exact hdisjoint head (by simp) y (by simp) (List.mem_singleton.mp hhead).symm

end LinkedRing
