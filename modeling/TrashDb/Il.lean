import Mathlib.Data.List.Basic

/-!
This module contains the intrusive doubly linked lists of `il.h`. A list is the sequence of the items
that are linked from its head together with the separate counter `len`, since `item_append` and
`item_remove` change the links only and leave `len` to their callers. A pointer of type `IL *` refers
to the head of the list or to the link of an item.
-/

inductive IL (α : Type u) where
  | head
  | item (a : α)
  deriving DecidableEq, Repr

structure LL (α : Type u) where
  items : List α
  len : Nat
  deriving DecidableEq, Repr

namespace LL

variable {α : Type u}

def initList : LL α := ⟨[], 0⟩

def emptyList (list : LL α) : Bool := list.len == 0

def itemAppend (list : LL α) (item : α) : LL α :=
  { list with items := list.items ++ [item] }

def listAppend (list : LL α) (item : α) : LL α :=
  { list.itemAppend item with len := list.len + 1 }

def itemRemove [DecidableEq α] (list : LL α) (item : α) : LL α :=
  { list with items := list.items.erase item }

def listPop (list : LL α) : Option (IL α) × LL α :=
  if list.emptyList then
    (none, list)
  else
    match list.items with
    -- `head.next` is the head itself, which stays linked to itself
    | [] => (some .head, { list with len := list.len - 1 })
    | item :: items => (some (.item item), ⟨items, list.len - 1⟩)

/--
`item_append` dereferences the `NULL` that `list_pop` returns for an empty list.
-/
def listRotate (list : LL α) : Option (IL α × LL α) :=
  match list.listPop with
  | (none, _) => none
  | (some .head, list) => some (.head, list)
  | (some (.item item), list) => some (.item item, list.itemAppend item)

def Coherent (list : LL α) : Prop := list.len = list.items.length

@[simp]
theorem coherent_initList : (initList : LL α).Coherent := rfl

@[simp]
theorem listAppend_items (list : LL α) (item : α)
    : (list.listAppend item).items = list.items ++ [item] := rfl

@[simp]
theorem listAppend_len (list : LL α) (item : α) : (list.listAppend item).len = list.len + 1 := rfl

@[simp]
theorem itemRemove_items [DecidableEq α] (list : LL α) (item : α)
    : (list.itemRemove item).items = list.items.erase item := rfl

@[simp]
theorem itemRemove_len [DecidableEq α] (list : LL α) (item : α)
    : (list.itemRemove item).len = list.len := rfl

theorem Coherent.listAppend {list : LL α} (h : list.Coherent) (item : α)
    : (list.listAppend item).Coherent := by
  simp only [Coherent, listAppend_items, listAppend_len, List.length_append, List.length_singleton]
  rw [h]

theorem listPop_eq_none {list list' : LL α} (h : list.listPop = (none, list'))
    : list.len = 0 ∧ list' = list := by
  unfold listPop emptyList at h
  split at h
  . next hlen =>
    cases h
    exact ⟨by simpa using hlen, rfl⟩
  . split at h <;> cases h

theorem listPop_eq_item {list list' : LL α} {item : α} (h : list.listPop = (some (.item item), list'))
    : list.len ≠ 0 ∧ ∃ items, list.items = item :: items ∧ list' = ⟨items, list.len - 1⟩ := by
  unfold listPop emptyList at h
  split at h
  . cases h
  . next hlen =>
    split at h
    . cases h
    . next items hitems =>
      cases h
      exact ⟨by simpa using hlen, items, hitems, rfl⟩

theorem listRotate_of_cons {list : LL α} {item : α} {items : List α} (hitems : list.items = item :: items)
    (hlen : list.len ≠ 0)
    : list.listRotate = some (.item item, ⟨items ++ [item], list.len - 1⟩) := by
  unfold listRotate listPop emptyList
  rw [hitems]
  simp [hlen, itemAppend]

theorem listRotate_eq_item {list list' : LL α} {item : α}
    (h : list.listRotate = some (.item item, list'))
    : list.len ≠ 0 ∧ ∃ items, list.items = item :: items ∧ list' = ⟨items ++ [item], list.len - 1⟩ := by
  unfold listRotate at h
  split at h
  . cases h
  . cases h
  . next hpop =>
    cases h
    obtain ⟨hlen, items, hitems, rfl⟩ := listPop_eq_item hpop
    exact ⟨hlen, items, hitems, rfl⟩

theorem len_listRotate {list list' : LL α} {item : α} (h : list.listRotate = some (.item item, list'))
    : list'.len + 1 = list.len := by
  obtain ⟨hlen, items, _, rfl⟩ := listRotate_eq_item h
  show list.len - 1 + 1 = list.len
  omega

end LL
