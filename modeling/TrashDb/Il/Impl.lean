import Mathlib.Logic.Function.Basic
import TrashDb.Il

/-!
This module contains the operations of `il.h` on a heap of nodes. A pointer is `none` where it is `NULL`
and an operation that dereferences it gives `none`. A list is known by the address of its head, which
is the first member of `LL`, and `len` is the counter that is stored behind this head.
-/

structure Heap (α : Type u) where
  next : α → Option α
  prev : α → Option α
  len : α → Nat

namespace Heap

variable {α : Type u} [DecidableEq α]

def setNext (h : Heap α) (p : α) (q : Option α) : Heap α :=
  { h with next := Function.update h.next p q }

def setPrev (h : Heap α) (p : α) (q : Option α) : Heap α :=
  { h with prev := Function.update h.prev p q }

def setLen (h : Heap α) (p : α) (n : Nat) : Heap α :=
  { h with len := Function.update h.len p n }

def initIl (h : Heap α) (il : α) : Heap α :=
  (h.setPrev il (some il)).setNext il (some il)

def initList (h : Heap α) (list : α) : Heap α :=
  ((h.setNext list (some list)).setPrev list (some list)).setLen list 0

def emptyList (h : Heap α) (list : α) : Bool := h.len list == 0

def itemAppend (h : Heap α) (item1 item2 : Option α) : Option (Heap α) := do
  let item1 ← item1
  let p ← h.prev item1
  let h := h.setNext p item2
  let item2 ← item2
  let h := h.setPrev item2 (h.prev item1)
  let h := h.setPrev item1 (some item2)
  return h.setNext item2 (some item1)

def listAppend (h : Heap α) (list : α) (item : Option α) : Option (Heap α) := do
  let h ← h.itemAppend (some list) item
  return h.setLen list (h.len list + 1)

def itemRemove (h : Heap α) (item : Option α) : Option (Heap α × Option α) := do
  let item ← item
  let p ← h.prev item
  let h := h.setNext p (h.next item)
  let n ← h.next item
  let h := h.setPrev n (h.prev item)
  let h := h.setPrev item (some item)
  return (h.setNext item (some item), some item)

def listPop (h : Heap α) (list : α) : Option (Heap α × Option α) :=
  if h.emptyList list then
    return (h, none)
  else do
    let (h, rc) ← h.itemRemove (h.next list)
    return (h.setLen list (h.len list - 1), rc)

def listRotate (h : Heap α) (list : α) : Option (Heap α × Option α) := do
  let (h, item) ← h.listPop list
  let h ← h.itemAppend (some list) item
  return (h, item)

/--
The nodes that the body of `for_each` sees, for a body that leaves the links alone.
-/
def forEach (h : Heap α) (head : α) : Nat → Option α → Option (List α)
  | 0, _ => none
  | fuel + 1, curr =>
    if curr = some head then
      return []
    else do
      let il ← curr
      let ils ← h.forEach head fuel (h.next il)
      return il :: ils

inductive Op (α : Type u) where
  | initList (list : α)
  | initIl (il : α)
  | listAppend (list item : α)
  | listPop (list : α)
  | itemRemove (list item : α)
  deriving DecidableEq, Repr

/--
`item_remove` comes with the `len--` of its caller, the answer is the pointer that is returned.
-/
def step (h : Heap α) : Op α → Option (Heap α × Option α)
  | .initList list => return (h.initList list, none)
  | .initIl il => return (h.initIl il, none)
  | .listAppend list item => do
    let h ← h.listAppend list (some item)
    return (h, none)
  | .listPop list => h.listPop list
  | .itemRemove list item => do
    let (h, item) ← h.itemRemove (some item)
    return (h.setLen list (h.len list - 1), item)

def run (h : Heap α) : List (Op α) → Option (Heap α × List (Option α))
  | [] => return (h, [])
  | op :: ops => do
    let (h, answer) ← h.step op
    let (h, answers) ← h.run ops
    return (h, answer :: answers)

end Heap
