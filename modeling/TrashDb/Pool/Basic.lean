import Mathlib.Logic.Function.Basic
import TrashDb.Il
import TrashDb.Lib.Word

/-!
This module contains the data of the thread pool of `pool.c` and the operations on a single queue,
group or pool that its functions are made of.

Groups, threads, managers, calls and works are named by natural numbers that are never used twice,
unlike the addresses that `malloc` returns. The bits of `flags` are separate fields. A mutex is the
field that holds its owner where it is held across steps of the system in `TrashDb.Pool.Impl`. The
mutex of a thread is only held that long by the thread itself, so its program counter tells. The list
`thrds` of a group is the used part of the array of that name, its length is `numThrds` of the source.
The number of entries that are allocated for the array is `thrdsAlloc`.
-/

open Word

namespace Pool

inductive Rc where
  | poolSuccess
  | poolError
  | groupFull
  deriving DecidableEq, Repr

inductive Health where
  | well
  | moderate
  | poor
  deriving DecidableEq, Repr

inductive State where
  | running
  | idle
  | dead
  deriving DecidableEq, Repr

inductive Holder where
  | call (k : Nat)
  | manager (m : Nat)
  deriving DecidableEq, Repr

structure Q where
  work : LL Nat
  capacity : Nat
  deriving DecidableEq, Repr

namespace Q

def qInit (capacity : Nat) : Q := { work := .initList, capacity := capacity }

def qFull (q : Q) : Bool := q.work.len == q.capacity

def qEmpty (q : Q) : Bool := q.work.emptyList

def qAppend (q : Q) (work : Nat) : Rc × Q :=
  if q.qFull then
    (.poolError, q)
  else
    (.poolSuccess, { q with work := q.work.listAppend work })

/--
The outer option is `none` if the head of the list was taken for a work.
-/
def qFetch (q : Q) : Option (Option Nat × Q) :=
  if q.qEmpty then
    some (none, q)
  else
    match q.work.listPop with
    | (none, _) => some (none, q)
    | (some .head, _) => none
    | (some (.item work), list) => some (some work, { q with work := list })

end Q

structure TGroup where
  mutexGrp : Option Holder
  fixed : Bool
  groupClose : Bool
  groupClean : Bool
  groupWait : Bool
  softKill : Bool
  hardKill : Bool
  q : Q
  idleThrds : LL Nat
  activeThrds : LL Nat
  thrdMax : Nat
  thrdMin : Nat
  thrds : List Nat
  thrdsAlloc : Nat
  deriving DecidableEq, Repr

structure TPool where
  mutexPool : Option Holder
  totalThrds : Nat
  thrdMax : Nat
  groups : LL Nat
  groupsWaiting : Int
  hardKill : Bool
  poolWaiting : Bool
  state : State
  manager : Option Nat
  freed : Bool
  deriving DecidableEq, Repr

def qSizeMult : Nat := 100

def groupFixed : Int := 0x02

/--
The nearest number of the form `m * 2 ^ e` with 24 bits in `m`, ties to even. This is the conversion
of an integer to `float`.
-/
def floatOfNat (n : Nat) : Nat :=
  if n < 2 ^ 24 then
    n
  else
    let ulp := 2 ^ (n.log2 - 23)
    let m := n / ulp
    let r := n % ulp
    if 2 * r > ulp ∨ (2 * r = ulp ∧ m % 2 = 1) then (m + 1) * ulp else m * ulp

namespace TGroup

def numThrds (tg : TGroup) : Nat := tg.thrds.length

/--
The quotient of the two `float`s is rounded to 24 bits as well. It stays below 0.25 iff it is below
the middle of 0.25 and the number in front of it, that is `2 ^ -2 - 2 ^ -27`.
-/
def internalHealthCheck (tg : TGroup) : Health :=
  if tg.q.qEmpty then
    .well
  else if floatOfNat tg.q.work.len * 2 ^ 27 < floatOfNat tg.q.capacity * (2 ^ 25 - 1) then
    .moderate
  else
    .poor

/--
The number of threads that the manager adds to a group.
-/
def addThrds (tg : TGroup) : Nat :=
  let availThrds := sub32 tg.thrdMax tg.numThrds
  match tg.internalHealthCheck with
  | .well => 0
  | .moderate => availThrds / 2
  | .poor => availThrds

/--
`item_remove(&tt->move)` for a thread that is in one of the two lists.
-/
def itemRemove (tg : TGroup) (t : Nat) : TGroup :=
  { tg with idleThrds := tg.idleThrds.itemRemove t, activeThrds := tg.activeThrds.itemRemove t }

/--
What `add_group` sets up before it creates the threads.
-/
def newGroup (min max : Nat) (flags : Int) (holder : Holder) : TGroup :=
  let fixed := flags == groupFixed || min == max
  {
    mutexGrp := some holder
    fixed := fixed
    groupClose := false
    groupClean := false
    groupWait := false
    softKill := false
    hardKill := false
    q := .qInit (mul32 max qSizeMult)
    idleThrds := .initList
    activeThrds := .initList
    thrdMax := if fixed then min else max
    thrdMin := min
    thrds := []
    thrdsAlloc := max
  }

end TGroup

namespace TPool

/--
The pool is `none` where `init_pool` returns `POOL_ERROR`.
-/
def initPool (maxThrds : Nat) : Option TPool :=
  if maxThrds = 0 then
    none
  else
    some {
      mutexPool := none
      totalThrds := 0
      thrdMax := maxThrds
      groups := .initList
      groupsWaiting := 0
      hardKill := false
      poolWaiting := false
      state := .dead
      manager := none
      freed := false
    }

/--
`mutexPool` can be locked. The mutex of a pool that has been freed cannot.
-/
def unlocked (tp : TPool) : Bool := tp.mutexPool.isNone && !tp.freed

/--
The first section of `add_group`: the `min` and the `max` it goes on with.
-/
def addGroupCheck (tp : TPool) (min max : Nat) : Option (Nat × Nat) :=
  let min := if min = 0 then 1 else min
  let availableThrds := sub32 tp.thrdMax tp.totalThrds
  let max := if availableThrds < max then availableThrds else max
  if max = 0 ∨ min > max then none else some (min, max)

/--
The second section of `add_group`, `m` is the manager that it creates for the first group.
-/
def addGroupCharge (tp : TPool) (g max m : Nat) : TPool :=
  let tp := if tp.groups.len = 0 then { tp with state := .idle, manager := some m } else tp
  { tp with groups := tp.groups.listAppend g, totalThrds := add32 tp.totalThrds max }

def refund (tp : TPool) (thrdMax : Nat) : TPool :=
  { tp with totalThrds := sub32 tp.totalThrds thrdMax }

section

variable (tp : TPool) (g max m thrdMax : Nat)

@[simp]
theorem refund_mutexPool : (tp.refund thrdMax).mutexPool = tp.mutexPool := rfl

@[simp]
theorem refund_groups : (tp.refund thrdMax).groups = tp.groups := rfl

@[simp]
theorem addGroupCharge_mutexPool : (tp.addGroupCharge g max m).mutexPool = tp.mutexPool := by
  unfold addGroupCharge
  split <;> rfl

@[simp]
theorem addGroupCharge_groups
    : (tp.addGroupCharge g max m).groups = tp.groups.listAppend g := by
  unfold addGroupCharge
  split <;> rfl

@[simp]
theorem addGroupCharge_freed : (tp.addGroupCharge g max m).freed = tp.freed := by
  unfold addGroupCharge
  split <;> rfl

@[simp]
theorem addGroupCharge_thrdMax : (tp.addGroupCharge g max m).thrdMax = tp.thrdMax := by
  unfold addGroupCharge
  split <;> rfl

@[simp]
theorem addGroupCharge_totalThrds
    : (tp.addGroupCharge g max m).totalThrds = add32 tp.totalThrds max := by
  unfold addGroupCharge
  split <;> rfl

@[simp]
theorem addGroupCharge_groupsWaiting
    : (tp.addGroupCharge g max m).groupsWaiting = tp.groupsWaiting := by
  unfold addGroupCharge
  split <;> rfl

end

end TPool

end Pool
