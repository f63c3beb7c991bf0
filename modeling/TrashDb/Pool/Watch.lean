import Mathlib.Data.Finset.Range
import TrashDb.Lib.Tally
import TrashDb.Pool.Lemmas.Wait

/-!
This module contains the pool together with who sleeps on `condPool`. The system in `TrashDb.Pool.Impl`
lets `wait_pool` test its condition again at any time, since a thread can always wake up without a
reason. `Watch` records in addition for whom there has been a reason. The only one that counts is the
`pthread_cond_broadcast` of a worker, which is made if its decrement brings `groupsWaiting` to 0.
-/

namespace Pool

open Function

/--
The call is in the `pthread_cond_wait` of `wait_pool`.
-/
def CallPc.blocked : CallPc → Bool
  | .waitBlock _ => true
  | _ => false

structure Watch where
  sys : Sys
  woken : Nat → Bool
  broadcasts : Nat

namespace Watch

def init (tp : TPool) : Watch where
  sys := .init tp
  woken := fun _ => false
  broadcasts := 0

def broadcast (x : Watch) : Watch :=
  {
    x with
    woken := fun k => x.woken k || (x.sys.calls k).blocked
    broadcasts := x.broadcasts + 1
  }

def step (x : Watch) (a : Action) : Option Watch :=
  match x.sys.step a with
  | none => none
  | some s =>
    match a with
    | .caller k => some { x with sys := s, woken := update x.woken k false }
    | .worker t =>
      let x' := { x with sys := s }
      if settles (x.sys.thrds t) ∧ s.pool.groupsWaiting = 0 then some x'.broadcast else some x'
    | .call _ | .manager _ _ => some { x with sys := s }

end Watch

/--
The groups that a caller of `wait_pool` has still to look at.
-/
def CallPc.left : CallPc → Option (List Nat)
  | .waitLook gs _ => some gs
  | _ => none

/--
There is one such caller at a time, the one that has locked `mutexPool`.
-/
def Sys.left (s : Sys) : Option (List Nat) :=
  match s.pool.mutexPool with
  | some (.call k) => (s.calls k).left
  | _ => none

/--
The groups that have the flag `GROUP_WAIT`.
-/
def Sys.flagged (s : Sys) : Finset Nat := {g ∈ Finset.range s.nextGroup | flagOf (s.groups g) = true}

/--
The workers that have cleared the flag of their group and have not decremented `groupsWaiting` yet.
-/
def Sys.due (s : Sys) : Finset Nat := {t ∈ Finset.range s.nextThrd | settles (s.thrds t) = true}

/--
The callers of `wait_pool` that sleep and have not been woken up by a broadcast.
-/
def Watch.asleep (x : Watch) : Finset Nat :=
  {k ∈ Finset.range x.sys.nextCall | (x.sys.calls k).blocked = true ∧ x.woken k = false}

def Watch.tally (x : Watch) : Tally.State Nat Nat Nat where
  count := x.sys.pool.groupsWaiting
  left := x.sys.left
  linked := x.sys.pool.groups.items.toFinset
  flagged := x.sys.flagged
  due := x.sys.due
  waiters := x.asleep

end Pool
