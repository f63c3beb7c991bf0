import Mathlib.Logic.Relation
import TrashDb.Pool.Step

/-!
This module contains the pool together with the calls of `do_work` that are made by the tasks themselves.
Such a call is executed by the worker whose task has made it, so the worker does not go on before the
call has returned.

A thread of the system is a worker, a manager, or whoever makes a call from outside of the pool. What it
holds are the mutexes it owns, what it wants is the mutex that its next step locks.
-/

namespace Pool

open Function

structure Nest where
  sys : Sys
  -- the worker whose task has made the call
  inside : Nat → Option Nat

inductive NestAction where
  | outer (a : Action)
  | inner (t g w : Nat)
  deriving DecidableEq, Repr

inductive Lock where
  | pool
  | grp (g : Nat)
  | thrd (t : Nat)
  deriving DecidableEq, Repr

inductive Party where
  | caller (k : Nat)
  | worker (t : Nat)
  | manager (m : Nat)
  deriving DecidableEq, Repr

/--
The thread is in the function of its task.
-/
def inFunc : Option TThread → Bool
  | none => false
  | some tt =>
    match tt.pc with
    | .inFunc _ => true
    | _ => false

namespace Nest

def init (tp : TPool) : Nest where
  sys := .init tp
  inside := fun _ => none

/--
The task of the worker is in a call of `do_work`.
-/
def busy (x : Nest) (t : Nat) : Bool :=
  (List.range x.sys.nextCall).any fun k => x.inside k == some t && x.sys.calls k != .returned

def enabled (x : Nest) : NestAction → Bool
  | .outer (.worker t) => !x.busy t
  | .outer _ => true
  | .inner t _ _ => inFunc (x.sys.thrds t) && !x.busy t

def step (x : Nest) (a : NestAction) : Option Nest :=
  if x.enabled a then
    match a with
    | .outer a => (x.sys.step a).map fun s => { x with sys := s }
    | .inner t g w =>
      (x.sys.callStart (.doWork g w)).map fun s =>
        { sys := s, inside := update x.inside x.sys.nextCall (some t) }
  else
    none

/--
The thread that executes the call.
-/
def thread (x : Nest) (k : Nat) : Party :=
  match x.inside k with
  | none => .caller k
  | some t => .worker t

end Nest

namespace Sys

def callWants (s : Sys) (k : Nat) : Option Lock :=
  match s.calls k with
  | .addCheck _ _ _ | .addCharge _ _ | .unlink _ | .refund _ | .killManager | .relock => some .pool
  | .notify _ _ | .waitStart _ | .waitBlock _ => some .pool
  | .close g _ | .offer g _ | .waitLook (g :: _) _ => some (.grp g)
  | .wake g _ _ =>
    match s.groups g with
    | none => none
    | some tg => tg.idleThrds.items.head?.map .thrd
  | .hand _ t _ => some (.thrd t)
  | _ => none

def workerWants (s : Sys) (t : Nat) : Option Lock :=
  match s.thrds t with
  | none => none
  | some tt =>
    match tt.pc with
    | .top | .ret _ | .blocked => some (.thrd t)
    | .grp | .leave => some (.grp tt.tg)
    | .decr => some .pool
    | .call _ | .inFunc _ | .sleep => none

def managerWants (s : Sys) (m : Nat) : Option Lock :=
  match s.managers m with
  | .wait => some .pool
  | .pass (g :: _) => some (.grp g)
  | _ => none

end Sys

namespace Nest

inductive Wants (x : Nest) : Party → Lock → Prop where
  | call (k : Nat) (l : Lock) (h : x.sys.callWants k = some l) : Wants x (x.thread k) l
  | worker (t : Nat) (l : Lock) (h : x.sys.workerWants t = some l) : Wants x (.worker t) l
  | manager (m : Nat) (l : Lock) (h : x.sys.managerWants m = some l) : Wants x (.manager m) l

inductive Holds (x : Nest) : Party → Lock → Prop where
  | poolCall (k : Nat) (h : x.sys.pool.mutexPool = some (.call k)) : Holds x (x.thread k) .pool
  | poolManager (m : Nat) (h : x.sys.pool.mutexPool = some (.manager m)) : Holds x (.manager m) .pool
  | grpCall (k g : Nat) (tg : TGroup) (hg : x.sys.groups g = some tg)
    (h : tg.mutexGrp = some (.call k)) : Holds x (x.thread k) (.grp g)
  | grpManager (m g : Nat) (tg : TGroup) (hg : x.sys.groups g = some tg)
    (h : tg.mutexGrp = some (.manager m)) : Holds x (.manager m) (.grp g)
  | thrd (t : Nat) (tt : TThread) (ht : x.sys.thrds t = some tt) (h : tt.pc.locked = true) :
    Holds x (.worker t) (.thrd t)

/--
The thread is blocked on a mutex of the other one.
-/
def Waits (x : Nest) (p q : Party) : Prop := ∃ l, x.Wants p l ∧ x.Holds q l

end Nest

end Pool
