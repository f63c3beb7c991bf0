import TrashDb.Lib.Prog
import TrashDb.Pool.Nest

/-!
This module contains `worker_thread_function` statement by statement. `workerThreadFunction` is what a worker
does from a place of `WorkerPc` to the next one, which is a single step of the system in `TrashDb.Pool.Impl`.
Here it is a program that locks and unlocks mutexes and has a local variable `wait`.

A program stops if it would have to wait for a mutex. The other reasons why it stops are an `assert` that does
not hold, a read of `wait` before there was an assignment to it, and everything else that the source leaves
undefined.
-/

namespace Pool

open Function Prog

namespace Worker

inductive Stop where
  | blocked
  | assertFailed
  | uninitialized
  | undefined
  deriving DecidableEq, Repr

structure Frame where
  sys : Sys
  -- the mutexes that the worker has locked
  held : List Lock
  wait : Option Bool

abbrev M := EStateM Stop Frame

/--
Where the worker goes on after a part of the loop.
-/
inductive Goto where
  | place (pc : WorkerPc)
  | break_
  deriving DecidableEq, Repr

/--
Whether the mutex is locked by somebody else, `none` if it has been destroyed. Others lock the mutex of a
thread only for the time of a step.
-/
def taken (s : Sys) : Lock → Option Bool
  | .pool => if s.pool.freed then none else some s.pool.mutexPool.isSome
  | .grp g => (s.groups g).map fun tg => tg.mutexGrp.isSome
  | .thrd t => (s.thrds t).map fun _ => false

def pthreadMutexLock (l : Lock) : M Unit := do
  let f ← get
  match taken f.sys l with
  | none => throw .undefined
  | some taken =>
    ensure (!taken && !f.held.contains l) .blocked
    set { f with held := l :: f.held }

def pthreadMutexUnlock (l : Lock) : M Unit := do
  let f ← get
  ensure (f.held.contains l) .undefined
  set { f with held := f.held.erase l }

def getThrd (t : Nat) : M TThread := do
  let f ← get
  match f.sys.thrds t with
  | none => throw .undefined
  | some tt => pure tt

def getGroup (g : Nat) : M TGroup := do
  let f ← get
  match f.sys.groups g with
  | none => throw .undefined
  | some tg => pure tg

def modifySys (g : Sys → Sys) : M Unit := modify fun f => { f with sys := g f.sys }

def setWait (wait : Option Bool) : M Unit := modify fun f => { f with wait := wait }

def readWait : M Bool := do
  let f ← get
  match f.wait with
  | none => throw .uninitialized
  | some wait => pure wait

/--
From the label `top` to the place in front of the task, or to the section under `mutexGrp`.
-/
def top (t : Nat) : M Goto := do
  let tt ← getThrd t
  match tt.currTask with
  | some w =>
    pthreadMutexUnlock (.thrd t)
    pure (.place (.call w))
  | none => pure (.place .grp)

/--
The section under `mutexGrp` up to the test of the state, unless it ends before.
-/
def upToTest (t : Nat) : M (Option Goto) := do
  let tt ← getThrd t
  pthreadMutexLock (.grp tt.tg)
  let tg ← getGroup tt.tg
  if tg.hardKill then
    pthreadMutexUnlock (.grp tt.tg)
    pure (some .break_)
  else if tg.groupClean then
    throw .assertFailed
  else
    match tg.q.qFetch with
    | none => throw .undefined
    | some (some w, q) =>
      modifySys fun s => (s.setGroup tt.tg { tg with q := q }).assign tt.tg w
      modifySys fun s => s.setThrd t { tt with currTask := some w }
      pthreadMutexUnlock (.grp tt.tg)
      some <$> top t
    | some (none, q) =>
      modifySys fun s => s.setGroup tt.tg { tg with q := q }
      modifySys fun s => s.setThrd t { tt with currTask := none }
      if tg.softKill then
        pthreadMutexUnlock (.grp tt.tg)
        pure (some .break_)
      else
        pure none

/--
From the test of the state to the end of the section and the test of `wait`.
-/
def fromTest (t : Nat) : M Goto := do
  let tt ← getThrd t
  let tg ← getGroup tt.tg
  when (tt.state == .running) do
    let tg := tg.itemRemove t
    modifySys fun s => s.setThrd t { tt with state := .idle }
    let wait := tg.groupWait && tg.activeThrds.len == 1
    setWait (some wait)
    let tg := {
      tg with
      groupWait := tg.groupWait && !wait
      activeThrds := { tg.activeThrds with len := tg.activeThrds.len - 1 }
      idleThrds := tg.idleThrds.listAppend t
    }
    modifySys fun s => s.setGroup tt.tg tg
  pthreadMutexUnlock (.grp tt.tg)
  let wait ← readWait
  pure (.place (if wait then .decr else .sleep))

/--
The test of the last loop, which ends in `pthread_cond_wait` or after the loop.
-/
def testIdle (t : Nat) : M Goto := do
  let tt ← getThrd t
  pthreadMutexUnlock (.thrd t)
  pure (.place (if tt.state = .idle then .blocked else .top))

def loopBody (t : Nat) : WorkerPc → M Goto
  | .top => do
    setWait none
    pthreadMutexLock (.thrd t)
    top t
  | .call w => do
    modifySys fun s => { s with called := update s.called w (s.called w + 1) }
    pure (.place (.inFunc w))
  | .inFunc w => pure (.place (.ret w))
  | .ret _ => do
    pthreadMutexLock (.thrd t)
    let tt ← getThrd t
    modifySys fun s => { s with finished := s.finished ++ tt.currTask.toList }
    modifySys fun s => s.setThrd t { tt with currTask := none }
    pure (.place .grp)
  | .grp => do
    let goto ← upToTest t
    match goto with
    | some goto => pure goto
    | none => fromTest t
  | .decr => do
    pthreadMutexLock .pool
    modifySys fun s => s.setPool { s.pool with groupsWaiting := s.pool.groupsWaiting - 1 }
    pthreadMutexUnlock .pool
    pure (.place .sleep)
  | .sleep => testIdle t
  | .blocked => do
    pthreadMutexLock (.thrd t)
    testIdle t
  -- There is no such place in the loop.
  | .leave => throw .undefined

def internalDestroyThread (t : Nat) : M Unit := do
  let tt ← getThrd t
  pthreadMutexLock (.grp tt.tg)
  let tg ← getGroup tt.tg
  let tg := tg.itemRemove t
  ensure (tt.state != .idle) .assertFailed
  let tg := { tg with activeThrds := { tg.activeThrds with len := tg.activeThrds.len - 1 } }
  modifySys fun s => s.setGroup tt.tg tg
  pthreadMutexUnlock (.grp tt.tg)
  modifySys fun s => s.freeThrd t

def setPlace (t : Nat) (pc : WorkerPc) : M Unit := do
  let tt ← getThrd t
  modifySys fun s => s.setThrd t { tt with pc := pc }

def proceed (t : Nat) : Goto → M Unit
  | .place pc => setPlace t pc
  | .break_ => do
    pthreadMutexUnlock (.thrd t)
    setPlace t .leave

def workerThreadFunction (t : Nat) : M Unit := do
  let tt ← getThrd t
  if tt.pc = .leave then
    internalDestroyThread t
  else
    let goto ← loopBody t tt.pc
    proceed t goto

end Worker

/--
The pool with what each worker has locked and the value of its variable.
-/
structure Loops where
  sys : Sys
  held : Nat → List Lock
  wait : Nat → Option Bool

namespace Loops

def init (tp : TPool) : Loops where
  sys := .init tp
  held := fun _ => []
  wait := fun _ => none

def frame (x : Loops) (t : Nat) : Worker.Frame := { sys := x.sys, held := x.held t, wait := x.wait t }

def setFrame (x : Loops) (t : Nat) (f : Worker.Frame) : Loops :=
  { sys := f.sys, held := update x.held t f.held, wait := update x.wait t f.wait }

def step (x : Loops) : Action → Option Loops
  | .worker t =>
    match (Worker.workerThreadFunction t).run (x.frame t) with
    | .ok _ f => some (x.setFrame t f)
    | .error _ _ => none
  | a => (x.sys.step a).map fun s => { x with sys := s }

end Loops

end Pool
