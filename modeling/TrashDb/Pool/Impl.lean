import TrashDb.Pool.Basic

/-!
This module contains the thread pool of `pool.c` as a system of callers, workers and managers that
take turns.

A step is a critical section of the source, or the code between two of them. A section with a loop in
it is one step per turn of the loop, the mutex stays locked in between. So is a section that contains
other sections, which are the points where it can block. A step that would block is not enabled. Nor
is one whose behaviour the source leaves undefined: an access to a group or pool that has been freed,
the use of the head of a list as an item, and an `assert` that does not hold.

Every call of a function of `pool.h` has a number of its own, `CallPc` is the place it has reached.
The field `groups` of the system are the groups that are allocated, whether linked in the pool or not,
and `thrds` are the threads that have not returned. The last fields of the system record its history
and are read by no function of the source:
- `published` are the groups that `add_group` has returned. Only these are used by callers.
- `given` are the works that a running `do_work` was called with or that a `do_work` has accepted.
  A work belongs to the pool from then on, so no other call is made with it.
- `returned` are the works for which `do_work` has returned `POOL_SUCCESS`.
- `accepted` and `assigned` are the works of each group in the order in which `do_work` has accepted
  them and in the order in which they were assigned to a thread.
- `called` counts the calls of the function of a work, `finished` are the works that were freed.
-/

namespace Pool

inductive Req where
  | addGroup (min max : Nat) (flags : Int)
  | destroyGroup (g : Nat)
  | destroyPool
  | doWork (g w : Nat)
  | waitPool
  deriving DecidableEq, Repr

/--
The function that has called `internal_destroy_group`.
-/
inductive Destroyer where
  | destroyGroup
  | destroyPool
  deriving DecidableEq, Repr

inductive CallPc where
  -- add_group
  | addCheck (min max : Nat) (flags : Int)
  | addBuild (min max : Nat) (flags : Int)
  | addSpawn (g n max : Nat)
  | addCharge (g max : Nat)
  -- destroy_group
  | unlink (g : Nat)
  | refund (g : Nat)
  -- internal_destroy_group
  | close (g : Nat) (by_ : Destroyer)
  | wake (g : Nat) (ts : List Nat) (by_ : Destroyer)
  | join (g : Nat) (ts : List Nat) (by_ : Destroyer)
  -- destroy_pool
  | killManager
  | readManager
  | joinManager (m : Nat)
  | relock
  | popGroups
  -- do_work
  | offer (g w : Nat)
  | notify (w : Nat) (rc : Rc)
  | hand (g t w : Nat)
  | done (w : Nat) (rc : Rc)
  -- wait_pool
  | waitStart (before : List Nat)
  | waitLook (gs before : List Nat)
  | waitBlock (before : List Nat)
  | waitDone (before : List Nat)
  | returned
  deriving DecidableEq, Repr

inductive WorkerPc where
  | top
  | call (w : Nat)
  | inFunc (w : Nat)
  | ret (w : Nat)
  | grp
  | decr
  | sleep
  | blocked
  | leave
  deriving DecidableEq, Repr

inductive ManagerPc where
  | wait
  | pass (gs : List Nat)
  | spawn (g n : Nat) (gs : List Nat)
  | exited
  deriving DecidableEq, Repr

structure TThread where
  state : State
  currTask : Option Nat
  tg : Nat
  pc : WorkerPc
  deriving DecidableEq, Repr

/--
The worker has locked its own `mutexThrd`.
-/
def WorkerPc.locked : WorkerPc → Bool
  | .grp | .decr | .sleep => true
  | _ => false

structure Sys where
  pool : TPool
  groups : Nat → Option TGroup
  thrds : Nat → Option TThread
  calls : Nat → CallPc
  managers : Nat → ManagerPc
  nextGroup : Nat
  nextThrd : Nat
  nextCall : Nat
  nextManager : Nat
  published : List Nat
  given : List Nat
  returned : List Nat
  accepted : Nat → List Nat
  assigned : Nat → List Nat
  called : Nat → Nat
  finished : List Nat

inductive Action where
  | call (req : Req)
  | caller (k : Nat)
  | worker (t : Nat)
  | manager (m : Nat) (timedOut : Bool)
  deriving DecidableEq, Repr

namespace Sys

def init (tp : TPool) : Sys where
  pool := tp
  groups := fun _ => none
  thrds := fun _ => none
  calls := fun _ => .returned
  managers := fun _ => .exited
  nextGroup := 0
  nextThrd := 0
  nextCall := 0
  nextManager := 0
  published := []
  given := []
  returned := []
  accepted := fun _ => []
  assigned := fun _ => []
  called := fun _ => 0
  finished := []

@[simp]
def setPool (s : Sys) (tp : TPool) : Sys := { s with pool := tp }

@[simp]
def setGroup (s : Sys) (g : Nat) (tg : TGroup) : Sys :=
  { s with groups := Function.update s.groups g (some tg) }

@[simp]
def freeGroup (s : Sys) (g : Nat) : Sys := { s with groups := Function.update s.groups g none }

@[simp]
def setThrd (s : Sys) (t : Nat) (tt : TThread) : Sys :=
  { s with thrds := Function.update s.thrds t (some tt) }

@[simp]
def freeThrd (s : Sys) (t : Nat) : Sys := { s with thrds := Function.update s.thrds t none }

@[simp]
def setCall (s : Sys) (k : Nat) (pc : CallPc) : Sys :=
  { s with calls := Function.update s.calls k pc }

@[simp]
def setManager (s : Sys) (m : Nat) (pc : ManagerPc) : Sys :=
  { s with managers := Function.update s.managers m pc }

@[simp]
def accept (s : Sys) (g w : Nat) : Sys :=
  { s with accepted := Function.update s.accepted g (s.accepted g ++ [w]) }

@[simp]
def assign (s : Sys) (g w : Nat) : Sys :=
  { s with assigned := Function.update s.assigned g (s.assigned g ++ [w]) }

/--
`internal_create_thread` and the start of the thread.
-/
@[simp]
def spawn (s : Sys) (g : Nat) (tg : TGroup) (work : Option Nat) : Sys :=
  let t := s.nextThrd
  let tg := { tg with activeThrds := tg.activeThrds.listAppend t, thrds := tg.thrds ++ [t] }
  let tt := { state := .running, currTask := work, tg := g, pc := .top }
  { (s.setGroup g tg).setThrd t tt with nextThrd := t + 1 }

@[simp]
def startCall (s : Sys) (pc : CallPc) : Sys :=
  { s.setCall s.nextCall pc with nextCall := s.nextCall + 1 }

def callStart (s : Sys) (req : Req) : Option Sys :=
  match req with
  | .addGroup min max flags => some (s.startCall (.addCheck min max flags))
  | .destroyGroup g => if g ∈ s.published then some (s.startCall (.unlink g)) else none
  | .destroyPool => some (s.startCall .killManager)
  | .doWork g w =>
    if g ∈ s.published ∧ w ∉ s.given then
      some { s.startCall (.offer g w) with given := w :: s.given }
    else
      none
  | .waitPool => some (s.startCall (.waitStart s.returned))

/--
The section of `do_work` under `mutexGrp`. If there is no idle thread then the health of the group
decides whether the manager is notified after the section.
-/
def doWorkSection (s : Sys) (k g w : Nat) (tg : TGroup) : Option Sys :=
  if tg.groupClose then
    some (s.setCall k (.done w .poolError))
  else
    match tg.idleThrds.listPop with
    | (none, _) =>
      match tg.q.qAppend w with
      | (.poolSuccess, q) =>
        let tg := { tg with q := q }
        let pc := if tg.internalHealthCheck = .well then .done w .poolSuccess else .notify w .poolSuccess
        some (((s.setGroup g tg).accept g w).setCall k pc)
      | (_, _) =>
        let pc := if tg.internalHealthCheck = .well then .done w .groupFull else .notify w .groupFull
        some (s.setCall k pc)
    | (some .head, _) => none
    | (some (.item t), list) =>
      let tg := { tg with idleThrds := list, activeThrds := tg.activeThrds.listAppend t }
      some ((((s.setGroup g tg).accept g w).assign g w).setCall k (.hand g t w))

/--
One turn of the loop of `internal_destroy_group` over the idle threads, or its end.
-/
def wakeSection (s : Sys) (k g : Nat) (ts : List Nat) (by_ : Destroyer) (tg : TGroup) : Option Sys :=
  match tg.idleThrds.listPop with
  | (none, _) =>
    some ((s.setGroup g { tg with mutexGrp := none }).setCall k (.join g ts by_))
  | (some .head, _) => none
  | (some (.item t), list) =>
    match s.thrds t with
    | none => none
    | some tt =>
      if tt.pc.locked then
        none
      else
        let tg := { tg with idleThrds := list, activeThrds := tg.activeThrds.listAppend t }
        some ((s.setGroup g tg).setThrd t { tt with state := .running })

/--
The end of the loop of `wait_pool`, or one more turn of it.
-/
def waitTest (s : Sys) (k : Nat) (before : List Nat) : Sys :=
  if s.pool.groupsWaiting > 0 then
    (s.setPool { s.pool with mutexPool := none, poolWaiting := true }).setCall k (.waitBlock before)
  else
    (s.setPool { s.pool with mutexPool := none, poolWaiting := false }).setCall k (.waitDone before)

def callStep (s : Sys) (k : Nat) : Option Sys :=
  match s.calls k with
  | .addCheck min max flags =>
    if s.pool.unlocked then
      match s.pool.addGroupCheck min max with
      | none => some (s.setCall k .returned)
      | some (min, max) => some (s.setCall k (.addBuild min max flags))
    else
      none
  | .addBuild min max flags =>
    let g := s.nextGroup
    let s := s.setGroup g (.newGroup min max flags (.call k))
    some ({ s with nextGroup := g + 1 }.setCall k (.addSpawn g min max))
  | .addSpawn g (n + 1) max =>
    match s.groups g with
    | none => none
    | some tg => some ((s.spawn g tg none).setCall k (.addSpawn g n max))
  | .addSpawn g 0 max =>
    match s.groups g with
    | none => none
    | some tg => some ((s.setGroup g { tg with mutexGrp := none }).setCall k (.addCharge g max))
  | .addCharge g max =>
    if s.pool.unlocked then
      let m := s.nextManager
      let s' := { s.setPool (s.pool.addGroupCharge g max m) with published := g :: s.published }
      if s.pool.groups.len = 0 then
        some (({ s' with nextManager := m + 1 }.setManager m .wait).setCall k .returned)
      else
        some (s'.setCall k .returned)
    else
      none
  | .unlink g =>
    if s.pool.unlocked ∧ g ∈ s.pool.groups.items then
      let tp := { s.pool with groups := s.pool.groups.itemRemove g }
      some ((s.setPool tp).setCall k (.close g .destroyGroup))
    else
      none
  | .close g by_ =>
    match s.groups g with
    | none => none
    | some tg =>
      if tg.mutexGrp.isNone then
        let tg := { tg with groupClose := true, softKill := true, mutexGrp := some (.call k) }
        some ((s.setGroup g tg).setCall k (.wake g tg.thrds by_))
      else
        none
  | .wake g ts by_ =>
    match s.groups g with
    | none => none
    | some tg => s.wakeSection k g ts by_ tg
  | .join g (t :: ts) by_ => if (s.thrds t).isNone then some (s.setCall k (.join g ts by_)) else none
  | .join g [] .destroyGroup => some (s.setCall k (.refund g))
  | .join g [] .destroyPool =>
    match s.groups g with
    | none => none
    | some tg => some (((s.setPool (s.pool.refund tg.thrdMax)).freeGroup g).setCall k .popGroups)
  | .refund g =>
    match s.groups g with
    | none => none
    | some tg =>
      if s.pool.unlocked then
        let tp := { s.pool with groups := { s.pool.groups with len := s.pool.groups.len - 1 } }
        some (((s.setPool (tp.refund tg.thrdMax)).freeGroup g).setCall k .returned)
      else
        none
  | .killManager =>
    if s.pool.unlocked then
      if s.pool.state = .dead then
        some ((s.setPool { s.pool with mutexPool := some (.call k) }).setCall k .popGroups)
      else
        let tp := { s.pool with hardKill := true, state := .running }
        some ((s.setPool tp).setCall k .readManager)
    else
      none
  | .readManager =>
    match s.pool.manager with
    | none => none
    | some m => if s.pool.freed then none else some (s.setCall k (.joinManager m))
  | .joinManager m => if s.managers m = .exited then some (s.setCall k .relock) else none
  | .relock =>
    if s.pool.unlocked then
      some ((s.setPool { s.pool with mutexPool := some (.call k) }).setCall k .popGroups)
    else
      none
  | .popGroups =>
    match s.pool.groups.listPop with
    | (none, _) =>
      some ((s.setPool { s.pool with mutexPool := none, freed := true }).setCall k .returned)
    | (some .head, _) => none
    | (some (.item g), list) =>
      some ((s.setPool { s.pool with groups := list }).setCall k (.close g .destroyPool))
  | .offer g w =>
    match s.groups g with
    | none => none
    | some tg => if tg.mutexGrp.isNone then s.doWorkSection k g w tg else none
  | .notify w rc =>
    if s.pool.unlocked then
      some ((s.setPool { s.pool with state := .running }).setCall k (.done w rc))
    else
      none
  | .hand _ t w =>
    match s.thrds t with
    | none => none
    | some tt =>
      if tt.pc.locked then
        none
      else
        let tt := { tt with currTask := some w, state := .running }
        some ((s.setThrd t tt).setCall k (.done w .poolSuccess))
  | .done w rc =>
    if rc = .poolSuccess then
      some ({ s with returned := w :: s.returned }.setCall k .returned)
    else
      some ({ s with given := s.given.erase w }.setCall k .returned)
  | .waitStart before =>
    if s.pool.unlocked then
      let tp := { s.pool with mutexPool := some (.call k), groupsWaiting := s.pool.groups.len }
      some ((s.setPool tp).setCall k (.waitLook s.pool.groups.items before))
    else
      none
  | .waitLook (g :: gs) before =>
    match s.groups g with
    | none => none
    | some tg =>
      if tg.mutexGrp.isNone then
        if tg.q.qEmpty then
          let tp := { s.pool with groupsWaiting := s.pool.groupsWaiting - 1 }
          some ((s.setPool tp).setCall k (.waitLook gs before))
        else
          some ((s.setGroup g { tg with groupWait := true }).setCall k (.waitLook gs before))
      else
        none
  | .waitLook [] before => some (s.waitTest k before)
  | .waitBlock before => if s.pool.unlocked then some (s.waitTest k before) else none
  | .waitDone _ => some (s.setCall k .returned)
  | .returned => none

/--
The section of a worker under `mutexGrp`. The variable `wait` is only set if the thread is running,
otherwise the source goes on with an uninitialized value.
-/
def workerSection (s : Sys) (t : Nat) (tt : TThread) (tg : TGroup) : Option Sys :=
  if tg.hardKill then
    some (s.setThrd t { tt with pc := .leave })
  else if tg.groupClean then
    none
  else
    match tg.q.qFetch with
    | none => none
    | some (some w, q) =>
      let s := (s.setGroup tt.tg { tg with q := q }).assign tt.tg w
      some (s.setThrd t { tt with currTask := some w, pc := .call w })
    | some (none, _) =>
      let tt := { tt with currTask := none }
      if tg.softKill then
        some (s.setThrd t { tt with pc := .leave })
      else if tt.state = .running then
        let tg := tg.itemRemove t
        let wait := tg.groupWait && tg.activeThrds.len == 1
        let tg := {
          tg with
          groupWait := tg.groupWait && !wait
          activeThrds := { tg.activeThrds with len := tg.activeThrds.len - 1 }
          idleThrds := tg.idleThrds.listAppend t
        }
        let pc := if wait then .decr else .sleep
        some ((s.setGroup tt.tg tg).setThrd t { tt with state := .idle, pc := pc })
      else
        none

/--
`internal_destroy_thread`
-/
def leaveSection (s : Sys) (t : Nat) (tt : TThread) (tg : TGroup) : Option Sys :=
  let tg := tg.itemRemove t
  if tt.state = .idle then
    none
  else
    let tg := { tg with activeThrds := { tg.activeThrds with len := tg.activeThrds.len - 1 } }
    some ((s.setGroup tt.tg tg).freeThrd t)

def workerStep (s : Sys) (t : Nat) : Option Sys :=
  match s.thrds t with
  | none => none
  | some tt =>
    match tt.pc with
    | .top =>
      match tt.currTask with
      | some w => some (s.setThrd t { tt with pc := .call w })
      | none => some (s.setThrd t { tt with pc := .grp })
    | .call w =>
      let s := { s with called := Function.update s.called w (s.called w + 1) }
      some (s.setThrd t { tt with pc := .inFunc w })
    | .inFunc w => some (s.setThrd t { tt with pc := .ret w })
    | .ret _ =>
      let s := { s with finished := s.finished ++ tt.currTask.toList }
      some (s.setThrd t { tt with currTask := none, pc := .grp })
    | .grp =>
      match s.groups tt.tg with
      | none => none
      | some tg => if tg.mutexGrp.isNone then s.workerSection t tt tg else none
    | .decr =>
      if s.pool.unlocked then
        let tp := { s.pool with groupsWaiting := s.pool.groupsWaiting - 1 }
        some ((s.setPool tp).setThrd t { tt with pc := .sleep })
      else
        none
    | .sleep | .blocked =>
      if tt.state = .idle then
        some (s.setThrd t { tt with pc := .blocked })
      else
        some (s.setThrd t { tt with pc := .top })
    | .leave =>
      match s.groups tt.tg with
      | none => none
      | some tg => if tg.mutexGrp.isNone then s.leaveSection t tt tg else none

def managerStep (s : Sys) (m : Nat) (timedOut : Bool) : Option Sys :=
  match s.managers m with
  | .wait =>
    if s.pool.unlocked then
      if !(timedOut || s.pool.state == .running) || s.pool.poolWaiting then
        some s
      else if s.pool.hardKill then
        some (s.setManager m .exited)
      else
        let tp := { s.pool with mutexPool := some (.manager m) }
        some ((s.setPool tp).setManager m (.pass s.pool.groups.items))
    else
      none
  | .pass (g :: gs) =>
    match s.groups g with
    | none => none
    | some tg =>
      if tg.mutexGrp.isNone then
        let s := s.setGroup g { tg with mutexGrp := some (.manager m) }
        some (s.setManager m (.spawn g tg.addThrds gs))
      else
        none
  | .pass [] =>
    some ((s.setPool { s.pool with state := .idle, mutexPool := none }).setManager m .wait)
  | .spawn g (n + 1) gs =>
    match s.groups g with
    | none => none
    | some tg =>
      match tg.q.qFetch with
      | none => none
      | some (some w, q) =>
        some (((s.spawn g { tg with q := q } (some w)).assign g w).setManager m (.spawn g n gs))
      | some (none, q) => some ((s.spawn g { tg with q := q } none).setManager m (.spawn g n gs))
  | .spawn g 0 gs =>
    match s.groups g with
    | none => none
    | some tg => some ((s.setGroup g { tg with mutexGrp := none }).setManager m (.pass gs))
  | .exited => none

def step (s : Sys) (a : Action) : Option Sys :=
  match a with
  | .call req => s.callStart req
  | .caller k => s.callStep k
  | .worker t => s.workerStep t
  | .manager m timedOut => s.managerStep m timedOut

end Sys

end Pool
