import Mathlib.Logic.Function.Basic
import TrashDb.Il
import TrashDb.Lib.Lts

/-!
This module contains the logger of `logger.c` as a transition system of the threads that take part in
it: any number of calls of `trash_log`, the log thread, and the thread that calls `init_logger` and
`close_logger` in turn. A step is the code up to the next access to what the threads share.

A record is referred to by the number of its call. The fields `cycle`, `start`, `appended`, `takenIn`
and `args` are not part of the program; they remember what the results talk about.
-/

namespace Logger

inductive Level where
  | info
  | debug
  | warn
  | error
  deriving DecidableEq, Repr

def levelToChar : Level → String
  | .info => "INFO"
  | .debug => "DEBUG"
  | .warn => "WARN"
  | .error => "ERROR"

structure LogInfo where
  message : String
  file : String
  line : Int
  level : Level
  deriving DecidableEq, Repr

/--
`LOGGED` and `LOG_ERROR`
-/
inductive Rc where
  | logged
  | logError
  deriving DecidableEq, Repr

def closeQ : BitVec 32 := 0x01

def openQ : BitVec 32 := 0x02

/--
One `fprintf` to the log file.
-/
structure Line where
  record : Nat
  -- what `%s` prints of the 24 bytes of `timestamp`, which no zero ends
  timestamp : String
  log : LogInfo
  deriving DecidableEq, Repr

/--
`LOG_FMT`
-/
def Line.text (l : Line) : String :=
  "[" ++ l.timestamp ++ "][" ++ levelToChar l.log.level ++ "][" ++ l.log.file ++ ":" ++
    toString l.log.line ++ "][" ++ l.log.message ++ "]\n"

inductive Owner where
  | call (k : Nat)
  | thread
  | main
  deriving DecidableEq, Repr

inductive CallPc where
  | absent
  | lock
  | check
  | append
  | signal
  | unlock (rc : Rc)
  | returned (rc : Rc)
  deriving DecidableEq, Repr

inductive ThreadPc where
  | absent
  | lock
  | testWait
  -- asleep in `pthread_cond_wait`
  | asleep
  -- woken up in `pthread_cond_wait`, which still has to lock the mutex again
  | woken
  | testClose
  | pop
  | write (record : Nat)
  | unlock
  | exited
  deriving DecidableEq, Repr

inductive MainPc where
  | idle
  | initMutex
  | initCond
  | fopen (attempts : Nat)
  | setOpen
  | create
  | opened
  | failed
  | closeLock
  | setClose
  | signal
  | unlock
  | join
  | destroyMutex
  | destroyCond
  deriving DecidableEq, Repr

/--
What `fopen` does. On `ENOENT` the source calls `trash_no_file_dir`, which returns `rc` and leaves
`EACCES` or something else in `errno`.
-/
inductive Fopen where
  | ok
  | enoent (rc : Int) (eacces : Bool)
  | eacces
  | other
  deriving DecidableEq, Repr

inductive Action where
  | trashLog (log : LogInfo)
  | call (k : Nat)
  | thread (now : String)
  | spuriousWakeup
  | initLogger
  | closeLogger
  | fopen (res : Fopen)
  | create (rc : Int)
  | main
  deriving DecidableEq, Repr

structure Sys where
  logs : LL Nat
  -- `none` while the mutex is not initialized, `some none` while it is free
  logMutex : Option (Option Owner)
  flags : BitVec 32
  heap : Nat → Option LogInfo
  file : List Line
  calls : Nat → CallPc
  nextCall : Nat
  thread : ThreadPc
  main : MainPc
  cycle : Nat
  start : Nat
  appended : List Nat
  takenIn : Nat → Option Nat
  args : Nat → Option LogInfo

namespace Sys

def init : Sys where
  logs := .initList
  logMutex := none
  flags := 0
  heap := fun _ => none
  file := []
  calls := fun _ => .absent
  nextCall := 0
  thread := .absent
  main := .idle
  cycle := 0
  start := 0
  appended := []
  takenIn := fun _ => none
  args := fun _ => none

def setCall (s : Sys) (k : Nat) (pc : CallPc) : Sys :=
  { s with calls := Function.update s.calls k pc }

def isOpen (s : Sys) : Bool := s.flags &&& openQ != 0

def isClose (s : Sys) : Bool := s.flags &&& closeQ != 0

/--
`pthread_cond_signal(&logCond)`, on which nobody but the log thread waits.
-/
def condSignal (s : Sys) : Sys :=
  match s.thread with
  | .asleep => { s with thread := .woken }
  | _ => s

def callTrashLog (s : Sys) (log : LogInfo) : Sys :=
  {
    s.setCall s.nextCall .lock with
    heap := Function.update s.heap s.nextCall (some log)
    args := Function.update s.args s.nextCall (some log)
    nextCall := s.nextCall + 1
  }

def stepCall (s : Sys) (k : Nat) : Option Sys :=
  match s.calls k with
  | .absent => none
  | .lock =>
    if s.logMutex = some none then
      some
        {
          s.setCall k .check with
          logMutex := some (some (.call k))
          takenIn := Function.update s.takenIn k (some s.cycle)
        }
    else
      none
  | .check => some (s.setCall k (if s.isOpen then .append else .unlock .logError))
  | .append =>
    some
      {
        s.setCall k .signal with
        logs := s.logs.listAppend k
        appended := s.appended ++ [k]
      }
  | .signal =>
    some ((if s.logs.len < 1 then s.condSignal else s).setCall k (.unlock .logged))
  | .unlock rc => some { s.setCall k (.returned rc) with logMutex := some none }
  | .returned _ => none

/--
The log thread is `none` where the source dereferences what is not a record. It leaves its loop
without unlocking the mutex.
-/
def stepThread (s : Sys) (now : String) : Option Sys :=
  match s.thread with
  | .absent => none
  | .lock | .woken =>
    if s.logMutex = some none then
      some { s with thread := .testWait, logMutex := some (some .thread) }
    else
      none
  | .testWait =>
    if s.logs.emptyList && s.isOpen then
      some { s with thread := .asleep, logMutex := some none }
    else
      some { s with thread := .testClose }
  | .asleep => none
  | .testClose =>
    some { s with thread := if s.logs.emptyList && s.isClose then .exited else .pop }
  | .pop =>
    match s.logs.listPop with
    | (some (.item k), logs) => some { s with logs := logs, thread := .write k }
    | _ => none
  | .write k =>
    match s.heap k with
    | some log =>
      some
        {
          s with
          file := s.file ++ [⟨k, now, log⟩]
          heap := Function.update s.heap k none
          thread := .unlock
        }
    | none => none
  | .unlock => some { s with thread := .lock, logMutex := some none }
  | .exited => none

/--
`fopen` is tried again once, and `none` is a failed `assert`.
-/
def stepFopen (s : Sys) (attempts : Nat) (res : Fopen) : Option Sys :=
  let again : Sys := { s with main := if attempts + 1 < 2 then .fopen (attempts + 1) else .failed }
  match res with
  | .ok => some { s with main := .setOpen }
  | .enoent rc eacces => if rc = 0 ∧ eacces = false then some again else none
  | .eacces => none
  | .other => some again

/--
`pthread_mutex_destroy` leaves a mutex that is locked as it is. A process whose `init_logger` did not
succeed calls neither function again.
-/
def stepMain (s : Sys) : Option Sys :=
  match s.main with
  | .initMutex => some { s with main := .initCond, logMutex := some none }
  | .initCond => some { s with main := .fopen 0 }
  | .setOpen => some { s with main := .create, flags := s.flags ||| openQ }
  | .closeLock =>
    if s.logMutex = some none then
      some { s with main := .setClose, logMutex := some (some .main) }
    else
      none
  | .setClose => some { s with main := .signal, flags := closeQ }
  | .signal => some { s.condSignal with main := .unlock }
  | .unlock => some { s with main := .join, logMutex := some none }
  | .join =>
    if s.thread = .exited then some { s with main := .destroyMutex, thread := .absent } else none
  | .destroyMutex =>
    some
      {
        s with
        main := .destroyCond
        logMutex := if s.logMutex = some none then none else s.logMutex
      }
  | .destroyCond => some { s with main := .idle }
  | .idle | .fopen _ | .create | .opened | .failed => none

def step (s : Sys) : Action → Option Sys
  | .trashLog log => some (s.callTrashLog log)
  | .call k => s.stepCall k
  | .thread now => s.stepThread now
  | .spuriousWakeup => if s.thread = .asleep then some { s with thread := .woken } else none
  | .initLogger =>
    if s.main = .idle then
      some
        {
          s with
          main := .initMutex
          logs := .initList
          cycle := s.cycle + 1
          start := s.file.length
          appended := []
        }
    else
      none
  | .closeLogger => if s.main = .opened then some { s with main := .closeLock } else none
  | .fopen res =>
    match s.main with
    | .fopen attempts => s.stepFopen attempts res
    | _ => none
  | .create rc =>
    if s.main = .create then
      some (if rc = 0 then { s with main := .opened, thread := .lock } else { s with main := .failed })
    else
      none
  | .main => s.stepMain

end Sys

abbrev run : Sys → List Action → Option Sys := Lts.run Sys.step

end Logger
