import TrashDb.Logger.Impl

/-!
This module contains the steps of the system in `TrashDb.Logger.Impl` as relations with one
constructor per outcome.
-/

namespace Logger

inductive CallStep (s : Sys) (k : Nat) : Sys → Prop where
  | lock (hpc : s.calls k = .lock) (hfree : s.logMutex = some none) :
    CallStep s k
      {
        s.setCall k .check with
        logMutex := some (some (.call k))
        takenIn := Function.update s.takenIn k (some s.cycle)
      }
  | accept (hpc : s.calls k = .check) (hopen : s.isOpen = true) : CallStep s k (s.setCall k .append)
  | refuse (hpc : s.calls k = .check) (hopen : s.isOpen = false) :
    CallStep s k (s.setCall k (.unlock .logError))
  | append (hpc : s.calls k = .append) :
    CallStep s k
      { s.setCall k .signal with logs := s.logs.listAppend k, appended := s.appended ++ [k] }
  | signal (hpc : s.calls k = .signal) (hlen : s.logs.len < 1) :
    CallStep s k (s.condSignal.setCall k (.unlock .logged))
  | noSignal (hpc : s.calls k = .signal) (hlen : ¬s.logs.len < 1) :
    CallStep s k (s.setCall k (.unlock .logged))
  | unlock (rc : Rc) (hpc : s.calls k = .unlock rc) :
    CallStep s k { s.setCall k (.returned rc) with logMutex := some none }

inductive ThreadStep (s : Sys) (now : String) : Sys → Prop where
  | lock (hpc : s.thread = .lock ∨ s.thread = .woken) (hfree : s.logMutex = some none) :
    ThreadStep s now { s with thread := .testWait, logMutex := some (some .thread) }
  | wait (hpc : s.thread = .testWait) (hlen : s.logs.len = 0) (hopen : s.isOpen = true) :
    ThreadStep s now { s with thread := .asleep, logMutex := some none }
  | noWait (hpc : s.thread = .testWait) (htest : ¬(s.logs.len = 0 ∧ s.isOpen = true)) :
    ThreadStep s now { s with thread := .testClose }
  | exit (hpc : s.thread = .testClose) (hlen : s.logs.len = 0) (hclose : s.isClose = true) :
    ThreadStep s now { s with thread := .exited }
  | noExit (hpc : s.thread = .testClose) (htest : ¬(s.logs.len = 0 ∧ s.isClose = true)) :
    ThreadStep s now { s with thread := .pop }
  | pop (k : Nat) (rest : List Nat) (hpc : s.thread = .pop) (hlen : s.logs.len ≠ 0)
    (hitems : s.logs.items = k :: rest) :
    ThreadStep s now { s with logs := ⟨rest, s.logs.len - 1⟩, thread := .write k }
  | write (k : Nat) (log : LogInfo) (hpc : s.thread = .write k) (hlog : s.heap k = some log) :
    ThreadStep s now
      {
        s with
        file := s.file ++ [⟨k, now, log⟩]
        heap := Function.update s.heap k none
        thread := .unlock
      }
  | unlock (hpc : s.thread = .unlock) :
    ThreadStep s now { s with thread := .lock, logMutex := some none }

inductive MainStep (s : Sys) : Sys → Prop where
  | initMutex (hpc : s.main = .initMutex) :
    MainStep s { s with main := .initCond, logMutex := some none }
  | initCond (hpc : s.main = .initCond) : MainStep s { s with main := .fopen 0 }
  | setOpen (hpc : s.main = .setOpen) :
    MainStep s { s with main := .create, flags := s.flags ||| openQ }
  | closeLock (hpc : s.main = .closeLock) (hfree : s.logMutex = some none) :
    MainStep s { s with main := .setClose, logMutex := some (some .main) }
  | setClose (hpc : s.main = .setClose) : MainStep s { s with main := .signal, flags := closeQ }
  | signal (hpc : s.main = .signal) : MainStep s { s.condSignal with main := .unlock }
  | unlock (hpc : s.main = .unlock) : MainStep s { s with main := .join, logMutex := some none }
  | join (hpc : s.main = .join) (hexited : s.thread = .exited) :
    MainStep s { s with main := .destroyMutex, thread := .absent }
  | destroyMutex (hpc : s.main = .destroyMutex) :
    MainStep s
      {
        s with
        main := .destroyCond
        logMutex := if s.logMutex = some none then none else s.logMutex
      }
  | destroyCond (hpc : s.main = .destroyCond) : MainStep s { s with main := .idle }

inductive Step (s : Sys) : Action → Sys → Prop where
  | trashLog (log : LogInfo) : Step s (.trashLog log) (s.callTrashLog log)
  | call (k : Nat) (s' : Sys) (h : CallStep s k s') : Step s (.call k) s'
  | thread (now : String) (s' : Sys) (h : ThreadStep s now s') : Step s (.thread now) s'
  | spuriousWakeup (hpc : s.thread = .asleep) :
    Step s .spuriousWakeup { s with thread := .woken }
  | initLogger (hpc : s.main = .idle) :
    Step s .initLogger
      {
        s with
        main := .initMutex
        logs := .initList
        cycle := s.cycle + 1
        start := s.file.length
        appended := []
      }
  | closeLogger (hpc : s.main = .opened) : Step s .closeLogger { s with main := .closeLock }
  | fopen (attempts : Nat) (res : Fopen) (pc : MainPc) (hpc : s.main = .fopen attempts)
    (hnext : pc = .setOpen ∨ pc = .fopen (attempts + 1) ∨ pc = .failed) :
    Step s (.fopen res) { s with main := pc }
  | create (rc : Int) (hpc : s.main = .create) (hrc : rc = 0) :
    Step s (.create rc) { s with main := .opened, thread := .lock }
  | createFail (rc : Int) (hpc : s.main = .create) (hrc : rc ≠ 0) :
    Step s (.create rc) { s with main := .failed }
  | main (s' : Sys) (h : MainStep s s') : Step s .main s'

variable {s s' : Sys}

theorem callStep_of_stepCall {k : Nat} (h : s.stepCall k = some s') : CallStep s k s' := by
  unfold Sys.stepCall at h
  split at h
  . cases h
  . next hpc =>
    split at h
    . next hfree =>
      cases h
      exact .lock hpc hfree
    . cases h
  . next hpc =>
    cases h
    cases hopen : s.isOpen with
    | true => exact .accept hpc hopen
    | false => exact .refuse hpc hopen
  . next hpc =>
    cases h
    exact .append hpc
  . next hpc =>
    cases h
    split
    . next hlen => exact .signal hpc hlen
    . next hlen => exact .noSignal hpc hlen
  . next rc hpc =>
    cases h
    exact .unlock rc hpc
  . cases h

theorem threadStep_lock {now : String} (hpc : s.thread = .lock ∨ s.thread = .woken)
    (h :
      (if s.logMutex = some none then
        some { s with thread := .testWait, logMutex := some (some .thread) }
      else
        none) = some s')
    : ThreadStep s now s' := by
  split at h
  . next hfree =>
    cases h
    exact .lock hpc hfree
  . cases h

theorem threadStep_of_stepThread {now : String} (h : s.stepThread now = some s')
    : ThreadStep s now s' := by
  unfold Sys.stepThread at h
  split at h
  . cases h
  . next hpc => exact threadStep_lock (.inl hpc) h
  . next hpc => exact threadStep_lock (.inr hpc) h
  . next hpc =>
    split at h <;> rename_i htest
    . simp only [LL.emptyList, Bool.and_eq_true, beq_iff_eq] at htest
      cases h
      exact .wait hpc htest.1 htest.2
    . simp only [LL.emptyList, Bool.and_eq_true, beq_iff_eq] at htest
      cases h
      exact .noWait hpc htest
  . cases h
  . next hpc =>
    cases h
    split <;> rename_i htest
    . simp only [LL.emptyList, Bool.and_eq_true, beq_iff_eq] at htest
      exact .exit hpc htest.1 htest.2
    . simp only [LL.emptyList, Bool.and_eq_true, beq_iff_eq] at htest
      exact .noExit hpc htest
  . next hpc =>
    split at h
    . next k logs hpop =>
      obtain ⟨hlen, rest, hitems, rfl⟩ := LL.listPop_eq_item hpop
      cases h
      exact .pop k rest hpc hlen hitems
    . cases h
  . next k hpc =>
    split at h
    . next log hlog =>
      cases h
      exact .write k log hpc hlog
    . cases h
  . next hpc =>
    cases h
    exact .unlock hpc
  . cases h

theorem mainStep_of_stepMain (h : s.stepMain = some s') : MainStep s s' := by
  unfold Sys.stepMain at h
  split at h
  . next hpc =>
    cases h
    exact .initMutex hpc
  . next hpc =>
    cases h
    exact .initCond hpc
  . next hpc =>
    cases h
    exact .setOpen hpc
  . next hpc =>
    split at h
    . next hfree =>
      cases h
      exact .closeLock hpc hfree
    . cases h
  . next hpc =>
    cases h
    exact .setClose hpc
  . next hpc =>
    cases h
    exact .signal hpc
  . next hpc =>
    cases h
    exact .unlock hpc
  . next hpc =>
    split at h
    . next hexited =>
      cases h
      exact .join hpc hexited
    . cases h
  . next hpc =>
    cases h
    exact .destroyMutex hpc
  . next hpc =>
    cases h
    exact .destroyCond hpc
  all_goals cases h

theorem step_of_stepFopen {attempts : Nat} {res : Fopen} (hpc : s.main = .fopen attempts)
    (h : s.stepFopen attempts res = some s')
    : Step s (.fopen res) s' := by
  have hagain : ∃ pc : MainPc, (pc = .setOpen ∨ pc = .fopen (attempts + 1) ∨ pc = .failed) ∧
      { s with main := if attempts + 1 < 2 then .fopen (attempts + 1) else .failed } =
        { s with main := pc } := by
    split
    . exact ⟨_, .inr (.inl rfl), rfl⟩
    . exact ⟨_, .inr (.inr rfl), rfl⟩
  obtain ⟨pc, hnext, heq⟩ := hagain
  unfold Sys.stepFopen at h
  rw [heq] at h
  cases res with
  | ok =>
    cases h
    exact .fopen attempts .ok .setOpen hpc (.inl rfl)
  | enoent rc eacces =>
    simp only [Option.ite_none_right_eq_some] at h
    cases h.2
    exact .fopen attempts (.enoent rc eacces) pc hpc hnext
  | eacces => cases h
  | other =>
    cases h
    exact .fopen attempts .other pc hpc hnext

theorem step_of_run {a : Action} (h : s.step a = some s') : Step s a s' := by
  cases a with
  | trashLog log =>
    cases h
    exact .trashLog log
  | call k => exact .call k s' (callStep_of_stepCall h)
  | thread now => exact .thread now s' (threadStep_of_stepThread h)
  | spuriousWakeup =>
    simp only [Sys.step, Option.ite_none_right_eq_some] at h
    cases h.2
    exact .spuriousWakeup h.1
  | initLogger =>
    simp only [Sys.step, Option.ite_none_right_eq_some] at h
    cases h.2
    exact .initLogger h.1
  | closeLogger =>
    simp only [Sys.step, Option.ite_none_right_eq_some] at h
    cases h.2
    exact .closeLogger h.1
  | fopen res =>
    simp only [Sys.step] at h
    split at h
    . next attempts hpc => exact step_of_stepFopen hpc h
    . cases h
  | create rc =>
    simp only [Sys.step, Option.ite_none_right_eq_some] at h
    obtain ⟨hpc, hs⟩ := h
    cases hs
    split
    . next hrc => exact .create rc hpc hrc
    . next hrc => exact .createFail rc hpc hrc
  | main => exact .main s' (mainStep_of_stepMain h)

end Logger
