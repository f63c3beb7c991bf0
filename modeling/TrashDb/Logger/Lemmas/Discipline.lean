import TrashDb.Logger.Lemmas.Wakeup

/-!
This module contains the lock discipline of the logger. The log thread breaks out of its loop between
the locking and the unlocking of `logMutex`: a run keeps the discipline exactly as long as the log
thread does not end, and `close_logger`, which waits for that, destroys a locked mutex.
-/

namespace Logger

variable {s s' : Sys}

def ThreadPc.inLoop : ThreadPc → Bool
  | .absent | .exited => false
  | _ => true

/--
Who is inside `trash_log`, the loop of `log_func` or the locked section of `close_logger`.
-/
def Sys.inside (s : Sys) : Owner → Bool
  | .call k => (s.calls k).inside
  | .thread => s.thread.inLoop
  | .main => s.main.holds

structure LockDiscipline (s : Sys) : Prop where
  quiet : (∀ o, s.inside o = false) → ∀ o, s.logMutex ≠ some (some o)
  exited : s.thread = .exited → s.logMutex ≠ some (some .thread)
  destroy : s.main = .destroyMutex → s.logMutex = some none

/--
The log thread is about to find the queue empty and the logger closed.
-/
def Sys.Breaks (s : Sys) : Action → Prop
  | .thread _ => s.thread = .testClose ∧ s.logs.len = 0 ∧ s.isClose = true
  | _ => False

/--
While the log thread has not ended, the owner is where it holds the mutex.
-/
structure Tidy (s : Sys) : Prop where
  owner : ∀ o, s.logMutex = some (some o) → s.holds o = true
  running : s.thread ≠ .exited
  destroy : s.main ≠ .destroyMutex

namespace Tidy

theorem init : Tidy .init := ⟨by simp [Sys.init], by simp [Sys.init], by simp [Sys.init]⟩

theorem discipline (h : Tidy s) : LockDiscipline s := by
  refine ⟨?_, fun hexited => absurd hexited h.running, fun hdestroy => absurd hdestroy h.destroy⟩
  intro hquiet o ho
  have hholds := h.owner o ho
  have hinside := hquiet o
  cases o with
  | call k =>
    simp only [Sys.holds, Sys.inside] at hholds hinside
    cases hpc : s.calls k <;> simp [hpc, CallPc.holds, CallPc.inside] at hholds hinside
  | thread =>
    simp only [Sys.holds, Sys.inside] at hholds hinside
    have := h.running
    cases hpc : s.thread <;> simp_all [ThreadPc.holds, ThreadPc.inLoop]
  | main => exact absurd (hholds.symm.trans hinside) (by simp)

theorem setCall {k : Nat} {pc : CallPc} (h : Tidy s) (hpc : (s.calls k).holds = true → pc.holds = true)
    : Tidy (s.setCall k pc) := by
  refine ⟨?_, h.running, h.destroy⟩
  intro o ho
  rw [holds_setCall, Function.update_apply]
  split
  . next heq =>
    subst heq
    exact hpc (h.owner _ ho)
  . exact h.owner o ho

theorem keep (h : Tidy s) (hlock : s'.logMutex = s.logMutex) (hholds : ∀ o, s.holds o = true → s'.holds o = true)
    (hrunning : s'.thread ≠ .exited) (hdestroy : s'.main ≠ .destroyMutex)
    : Tidy s' :=
  ⟨fun o ho => hholds o (h.owner o (hlock ▸ ho)), hrunning, hdestroy⟩

theorem release (hlock : s'.logMutex = some none) (hrunning : s'.thread ≠ .exited)
    (hdestroy : s'.main ≠ .destroyMutex)
    : Tidy s' :=
  ⟨fun o ho => by simp [hlock] at ho, hrunning, hdestroy⟩

theorem take {o : Owner} (hlock : s'.logMutex = some (some o)) (ho : s'.holds o = true)
    (hrunning : s'.thread ≠ .exited) (hdestroy : s'.main ≠ .destroyMutex)
    : Tidy s' := by
  refine ⟨?_, hrunning, hdestroy⟩
  intro o' ho'
  cases hlock.symm.trans ho'
  exact ho

theorem condSignal (h : Tidy s) : Tidy s.condSignal := by
  rcases condSignal_cases s with heq | ⟨hpc, heq⟩ <;> rw [heq]
  . exact h
  . refine h.keep rfl ?_ (by simp) h.destroy
    intro o ho
    cases o with
    | thread => simp [Sys.holds, hpc, ThreadPc.holds] at ho
    | _ => exact ho

theorem callStep {k : Nat} (h : Tidy s) (hstep : CallStep s k s') : Tidy s' := by
  cases hstep with
  | lock hpc hfree =>
    refine take rfl ?_ h.running h.destroy
    simp [Sys.holds, Sys.setCall, CallPc.holds]
  | accept hpc hopen => exact h.setCall fun _ => rfl
  | refuse hpc hopen => exact h.setCall fun _ => rfl
  | append hpc =>
    have hset : Tidy (s.setCall k .signal) := h.setCall fun _ => rfl
    exact ⟨hset.owner, hset.running, hset.destroy⟩
  | signal hpc hlen => exact h.condSignal.setCall fun _ => rfl
  | noSignal hpc hlen => exact h.setCall fun _ => rfl
  | unlock rc hpc => exact release rfl h.running h.destroy

theorem threadStep {now : String} (h : Tidy s) (hbreak : ¬s.Breaks (.thread now)) (hstep : ThreadStep s now s')
    : Tidy s' := by
  -- the log thread goes on and holds the mutex as before
  have hkeep : ∀ t : Sys, t.calls = s.calls → t.main = s.main → t.logMutex = s.logMutex →
      t.thread.holds = true → t.thread ≠ .exited → Tidy t := by
    intro t hcalls hmain hlock hholds hrunning
    refine h.keep hlock ?_ hrunning (by rw [hmain]; exact h.destroy)
    intro o ho
    cases o with
    | call k => simpa only [Sys.holds, hcalls] using ho
    | thread => exact hholds
    | main => simpa only [Sys.holds, hmain] using ho
  cases hstep with
  | lock hpc hfree => exact take rfl rfl (by simp) h.destroy
  | wait hpc hlen hopen => exact release rfl (by simp) h.destroy
  | noWait hpc htest => exact hkeep _ rfl rfl rfl rfl (by simp)
  | exit hpc hlen hclose => exact absurd ⟨hpc, hlen, hclose⟩ hbreak
  | noExit hpc htest => exact hkeep _ rfl rfl rfl rfl (by simp)
  | pop k rest hpc hlen hitems => exact hkeep _ rfl rfl rfl rfl (by simp)
  | write k log hpc hlog => exact hkeep _ rfl rfl rfl rfl (by simp)
  | unlock hpc => exact release rfl (by simp) h.destroy

theorem mainStep (h : Tidy s) (hstep : MainStep s s') : Tidy s' := by
  -- the caller of `init_logger` goes on and holds the mutex as before
  have hkeep : ∀ t : Sys, t.calls = s.calls → t.thread = s.thread → t.logMutex = s.logMutex →
      (s.main.holds = true → t.main.holds = true) → t.main ≠ .destroyMutex → Tidy t := by
    intro t hcalls hthread hlock hholds hdestroy
    refine h.keep hlock ?_ (by rw [hthread]; exact h.running) hdestroy
    intro o ho
    cases o with
    | call k => simpa only [Sys.holds, hcalls] using ho
    | thread => simpa only [Sys.holds, hthread] using ho
    | main => exact hholds ho
  cases hstep with
  | initMutex hpc => exact release rfl h.running (by simp)
  | initCond hpc => exact hkeep _ rfl rfl rfl (by simp [hpc, MainPc.holds]) (by simp)
  | setOpen hpc => exact hkeep _ rfl rfl rfl (by simp [hpc, MainPc.holds]) (by simp)
  | closeLock hpc hfree => exact take rfl rfl h.running (by simp)
  | setClose hpc => exact hkeep _ rfl rfl rfl (fun _ => rfl) (by simp)
  | signal hpc =>
    refine h.condSignal.keep rfl ?_ h.condSignal.running (by simp)
    intro o ho
    cases o with
    | main => rfl
    | _ => exact ho
  | unlock hpc => exact release rfl h.running (by simp)
  | join hpc hexited => exact absurd hexited h.running
  | destroyMutex hpc => exact absurd hpc h.destroy
  | destroyCond hpc => exact hkeep _ rfl rfl rfl (by simp [hpc, MainPc.holds]) (by simp)

theorem callTrashLog (h : Tidy s) (htaken : Taken s) (log : LogInfo) : Tidy (s.callTrashLog log) := by
  have hset : Tidy (s.setCall s.nextCall .lock) := by
    refine h.setCall ?_
    rw [(htaken.fresh s.nextCall (Nat.le_refl _)).1]
    simp [CallPc.holds]
  exact ⟨hset.owner, hset.running, hset.destroy⟩

theorem step {a : Action} (h : Tidy s) (hinv : Inv s) (hbreak : ¬s.Breaks a) (hstep : Step s a s')
    : Tidy s' := by
  -- the caller of `init_logger` goes on outside of its locked section
  have hkeep : ∀ t : Sys, t.calls = s.calls → t.logMutex = s.logMutex → s.main.holds = false →
      (s.thread.holds = true → t.thread.holds = true) → t.thread ≠ .exited → t.main ≠ .destroyMutex →
      Tidy t := by
    intro t hcalls hlock hmain hthread hrunning hdestroy
    refine h.keep hlock ?_ hrunning hdestroy
    intro o ho
    cases o with
    | call k => simpa only [Sys.holds, hcalls] using ho
    | thread => exact hthread ho
    | main => simp [Sys.holds, hmain] at ho
  cases hstep with
  | trashLog log => exact h.callTrashLog hinv.taken log
  | call k _ hcall => exact h.callStep hcall
  | thread now _ hthread => exact h.threadStep hbreak hthread
  | spuriousWakeup hpc =>
    refine h.keep rfl ?_ (by simp) h.destroy
    intro o ho
    cases o with
    | thread => simp [Sys.holds, hpc, ThreadPc.holds] at ho
    | _ => exact ho
  | initLogger hpc => exact hkeep _ rfl rfl (by simp [hpc, MainPc.holds]) id h.running (by simp)
  | closeLogger hpc => exact hkeep _ rfl rfl (by simp [hpc, MainPc.holds]) id h.running (by simp)
  | fopen attempts res pc hpc hnext =>
    refine hkeep _ rfl rfl (by simp [hpc, MainPc.holds]) id h.running ?_
    rcases hnext with rfl | rfl | rfl <;> simp
  | create rc hpc hrc =>
    have habsent : s.thread = .absent := hinv.owned.absent (by rw [hpc]; rfl)
    exact hkeep _ rfl rfl (by simp [hpc, MainPc.holds]) (by simp [habsent, ThreadPc.holds]) (by simp) (by simp)
  | createFail rc hpc hrc => exact hkeep _ rfl rfl (by simp [hpc, MainPc.holds]) id h.running (by simp)
  | main _ hmain => exact h.mainStep hmain

theorem of_run {as : List Action} (hrun : run .init as = some s)
    (hbreak : Lts.Along Sys.step (fun s a => ¬s.Breaks a) .init as)
    : Tidy s := by
  have hstep : ∀ s a s', Tidy s ∧ Inv s → ¬s.Breaks a → s.step a = some s' → Tidy s' ∧ Inv s' := by
    rintro s a s' ⟨htidy, hinv⟩ hbreak hstep
    have hstep := step_of_run hstep
    exact ⟨htidy.step hinv hbreak hstep, hinv.step hstep⟩
  exact (Lts.invariant_along hstep ⟨init, Inv.init⟩ hbreak hrun).1

end Tidy

theorem Owned.not_discipline (h : Owned s) (hexited : s.thread = .exited) : ¬LockDiscipline s :=
  fun hdiscipline => hdiscipline.exited hexited (h.owner (o := .thread) (by rw [Sys.holds, hexited]; rfl))

theorem exited_of_breaks {a : Action} (h : s.Breaks a) : ∃ s', s.step a = some s' ∧ s'.thread = .exited := by
  cases a with
  | thread now =>
    obtain ⟨hpc, hlen, hclose⟩ := h
    refine ⟨{ s with thread := .exited }, ?_, rfl⟩
    simp [Sys.step, Sys.stepThread, hpc, LL.emptyList, hlen, hclose]
  | _ => exact absurd h id

theorem lockDiscipline_iff (as : List Action)
    : (∀ bs s, bs <+: as → run .init bs = some s → LockDiscipline s)
        ↔ Lts.Along Sys.step (fun s a => ¬s.Breaks a) .init as := by
  constructor
  . intro hdiscipline
    refine Lts.along_of_runs fun bs a s hbs hrun hbreaks => ?_
    obtain ⟨s', hstep, hexited⟩ := exited_of_breaks hbreaks
    have hrun' : run .init (bs ++ [a]) = some s' := by
      rw [run, Lts.run_append]
      simp [show Lts.run Sys.step .init bs = some s from hrun, hstep]
    exact (Inv.of_run hrun').owned.not_discipline hexited (hdiscipline _ s' hbs hrun')
  . rintro hbreak bs s ⟨cs, rfl⟩ hrun
    exact (Tidy.of_run hrun (Lts.along_append hbreak hrun).1).discipline

/--
`init_logger` and `close_logger` around a log thread that has nothing to write.
-/
theorem close_destroys_locked
    : ∃ s, run .init [.initLogger, .main, .main, .fopen .ok, .main, .create 0, .closeLogger, .main, .main, .main,
          .main, .thread "", .thread "", .thread "", .main] = some s
        ∧ s.main = .destroyMutex ∧ s.logMutex = some (some .thread) ∧ ¬LockDiscipline s := by
  refine ⟨_, rfl, rfl, rfl, ?_⟩
  intro hdiscipline
  have hlock := hdiscipline.destroy rfl
  cases hlock

end Logger
