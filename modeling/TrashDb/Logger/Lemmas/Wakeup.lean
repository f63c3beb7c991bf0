import TrashDb.Logger.Lemmas.Complete

/-!
This module contains the signal of `trash_log`. It is sent when the length after the append is below
one, which it never is, so that a log thread that is asleep learns of a record only from
`close_logger`.
-/

namespace Logger

def CallPc.inside : CallPc → Bool
  | .absent | .returned _ => false
  | _ => true

/--
The record that waits, although the logger is open and no call is on its way to wake up the thread.
-/
structure LostWakeup (s : Sys) : Prop where
  opened : s.main = .opened
  queued : s.logs.items ≠ []
  outside : ∀ k, (s.calls k).inside = false
  asleep : s.thread = .asleep

/--
The log thread is not asleep when a record is appended.
-/
def AppendsAwake (s : Sys) : Action → Prop
  | .call k => s.calls k = .append → s.thread ≠ .asleep
  | _ => True

instance (s : Sys) (a : Action) : Decidable (AppendsAwake s a) :=
  match a with
  | .call k => inferInstanceAs (Decidable (s.calls k = .append → s.thread ≠ .asleep))
  | .trashLog _ | .thread _ | .spuriousWakeup | .initLogger | .closeLogger | .fopen _ | .create _
  | .main => isTrue trivial

def AsleepEmpty (s : Sys) : Prop := s.thread = .asleep → s.logs.items = []

namespace AsleepEmpty

variable {s s' : Sys}

theorem of_not_asleep (h : s.thread ≠ .asleep) : AsleepEmpty s := fun hasleep => absurd hasleep h

theorem step {a : Action} (h : AsleepEmpty s) (hinv : Inv s) (hawake : AppendsAwake s a)
    (hstep : Step s a s')
    : AsleepEmpty s' := by
  cases hstep with
  | call k _ hcall =>
    cases hcall with
    | append hpc => exact of_not_asleep (hawake hpc)
    | signal hpc hlen =>
      rcases condSignal_cases s with heq | ⟨_, heq⟩ <;> rw [heq]
      . exact h
      . exact of_not_asleep (by simp [Sys.setCall])
    | _ => exact h
  | thread now _ hthread =>
    cases hthread with
    | wait hpc hlen hopen =>
      intro _
      have := hinv.accounted.coherent
      rw [LL.Coherent, hlen] at this
      exact List.length_eq_zero_iff.mp this.symm
    | _ => exact of_not_asleep (by simp)
  | spuriousWakeup hpc => exact of_not_asleep (by simp)
  | initLogger hpc => exact fun _ => rfl
  | create rc hpc hrc => exact of_not_asleep (by simp)
  | main _ hmain =>
    cases hmain with
    | signal hpc =>
      rcases condSignal_cases s with heq | ⟨_, heq⟩ <;> rw [heq]
      . exact h
      . exact of_not_asleep (by simp)
    | join hpc hexited => exact of_not_asleep (by simp)
    | _ => exact h
  | _ => exact h

end AsleepEmpty

theorem not_lostWakeup_of_run {as : List Action} {s : Sys}
    (hawake : Lts.Along Sys.step AppendsAwake .init as) (hrun : run .init as = some s)
    : ¬LostWakeup s := by
  have hinit : Inv .init ∧ AsleepEmpty .init := ⟨.init, fun _ => rfl⟩
  have hs : Inv s ∧ AsleepEmpty s := by
    refine Lts.invariant_along (I := fun s => Inv s ∧ AsleepEmpty s) ?_ hinit hawake hrun
    intro u a u' hu ha hstep
    exact ⟨hu.1.step (step_of_run hstep), hu.2.step hu.1 ha (step_of_run hstep)⟩
  intro hlost
  exact hlost.queued (hs.2 hlost.asleep)

def earlyRecord : List Action :=
  [.initLogger, .main, .main, .fopen .ok, .main, .create 0, .trashLog ⟨"test info", "a.c", 1, .info⟩,
    .call 0, .call 0, .call 0, .call 0, .call 0, .thread "", .thread "", .thread "", .thread "",
    .thread "", .thread "", .thread "", .thread ""]

theorem not_lostWakeup_early_record
    : ∃ s, run .init earlyRecord = some s ∧ s.thread = .asleep ∧ s.file.length = 1 ∧ ¬LostWakeup s := by
  have hawake : Lts.Along Sys.step AppendsAwake .init earlyRecord := by decide +kernel
  obtain ⟨s, hrun, hasleep, hfile⟩ : ∃ s, run .init earlyRecord = some s ∧ s.thread = .asleep ∧
      s.file.length = 1 := ⟨_, rfl, rfl, rfl⟩
  exact ⟨s, hrun, hasleep, hfile, not_lostWakeup_of_run hawake hrun⟩

/--
The log thread is asleep when the first record is appended.
-/
theorem lostWakeup_first_record
    : ∃ s, run .init
          [.initLogger, .main, .main, .fopen .ok, .main, .create 0, .thread "", .thread "",
            .trashLog ⟨"test info", "a.c", 1, .info⟩, .call 0, .call 0, .call 0, .call 0, .call 0] = some s ∧
        LostWakeup s := by
  refine ⟨_, rfl, rfl, by decide, ?_, rfl⟩
  intro k
  cases k with
  | zero => rfl
  | succ k => rfl

end Logger
