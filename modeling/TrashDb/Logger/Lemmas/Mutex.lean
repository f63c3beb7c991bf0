import TrashDb.Lib.Mutex
import TrashDb.Logger.Step

/-!
This module contains the ownership of `logMutex`: whoever is between its locking and its unlocking is
its owner. The log thread ends as the owner, so that the mutex stays locked until `init_logger`
initializes it again.
-/

open Mutex

namespace Logger

def CallPc.holds : CallPc → Bool
  | .check | .append | .signal | .unlock _ => true
  | .absent | .lock | .returned _ => false

def ThreadPc.holds : ThreadPc → Bool
  | .testWait | .testClose | .pop | .write _ | .unlock | .exited => true
  | .absent | .lock | .asleep | .woken => false

def MainPc.holds : MainPc → Bool
  | .setClose | .signal | .unlock => true
  | _ => false

def Sys.holds (s : Sys) : Owner → Bool
  | .call k => (s.calls k).holds
  | .thread => s.thread.holds
  | .main => s.main.holds

def MainPc.down : MainPc → Bool
  | .destroyMutex | .destroyCond | .idle | .initMutex => true
  | _ => false

def MainPc.up : MainPc → Bool
  | .opened | .closeLock | .setClose | .signal | .unlock | .join => true
  | _ => false

structure Owned (s : Sys) : Prop where
  excl : Excl s.holds s.logMutex.join
  down : s.main.down = true → s.logMutex = none ∨ s.logMutex = some (some .thread)
  up : s.main.up = true ↔ s.thread ≠ .absent

@[simp]
theorem condSignal_calls (s : Sys) : s.condSignal.calls = s.calls := by
  unfold Sys.condSignal
  split <;> rfl

@[simp]
theorem condSignal_main (s : Sys) : s.condSignal.main = s.main := by
  unfold Sys.condSignal
  split <;> rfl

theorem condSignal_cases (s : Sys)
    : s.condSignal = s ∨ s.thread = .asleep ∧ s.condSignal = { s with thread := .woken } := by
  unfold Sys.condSignal
  split
  . next hpc => exact .inr ⟨hpc, rfl⟩
  . exact .inl rfl

theorem holds_setCall (s : Sys) (k : Nat) (pc : CallPc)
    : (s.setCall k pc).holds = Function.update s.holds (.call k) pc.holds := by
  funext o
  cases o with
  | call i =>
    by_cases heq : i = k
    . subst heq
      simp [Sys.setCall, Sys.holds]
    . simp [Sys.setCall, Sys.holds, heq]
  | thread => simp [Sys.setCall, Sys.holds]
  | main => simp [Sys.setCall, Sys.holds]

theorem not_down_of_up {pc : MainPc} (h : pc.up = true) : pc.down = false := by
  cases pc <;> first | rfl | cases h

namespace Owned

variable {s s' : Sys}

theorem init : Owned .init := by
  refine ⟨?_, fun _ => .inl rfl, by decide⟩
  intro o ho
  cases o <;> cases ho

theorem owner (h : Owned s) {o : Owner} (ho : s.holds o = true) : s.logMutex = some (some o) := by
  have := h.excl o ho
  simpa [Option.join_eq_some_iff] using this

theorem absent (h : Owned s) (hup : s.main.up = false) : s.thread = .absent := by
  by_contra hne
  rw [h.up.mpr hne] at hup
  cases hup

theorem not_down (h : Owned s) {k : Nat} (hk : s.holds (.call k) = true) : s.main.down = false := by
  have hlock := h.owner hk
  cases hdown : s.main.down with
  | false => rfl
  | true => rcases h.down hdown with hlock' | hlock' <;> simp [hlock] at hlock'

theorem keepCall {k : Nat} {pc : CallPc} (h : Owned s)
    (hpc : pc.holds = true → (s.calls k).holds = true)
    : Owned (s.setCall k pc) := by
  refine ⟨?_, h.down, h.up⟩
  rw [holds_setCall]
  refine h.excl.keep fun o ho => ?_
  rw [Function.update_apply] at ho
  split at ho
  . next heq =>
    subst heq
    exact hpc ho
  . exact ho

theorem keepOther (h : Owned s) (hcalls : s'.calls = s.calls) (hlock : s'.logMutex = s.logMutex)
    (hthread : s'.thread.holds = true → s.thread.holds = true)
    (hmain : s'.main.holds = true → s.main.holds = true)
    (hdown : s'.main.down = true → s.main.down = true) (hup : s'.main.up = true ↔ s'.thread ≠ .absent)
    : Owned s' := by
  refine ⟨?_, ?_, hup⟩
  . rw [hlock]
    refine h.excl.keep fun o ho => ?_
    cases o with
    | call k =>
      rw [Sys.holds, hcalls] at ho
      exact ho
    | thread => exact hthread ho
    | main => exact hmain ho
  . rw [hlock]
    exact fun hd => h.down (hdown hd)

theorem not_down_of_free (h : Owned s) (hfree : s.logMutex = some none) : s.main.down = false := by
  cases hdown : s.main.down with
  | false => rfl
  | true => rcases h.down hdown with hlock | hlock <;> simp [hfree] at hlock

theorem take {o : Owner} (h : Owned s) (hfree : s.logMutex = some none)
    (hne : ∀ o', o' ≠ o → s'.holds o' = s.holds o') (hlock : s'.logMutex = some (some o))
    (hdown : s'.main.down = true → s.main.down = true) (hup : s'.main.up = true ↔ s'.thread ≠ .absent)
    : Owned s' := by
  have hexcl := h.excl
  rw [hfree] at hexcl
  refine ⟨?_, ?_, hup⟩
  . rw [hlock]
    exact hexcl.take hne
  . intro hd
    rw [h.not_down_of_free hfree] at hdown
    cases hdown hd

theorem release {o : Owner} (h : Owned s) (ho : s.holds o = true)
    (hne : ∀ o', o' ≠ o → s'.holds o' = s.holds o') (hout : s'.holds o = false)
    (hdown : s'.main.down = false) (hup : s'.main.up = true ↔ s'.thread ≠ .absent)
    : Owned s' := by
  refine ⟨h.excl.release ho hne hout, ?_, hup⟩
  rw [hdown]
  exact nofun

theorem callTrashLog (h : Owned s) (log : LogInfo) : Owned (s.callTrashLog log) := by
  have hset : Owned (s.setCall s.nextCall .lock) := h.keepCall nofun
  exact ⟨hset.excl, hset.down, hset.up⟩

theorem condSignal (h : Owned s) : Owned s.condSignal := by
  rcases condSignal_cases s with heq | ⟨hpc, heq⟩ <;> rw [heq]
  . exact h
  . refine h.keepOther rfl rfl nofun id id ?_
    rw [h.up, hpc]
    simp

theorem callStep {k : Nat} (h : Owned s) (hstep : CallStep s k s') : Owned s' := by
  have hne : ∀ (pc : CallPc) (o : Owner), o ≠ .call k → (s.setCall k pc).holds o = s.holds o := by
    intro pc o ho
    rw [holds_setCall, Function.update_of_ne ho]
  cases hstep with
  | lock hpc hfree => exact h.take hfree (hne .check) rfl id h.up
  | accept hpc hopen => exact h.keepCall fun _ => by rw [hpc]; rfl
  | refuse hpc hopen => exact h.keepCall fun _ => by rw [hpc]; rfl
  | append hpc =>
    have hset : Owned (s.setCall k .signal) := h.keepCall fun _ => by rw [hpc]; rfl
    exact ⟨hset.excl, hset.down, hset.up⟩
  | signal hpc hlen => exact h.condSignal.keepCall fun _ => by rw [condSignal_calls, hpc]; rfl
  | noSignal hpc hlen => exact h.keepCall fun _ => by rw [hpc]; rfl
  | unlock rc hpc =>
    have ho : s.holds (.call k) = true := by rw [Sys.holds, hpc]; rfl
    refine h.release ho (hne (.returned rc)) ?_ (h.not_down ho) h.up
    show ((s.setCall k (.returned rc)).calls k).holds = false
    simp [Sys.setCall, CallPc.holds]

theorem up_of_holds (h : Owned s) (hpc : s.holds .thread = true) : s.main.up = true := by
  rw [h.up]
  intro habsent
  rw [Sys.holds, habsent] at hpc
  cases hpc

theorem threadStep {now : String} (h : Owned s) (hstep : ThreadStep s now s') : Owned s' := by
  have hne : ∀ (t : Sys) (o : Owner), t.calls = s.calls → t.main = s.main → o ≠ .thread →
      t.holds o = s.holds o := by
    intro t o hcalls hmain ho
    cases o with
    | call k => simp only [Sys.holds, hcalls]
    | thread => cases ho rfl
    | main => simp only [Sys.holds, hmain]
  have hup : ∀ t : Sys, t.main = s.main → s.thread ≠ .absent → t.thread ≠ .absent →
      (t.main.up = true ↔ t.thread ≠ .absent) := by
    intro t hmain hs ht
    rw [hmain, h.up]
    simp [hs, ht]
  -- the log thread goes on and holds the mutex as before
  have hkeep : ∀ t : Sys, s.holds .thread = true → t.calls = s.calls → t.main = s.main →
      t.logMutex = s.logMutex → t.thread ≠ .absent → Owned t := by
    intro t hpc hcalls hmain hlock ht
    refine h.keepOther hcalls hlock (fun _ => hpc) (by rw [hmain]; exact id) (by rw [hmain]; exact id) ?_
    exact hup t hmain (h.up.mp (h.up_of_holds hpc)) ht
  -- the log thread unlocks the mutex
  have hrelease : ∀ t : Sys, s.holds .thread = true → t.calls = s.calls → t.main = s.main →
      t.thread.holds = false → t.thread ≠ .absent → Owned t := by
    intro t hpc hcalls hmain hout ht
    refine h.release hpc (hne t · hcalls hmain) hout ?_ (hup t hmain (h.up.mp (h.up_of_holds hpc)) ht)
    rw [hmain]
    exact not_down_of_up (h.up_of_holds hpc)
  have hat : ∀ pc : ThreadPc, s.thread = pc → pc.holds = true → s.holds .thread = true := by
    rintro pc rfl hpc
    exact hpc
  cases hstep with
  | lock hpc hfree =>
    refine h.take hfree (hne _ · rfl rfl) rfl id (hup _ rfl ?_ nofun)
    rcases hpc with hpc | hpc <;> simp [hpc]
  | wait hpc hlen hopen => exact hrelease _ (hat _ hpc rfl) rfl rfl rfl nofun
  | noWait hpc htest => exact hkeep _ (hat _ hpc rfl) rfl rfl rfl nofun
  | exit hpc hlen hclose => exact hkeep _ (hat _ hpc rfl) rfl rfl rfl nofun
  | noExit hpc htest => exact hkeep _ (hat _ hpc rfl) rfl rfl rfl nofun
  | pop k rest hpc hlen hitems => exact hkeep _ (hat _ hpc rfl) rfl rfl rfl nofun
  | write k log hpc hlog => exact hkeep _ (hat _ hpc rfl) rfl rfl rfl nofun
  | unlock hpc => exact hrelease _ (hat _ hpc rfl) rfl rfl rfl nofun

theorem mainStep (h : Owned s) (hstep : MainStep s s') : Owned s' := by
  have hne : ∀ (t : Sys) (o : Owner), t.calls = s.calls → t.thread = s.thread → o ≠ .main →
      t.holds o = s.holds o := by
    intro t o hcalls hthread ho
    cases o with
    | call k => simp only [Sys.holds, hcalls]
    | thread => simp only [Sys.holds, hthread]
    | main => cases ho rfl
  -- the caller of `init_logger` goes on to `pc`, with the log thread there or not as before
  have hkeep : ∀ (t : Sys) (pc pc' : MainPc), s.main = pc → t.main = pc' → t.calls = s.calls →
      t.thread = s.thread → t.logMutex = s.logMutex → (pc'.holds = true → pc.holds = true) →
      (pc'.down = true → pc.down = true) → pc'.up = pc.up → Owned t := by
    intro t pc pc' hpc hmain hcalls hthread hlock hholds hdown hup
    refine h.keepOther hcalls hlock (by rw [hthread]; exact id) ?_ ?_ ?_
    . rw [hmain, hpc]
      exact hholds
    . rw [hmain, hpc]
      exact hdown
    . rw [hmain, hup, hthread, ← h.up, hpc]
  have hup : ∀ (t : Sys) (pc pc' : MainPc), s.main = pc → t.main = pc' → t.thread = s.thread →
      pc'.up = pc.up → (t.main.up = true ↔ t.thread ≠ .absent) := by
    intro t pc pc' hpc hmain hthread heq
    rw [hmain, heq, hthread, ← h.up, hpc]
  cases hstep with
  | initMutex hpc =>
    have hdown : s.main.down = true := by rw [hpc]; rfl
    have habsent : s.thread = .absent := h.absent (by rw [hpc]; rfl)
    refine ⟨?_, nofun, hup _ _ _ hpc rfl rfl rfl⟩
    intro o ho
    cases o with
    | call k =>
      have hk : s.holds (.call k) = true := ho
      have := h.not_down hk
      rw [hdown] at this
      cases this
    | thread =>
      have hthread : s.thread.holds = true := ho
      rw [habsent] at hthread
      cases hthread
    | main => cases ho
  | initCond hpc => exact hkeep _ _ _ hpc rfl rfl rfl rfl nofun nofun rfl
  | setOpen hpc => exact hkeep _ _ _ hpc rfl rfl rfl rfl nofun nofun rfl
  | closeLock hpc hfree => exact h.take hfree (hne _ · rfl rfl) rfl nofun (hup _ _ _ hpc rfl rfl rfl)
  | setClose hpc => exact hkeep _ _ _ hpc rfl rfl rfl rfl (fun _ => rfl) nofun rfl
  | signal hpc =>
    have hsignal := h.condSignal
    have hmain : s.condSignal.main = .signal := by rw [condSignal_main, hpc]
    refine hsignal.keepOther rfl rfl id (fun _ => by rw [hmain]; rfl) nofun ?_
    exact ⟨fun _ => hsignal.up.mp (by rw [hmain]; rfl), fun _ => rfl⟩
  | unlock hpc =>
    have ho : s.holds .main = true := by rw [Sys.holds, hpc]; rfl
    exact h.release ho (hne _ · rfl rfl) rfl rfl (hup _ _ _ hpc rfl rfl rfl)
  | join hpc hexited =>
    have hlock : s.logMutex = some (some .thread) := h.owner (o := .thread) (by rw [Sys.holds, hexited]; rfl)
    refine ⟨?_, fun _ => .inr hlock, by simp [MainPc.up]⟩
    refine h.excl.keep fun o ho => ?_
    cases o with
    | call k => exact ho
    | thread => cases ho
    | main => cases ho
  | destroyMutex hpc =>
    have hlock : s.logMutex ≠ some none := by
      intro hfree
      have := h.not_down_of_free hfree
      rw [hpc] at this
      cases this
    exact hkeep _ _ _ hpc rfl rfl rfl (if_neg hlock) nofun (fun _ => rfl) rfl
  | destroyCond hpc => exact hkeep _ _ _ hpc rfl rfl rfl rfl nofun (fun _ => rfl) rfl

theorem step {a : Action} (h : Owned s) (hstep : Step s a s') : Owned s' := by
  -- the caller of `init_logger` goes on before the log thread is created
  have hkeep : ∀ t : Sys, s.main.up = false → t.main.up = false → t.main.holds = false →
      (t.main.down = true → s.main.down = true) → t.calls = s.calls → t.thread = s.thread →
      t.logMutex = s.logMutex → Owned t := by
    intro t hup hup' hholds hdown hcalls hthread hlock
    refine h.keepOther hcalls hlock (by rw [hthread]; exact id) ?_ hdown ?_
    . rw [hholds]
      exact nofun
    . simp [hup', hthread, h.absent hup]
  cases hstep with
  | trashLog log => exact h.callTrashLog log
  | call k _ hcall => exact h.callStep hcall
  | thread now _ hthread => exact h.threadStep hthread
  | spuriousWakeup hpc =>
    refine h.keepOther rfl rfl nofun id id ?_
    rw [h.up, hpc]
    simp
  | initLogger hpc =>
    exact hkeep _ (by rw [hpc]; rfl) rfl rfl (fun _ => by rw [hpc]; rfl) rfl rfl rfl
  | closeLogger hpc =>
    refine h.keepOther rfl rfl id nofun nofun ⟨fun _ => h.up.mp (by rw [hpc]; rfl), fun _ => rfl⟩
  | fopen attempts res pc hpc hnext =>
    rcases hnext with rfl | rfl | rfl <;>
      exact hkeep _ (by rw [hpc]; rfl) rfl rfl nofun rfl rfl rfl
  | create rc hpc hrc => exact h.keepOther rfl rfl nofun nofun nofun (by simp [MainPc.up])
  | createFail rc hpc hrc => exact hkeep _ (by rw [hpc]; rfl) rfl rfl nofun rfl rfl rfl
  | main _ hmain => exact h.mainStep hmain

end Owned

end Logger
