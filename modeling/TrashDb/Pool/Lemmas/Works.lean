import TrashDb.Lib.Handoff
import TrashDb.Pool.Lemmas.Drain

/-!
This module contains where the works of the pool are. The queues of the groups, the calls of `do_work`
that have taken an idle thread, and the tasks of the threads pass works on as in `Handoff`. A step of
the pool is one of its steps, since a thread that gets a work has no task and a group that is freed
has no work in its queue.
-/

namespace Pool

open Function

def WorkerPc.begun : WorkerPc → Bool
  | .inFunc _ | .ret _ => true
  | _ => false

def queueOf : Option TGroup → List Nat
  | none => []
  | some tg => tg.q.work.items

def TThread.task (tt : TThread) : Option (Nat × Bool) := tt.currTask.map fun w => (w, tt.pc.begun)

def CallPc.flight : CallPc → Option Nat
  | .hand _ _ w => some w
  | _ => none

/--
The work that a call of `do_work` is about, and whether it is going to return `POOL_SUCCESS`.
-/
def CallPc.deal : CallPc → Option (Nat × Bool)
  | .offer _ w => some (w, false)
  | .hand _ _ w => some (w, true)
  | .notify w rc | .done w rc => some (w, rc == .poolSuccess)
  | _ => none

def Sys.handoff (s : Sys) : Handoff.State Nat Nat Nat Nat where
  queue g := queueOf (s.groups g)
  flight k := (s.calls k).flight
  task t := (s.thrds t).bind TThread.task
  finished := s.finished
  called := s.called
  deal k := (s.calls k).deal
  given := s.given
  returned := s.returned

section

variable {s s' : Sys} {k g t w : Nat}

theorem queue_update {groups : Nat → Option TGroup} {o : Option TGroup}
    : (fun i => queueOf (update groups g o i)) =
        update (fun i => queueOf (groups i)) g (queueOf o) :=
  comp_update queueOf groups g o

theorem flight_update {calls : Nat → CallPc} {p : CallPc}
    : (fun i => (update calls k p i).flight) = update (fun i => (calls i).flight) k p.flight :=
  comp_update CallPc.flight calls k p

theorem deal_update {calls : Nat → CallPc} {p : CallPc}
    : (fun i => (update calls k p i).deal) = update (fun i => (calls i).deal) k p.deal :=
  comp_update CallPc.deal calls k p

theorem task_update {thrds : Nat → Option TThread} {o : Option TThread}
    : (fun i => (update thrds t o i).bind TThread.task) =
        update (fun i => (thrds i).bind TThread.task) t (o.bind TThread.task) :=
  comp_update (fun o : Option TThread => o.bind TThread.task) thrds t o

theorem handoff_setGroup {tg tg' : TGroup} (hg : s.groups g = some tg)
    (hitems : tg'.q.work.items = tg.q.work.items)
    : (s.setGroup g tg').handoff = s.handoff := by
  simp only [Sys.handoff, Sys.setGroup]
  rw [queue_update, update_eq_self_iff.mpr]
  simp [hg, hitems, queueOf]

theorem handoff_freeGroup {tg : TGroup} (hg : s.groups g = some tg) (hnil : tg.q.work.items = [])
    : (s.freeGroup g).handoff = s.handoff := by
  simp only [Sys.handoff, Sys.freeGroup]
  rw [queue_update, update_eq_self_iff.mpr]
  simp [hg, hnil, queueOf]

theorem handoff_newGroup {tg : TGroup} (h : Fresh s) (hnil : tg.q.work.items = [])
    : (s.setGroup s.nextGroup tg).handoff = s.handoff := by
  have hnone := h.nextGroup_eq_none
  simp only [Sys.handoff, Sys.setGroup]
  rw [queue_update, update_eq_self_iff.mpr]
  simp [hnone, hnil, queueOf]

theorem handoff_setThrd {tt tt' : TThread} (ht : s.thrds t = some tt) (htask : tt'.task = tt.task)
    : (s.setThrd t tt').handoff = s.handoff := by
  simp only [Sys.handoff, Sys.setThrd]
  rw [task_update, update_eq_self_iff.mpr]
  simp [ht, htask]

theorem handoff_freeThrd {tt : TThread} (ht : s.thrds t = some tt) (htask : tt.currTask = none)
    : (s.freeThrd t).handoff = s.handoff := by
  simp only [Sys.handoff, Sys.freeThrd]
  rw [task_update, update_eq_self_iff.mpr]
  simp [ht, htask, TThread.task]

theorem handoff_setCall {p : CallPc} (hflight : p.flight = (s.calls k).flight)
    (hdeal : p.deal = (s.calls k).deal)
    : (s.setCall k p).handoff = s.handoff := by
  simp only [Sys.handoff, Sys.setCall]
  rw [flight_update, deal_update, update_eq_self_iff.mpr hflight, update_eq_self_iff.mpr hdeal]

theorem handoff_spawn {tg : TGroup} (h : Fresh s) (hg : s.groups g = some tg)
    : (s.spawn g tg none).handoff = s.handoff := by
  simp only [Sys.handoff, Sys.spawn, Sys.setGroup, Sys.setThrd]
  rw [queue_update, task_update, update_eq_self_iff.mpr, update_eq_self_iff.mpr]
  . simp [h.nextThrd_eq_none, TThread.task]
  . simp [hg, queueOf]

theorem handoffStep_of_eq (h : s'.handoff = s.handoff) : Handoff.Step s.handoff s'.handoff := by
  rw [h]
  apply Handoff.Step.stay

theorem handoffStep_offer (h : Fresh s) (hw : w ∉ s.given)
    : Handoff.Step s.handoff { s.startCall (.offer g w) with given := w :: s.given }.handoff := by
  have hdeal : s.handoff.deal s.nextCall = none := by
    simp only [Sys.handoff, h.nextCall_eq_returned, CallPc.deal]
  have hstep := Handoff.Step.offer s.nextCall w hdeal hw
  have hsame : update (fun i => (s.calls i).flight) s.nextCall (CallPc.offer g w).flight =
      fun i => (s.calls i).flight := by
    rw [update_eq_self_iff, h.nextCall_eq_returned]
    rfl
  simp only [Sys.handoff, Sys.startCall, Sys.setCall] at hstep ⊢
  rw [flight_update, deal_update, hsame]
  exact hstep

theorem handoffStep_start {req : Req} (h : Fresh s) (hs : StartStep s req s')
    : Handoff.Step s.handoff s'.handoff := by
  have hquiet : ∀ p : CallPc, p.flight = none → p.deal = none →
      (s.setCall s.nextCall p).handoff = s.handoff := by
    intro p hflight hdeal
    apply handoff_setCall
    . rw [hflight, h.nextCall_eq_returned]
      rfl
    . rw [hdeal, h.nextCall_eq_returned]
      rfl
  cases hs with
  | doWork g w hg hw => exact handoffStep_offer h hw
  | _ =>
    apply handoffStep_of_eq
    exact hquiet _ rfl rfl

theorem handoffStep_queue {tg : TGroup} {p : CallPc} (hpc : s.calls k = .offer g w)
    (hg : s.groups g = some tg) (hflight : p.flight = none) (hdeal : p.deal = some (w, true))
    : Handoff.Step s.handoff
        (((s.setGroup g
          { tg with q := { tg.q with work := tg.q.work.listAppend w } }).accept g w).setCall k
          p).handoff := by
  have hold : s.handoff.deal k = some (w, false) := by
    simp only [Sys.handoff, hpc, CallPc.deal]
  have hstep := Handoff.Step.enqueue k g w hold
  have hsame : update (fun i => (s.calls i).flight) k none = fun i => (s.calls i).flight := by
    rw [update_eq_self_iff, hpc]
    rfl
  simp only [Sys.handoff, Sys.setCall, Sys.accept, Sys.setGroup] at hstep ⊢
  rw [queue_update, flight_update, deal_update, hflight, hdeal, hsame]
  simpa only [queueOf, hg, LL.listAppend_items] using hstep

theorem handoffStep_reserve {tg : TGroup} {rest : List Nat} (hpc : s.calls k = .offer g w)
    (hg : s.groups g = some tg)
    : Handoff.Step s.handoff
        ((((s.setGroup g
          {
            tg with
            idleThrds := ⟨rest, tg.idleThrds.len - 1⟩
            activeThrds := tg.activeThrds.listAppend t
          }).accept g w).assign g w).setCall k (.hand g t w)).handoff := by
  have hold : s.handoff.deal k = some (w, false) := by
    simp only [Sys.handoff, hpc, CallPc.deal]
  have hflight : s.handoff.flight k = none := by
    simp only [Sys.handoff, hpc, CallPc.flight]
  have hstep := Handoff.Step.reserve k w hold hflight
  simp only [Sys.handoff, Sys.setCall, Sys.accept, Sys.assign, Sys.setGroup] at hstep ⊢
  rw [queue_update, flight_update, deal_update, update_eq_self_iff.mpr]
  . exact hstep
  . simp only [queueOf, hg]

theorem handoffStep_hand {tt : TThread} (h : ThreadInv s) (hpc : s.calls k = .hand g t w)
    (ht : s.thrds t = some tt) (hlock : tt.pc.locked = false)
    : Handoff.Step s.handoff
        ((s.setThrd t { tt with currTask := some w, state := .running }).setCall k
          (.done w .poolSuccess)).handoff := by
  obtain ⟨tt₀, ht₀, _, hidle⟩ := h.hand k g t w hpc
  rw [ht] at ht₀
  cases ht₀
  have hok := h.ok t tt ht
  have hblocked := hok.blocked_of_idle hidle hlock
  have hflight : s.handoff.flight k = some w := by
    simp only [Sys.handoff, hpc, CallPc.flight]
  have htask : s.handoff.task t = none := by
    simp [Sys.handoff, ht, TThread.task, hok.currTask_of_idle hidle]
  have hstep := Handoff.Step.handOver k t w hflight htask
  have hsame : update (fun i => (s.calls i).deal) k (CallPc.done w .poolSuccess).deal =
      fun i => (s.calls i).deal := by
    rw [update_eq_self_iff, hpc]
    rfl
  have hbegun : (some { tt with currTask := some w, state := .running }).bind TThread.task =
      some (w, false) := by
    simp only [Option.bind_some, TThread.task, Option.map_some, hblocked, WorkerPc.begun]
  simp only [Sys.handoff, Sys.setCall, Sys.setThrd] at hstep ⊢
  rw [flight_update, deal_update, task_update, hsame, hbegun]
  exact hstep

theorem handoffStep_success (hpc : s.calls k = .done w .poolSuccess)
    : Handoff.Step s.handoff ({ s with returned := w :: s.returned }.setCall k .returned).handoff := by
  have hold : s.handoff.deal k = some (w, true) := by
    simp [Sys.handoff, hpc, CallPc.deal]
  have hstep := Handoff.Step.accept k w hold
  have hsame : update (fun i => (s.calls i).flight) k CallPc.returned.flight =
      fun i => (s.calls i).flight := by
    rw [update_eq_self_iff, hpc]
    rfl
  simp only [Sys.handoff, Sys.setCall] at hstep ⊢
  rw [flight_update, deal_update, hsame]
  exact hstep

theorem handoffStep_failure {rc : Rc} (hpc : s.calls k = .done w rc) (hrc : rc ≠ .poolSuccess)
    : Handoff.Step s.handoff ({ s with given := s.given.erase w }.setCall k .returned).handoff := by
  have hold : s.handoff.deal k = some (w, false) := by
    simp [Sys.handoff, hpc, CallPc.deal, hrc]
  have hstep := Handoff.Step.reject k w hold
  have hsame : update (fun i => (s.calls i).flight) k CallPc.returned.flight =
      fun i => (s.calls i).flight := by
    rw [update_eq_self_iff, hpc]
    rfl
  simp only [Sys.handoff, Sys.setCall] at hstep ⊢
  rw [flight_update, deal_update, hsame]
  exact hstep

theorem handoffStep_caller (hf : Fresh s) (ht : ThreadInv s) (hd : DrainInv s)
    (ho : Ledger.Owned s.ledger) (hs : CallStep s k s')
    : Handoff.Step s.handoff s'.handoff := by
  cases hs with
  | build min max flags hpc =>
    apply handoffStep_of_eq
    rw [handoff_setCall]
    . exact handoff_newGroup hf rfl
    . simp only [Sys.setGroup, hpc, CallPc.flight]
    . simp only [Sys.setGroup, hpc, CallPc.deal]
  | spawn g n max tg hpc hg =>
    apply handoffStep_of_eq
    rw [handoff_setCall, handoff_spawn hf hg]
    . simp only [Sys.spawn, Sys.setThrd, Sys.setGroup, hpc, CallPc.flight]
    . simp only [Sys.spawn, Sys.setThrd, Sys.setGroup, hpc, CallPc.deal]
  | endSpawn g max tg hpc hg =>
    apply handoffStep_of_eq
    rw [handoff_setCall]
    . exact handoff_setGroup hg rfl
    . simp only [Sys.setGroup, hpc, CallPc.flight]
    . simp only [Sys.setGroup, hpc, CallPc.deal]
  | close g by_ tg hpc hg =>
    apply handoffStep_of_eq
    rw [handoff_setCall]
    . exact handoff_setGroup hg rfl
    . simp only [Sys.setGroup, hpc, CallPc.flight]
    . simp only [Sys.setGroup, hpc, CallPc.deal]
  | wake g ts by_ tg t rest tt hpc hg hlen hitems htt =>
    apply handoffStep_of_eq
    rw [handoff_setThrd]
    . exact handoff_setGroup hg rfl
    . exact htt
    . rfl
  | endWake g ts by_ tg hpc hg =>
    apply handoffStep_of_eq
    rw [handoff_setCall]
    . exact handoff_setGroup hg rfl
    . simp only [Sys.setGroup, hpc, CallPc.flight]
    . simp only [Sys.setGroup, hpc, CallPc.deal]
  | endJoinPool g tg hpc hg =>
    have hnil := hd.queue_empty ho (k := k) (by rw [hpc]; rfl) hg
    apply handoffStep_of_eq
    rw [handoff_setCall]
    . exact handoff_freeGroup hg hnil
    . simp only [Sys.freeGroup, Sys.setPool, hpc, CallPc.flight]
    . simp only [Sys.freeGroup, Sys.setPool, hpc, CallPc.deal]
  | refund g tg hpc hg =>
    have hnil := hd.queue_empty ho (k := k) (by rw [hpc]; rfl) hg
    apply handoffStep_of_eq
    rw [handoff_setCall]
    . exact handoff_freeGroup hg hnil
    . simp only [Sys.freeGroup, Sys.setPool, hpc, CallPc.flight]
    . simp only [Sys.freeGroup, Sys.setPool, hpc, CallPc.deal]
  | queue g w tg pc hpc hg hlock hclose hidle hfull hnext =>
    apply handoffStep_queue hpc hg
    . rcases hnext with rfl | rfl <;> rfl
    . rcases hnext with rfl | rfl <;> rfl
  | full g w tg pc hpc hg hlock hclose hidle hfull hnext =>
    apply handoffStep_of_eq
    apply handoff_setCall
    . rw [hpc]
      rcases hnext with rfl | rfl <;> rfl
    . rw [hpc]
      rcases hnext with rfl | rfl <;> rfl
  | reserve g w tg t rest hpc hg => exact handoffStep_reserve hpc hg
  | hand g t w tt hpc htt hlock => exact handoffStep_hand ht hpc htt hlock
  | success w hpc => exact handoffStep_success hpc
  | failure w rc hpc hrc => exact handoffStep_failure hpc hrc
  | flag g gs before tg hpc hg =>
    apply handoffStep_of_eq
    rw [handoff_setCall]
    . exact handoff_setGroup hg rfl
    . simp only [Sys.setGroup, hpc, CallPc.flight]
    . simp only [Sys.setGroup, hpc, CallPc.deal]
  | block before hpc =>
    apply handoffStep_of_eq
    rcases hpc with hpc | ⟨hpc, _⟩ <;>
      exact handoff_setCall (by simp only [Sys.setPool, hpc, CallPc.flight])
        (by simp only [Sys.setPool, hpc, CallPc.deal])
  | endWait before hpc =>
    apply handoffStep_of_eq
    rcases hpc with hpc | ⟨hpc, _⟩ <;>
      exact handoff_setCall (by simp only [Sys.setPool, hpc, CallPc.flight])
        (by simp only [Sys.setPool, hpc, CallPc.deal])
  | _ =>
    apply handoffStep_of_eq
    apply handoff_setCall <;> simp [CallPc.flight, CallPc.deal, *]

theorem handoffStep_fetch {tg : TGroup} {tt : TThread} {rest : List Nat} (ht : ThreadInv s)
    (htt : s.thrds t = some tt) (hpc : tt.pc = .grp) (hg : s.groups tt.tg = some tg)
    (hitems : tg.q.work.items = w :: rest)
    : Handoff.Step s.handoff
        (((s.setGroup tt.tg
          { tg with q := { tg.q with work := ⟨rest, tg.q.work.len - 1⟩ } }).assign tt.tg w).setThrd t
          { tt with currTask := some w, pc := .call w }).handoff := by
  have hok := ht.ok t tt htt
  simp only [TThread.Ok, hpc] at hok
  have hqueue : s.handoff.queue tt.tg = w :: rest := by
    simp only [Sys.handoff, queueOf, hg, hitems]
  have htask : s.handoff.task t = none := by
    simp [Sys.handoff, htt, TThread.task, hok.2]
  have hstep := Handoff.Step.fetch tt.tg t w rest hqueue htask
  simp only [Sys.handoff, Sys.setThrd, Sys.assign, Sys.setGroup] at hstep ⊢
  rw [queue_update, task_update]
  exact hstep

theorem handoffStep_spawn {tg : TGroup} {rest : List Nat} (hf : Fresh s) (hg : s.groups g = some tg)
    (hitems : tg.q.work.items = w :: rest)
    : Handoff.Step s.handoff
        (s.spawn g { tg with q := { tg.q with work := ⟨rest, tg.q.work.len - 1⟩ } }
          (some w)).handoff := by
  have hqueue : s.handoff.queue g = w :: rest := by
    simp only [Sys.handoff, queueOf, hg, hitems]
  have htask : s.handoff.task s.nextThrd = none := by
    simp [Sys.handoff, hf.nextThrd_eq_none]
  have hstep := Handoff.Step.fetch g s.nextThrd w rest hqueue htask
  simp only [Sys.handoff, Sys.spawn, Sys.setThrd, Sys.setGroup] at hstep ⊢
  rw [queue_update, task_update]
  exact hstep

theorem handoffStep_call {tt : TThread} (ht : ThreadInv s) (htt : s.thrds t = some tt)
    (hpc : tt.pc = .call w)
    : Handoff.Step s.handoff
        ({ s with called := update s.called w (s.called w + 1) }.setThrd t
          { tt with pc := .inFunc w }).handoff := by
  have hok := ht.ok t tt htt
  simp only [TThread.Ok, hpc] at hok
  have htask : s.handoff.task t = some (w, false) := by
    simp [Sys.handoff, htt, TThread.task, hok.2, hpc, WorkerPc.begun]
  have hstep := Handoff.Step.begin_ t w htask
  simp only [Sys.handoff, Sys.setThrd] at hstep ⊢
  rw [task_update]
  simpa only [Option.bind_some, TThread.task, hok.2, Option.map_some, WorkerPc.begun] using hstep

theorem handoffStep_ret {tt : TThread} (ht : ThreadInv s) (htt : s.thrds t = some tt)
    (hpc : tt.pc = .ret w)
    : Handoff.Step s.handoff
        ({ s with finished := s.finished ++ tt.currTask.toList }.setThrd t
          { tt with currTask := none, pc := .grp }).handoff := by
  have hok := ht.ok t tt htt
  simp only [TThread.Ok, hpc] at hok
  have htask : s.handoff.task t = some (w, true) := by
    simp [Sys.handoff, htt, TThread.task, hok.2, hpc, WorkerPc.begun]
  have hstep := Handoff.Step.finish t w htask
  simp only [Sys.handoff, Sys.setThrd] at hstep ⊢
  rw [task_update]
  simpa only [Option.bind_some, TThread.task, hok.2, Option.map_none, Option.toList_some] using hstep

theorem handoffStep_worker (ht : ThreadInv s) (hs : WorkerStep s t s')
    : Handoff.Step s.handoff s'.handoff := by
  cases hs with
  | call tt w htt hpc => exact handoffStep_call ht htt hpc
  | ret tt w htt hpc => exact handoffStep_ret ht htt hpc
  | fetch tt tg w rest htt hpc hg hlock hlen hitems => exact handoffStep_fetch ht htt hpc hg hitems
  | goIdle tt tg wait htt hpc hg =>
    have hok := ht.ok t tt htt
    simp only [TThread.Ok, hpc] at hok
    apply handoffStep_of_eq
    rw [handoff_setThrd]
    . exact handoff_setGroup hg rfl
    . exact htt
    . simp only [TThread.task, hok.2, Option.map_none]
  | leave tt tg htt hpc hg =>
    have hok := ht.ok t tt htt
    simp only [TThread.Ok, hpc] at hok
    apply handoffStep_of_eq
    rw [handoff_freeThrd]
    . exact handoff_setGroup hg rfl
    . exact htt
    . exact hok.2
  | softKill tt tg htt hpc =>
    have hok := ht.ok t tt htt
    simp only [TThread.Ok, hpc] at hok
    apply handoffStep_of_eq
    apply handoff_setThrd htt
    simp only [TThread.task, hok.2, Option.map_none]
  | topTask tt w htt hpc =>
    apply handoffStep_of_eq
    apply handoff_setThrd htt
    simp only [TThread.task, hpc, WorkerPc.begun]
  | topNone tt htt hpc =>
    apply handoffStep_of_eq
    apply handoff_setThrd htt
    simp only [TThread.task, hpc, WorkerPc.begun]
  | inFunc tt w htt hpc =>
    apply handoffStep_of_eq
    apply handoff_setThrd htt
    simp only [TThread.task, hpc, WorkerPc.begun]
  | hardKill tt tg htt hpc =>
    apply handoffStep_of_eq
    apply handoff_setThrd htt
    simp only [TThread.task, hpc, WorkerPc.begun]
  | decr tt htt hpc =>
    apply handoffStep_of_eq
    apply handoff_setThrd htt
    simp only [TThread.task, hpc, WorkerPc.begun]
  | block tt htt hpc =>
    apply handoffStep_of_eq
    apply handoff_setThrd htt
    rcases hpc with hpc | hpc <;> simp only [TThread.task, hpc, WorkerPc.begun]
  | awake tt htt hpc =>
    apply handoffStep_of_eq
    apply handoff_setThrd htt
    rcases hpc with hpc | hpc <;> simp only [TThread.task, hpc, WorkerPc.begun]

theorem handoffStep_manager {m : Nat} (hf : Fresh s) (hs : ManagerStep s m s')
    : Handoff.Step s.handoff s'.handoff := by
  cases hs with
  | look g gs tg hpc hg =>
    apply handoffStep_of_eq
    exact handoff_setGroup hg rfl
  | spawnTask g n gs tg w rest hpc hg hlen hitems => exact handoffStep_spawn hf hg hitems
  | spawnNone g n gs tg hpc hg =>
    apply handoffStep_of_eq
    exact handoff_spawn hf hg
  | endSpawn g gs tg hpc hg =>
    apply handoffStep_of_eq
    exact handoff_setGroup hg rfl
  | _ => exact handoffStep_of_eq rfl

theorem handoffStep {a : Action} (hf : Fresh s) (ht : ThreadInv s) (hd : DrainInv s)
    (ho : Ledger.Owned s.ledger) (hs : Step s a s')
    : Handoff.Step s.handoff s'.handoff := by
  cases hs with
  | start req s' hs => apply handoffStep_start hf hs
  | caller k s' hs => apply handoffStep_caller hf ht hd ho hs
  | worker t s' hs => apply handoffStep_worker ht hs
  | manager m timedOut s' hs => apply handoffStep_manager hf hs

end

end Pool
