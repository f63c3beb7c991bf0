import TrashDb.Pool.Lemmas.Works

/-!
This module contains the invariants of the pool that hold in every run, and what they say about the
works: a work for which `do_work` returns `POOL_SUCCESS` is called exactly once, whichever way it takes
to the thread that calls it and whether the group is destroyed meanwhile or not.
-/

namespace Pool

structure PoolInv (s : Sys) : Prop where
  lock : PoolLock s
  fresh : Fresh s
  owned : Ledger.Owned s.ledger
  threads : ThreadInv s
  managing : Managing s
  drain : DrainInv s
  once : Handoff.Once s.handoff
  dealt : Handoff.Dealt s.handoff

namespace PoolInv

variable {s s' : Sys}

theorem once_init (tp : TPool) : Handoff.Once (Sys.init tp).handoff := by
  have hnot : ∀ w p, ¬ (Sys.init tp).handoff.At w p := by
    intro w p hp
    cases p with
    | queue g => cases hp
    | flight k => cases hp
    | task t =>
      obtain ⟨begun, ht⟩ := hp
      cases ht
    | finished => cases hp
  constructor
  . intro w p p' hp
    exact absurd hp (hnot w p)
  . intro g
    apply List.nodup_nil
  . apply List.nodup_nil
  . intro w hw
    cases hw
  . intro t w begun ht
    cases ht
  . intro w _ _
    rfl

theorem dealt_init (tp : TPool) : Handoff.Dealt (Sys.init tp).handoff := by
  constructor
  . apply List.nodup_nil
  . intro k w c hk
    cases hk
  . intro k k' w c c' hk
    cases hk
  . intro w hw
    cases hw
  . rintro w ⟨p, hp⟩
    cases p with
    | queue g => cases hp
    | flight k => cases hp
    | task t =>
      obtain ⟨begun, ht⟩ := hp
      cases ht
    | finished => cases hp
  . intro k w hk
    cases hk

theorem init {maxThrds : Nat} {tp : TPool} (h : TPool.initPool maxThrds = some tp)
    : PoolInv (.init tp) := by
  have hitems : tp.groups.items = [] := by
    unfold TPool.initPool at h
    split at h
    . cases h
    . cases h
      rfl
  exact ⟨PoolLock.init tp, Fresh.init tp, owned_init tp hitems, ThreadInv.init tp, Managing.init tp,
    DrainInv.init tp, once_init tp, dealt_init tp⟩

theorem step {a : Action} (h : PoolInv s) (hs : Step s a s') : PoolInv s' := by
  have hhandoff := handoffStep h.fresh h.threads h.drain h.owned hs
  constructor
  . apply h.lock.step hs
  . apply h.fresh.step hs
  . apply owned_step h.fresh h.owned hs
  . apply h.threads.step h.fresh hs
  . apply h.managing.step h.lock hs
  . apply h.drain.step h.fresh h.threads h.owned h.managing hs
  . apply h.once.step h.dealt hhandoff
  . apply h.dealt.step h.once hhandoff

theorem of_run {maxThrds : Nat} {tp : TPool} {as : List Action} {s : Sys}
    (hinit : TPool.initPool maxThrds = some tp) (hrun : run (.init tp) as = some s)
    : PoolInv s := by
  refine Lts.invariant_run ?_ (PoolInv.init hinit) hrun
  intro s a s' h hs
  apply h.step (step_of_step hs)

end PoolInv

/--
The places of a work are the queue of a group, a call of `do_work` that is about to write the task of a
thread, the task of a thread, and the end.
-/
structure ExactlyOnce (s : Sys) : Prop where
  place : ∀ w, s.handoff.Committed w → ∃! p, s.handoff.At w p
  queue : ∀ g tg, s.groups g = some tg → tg.q.work.items.Nodup
  finished : s.finished.Nodup
  called : ∀ w, s.called w ≤ 1
  calledOnce : ∀ w, w ∈ s.finished → s.called w = 1

structure Kept (s s' : Sys) : Prop where
  task : ∀ t tt tt' w, s.thrds t = some tt → s'.thrds t = some tt' → tt.currTask = some w →
    tt'.currTask = some w ∨ (tt'.currTask = none ∧ w ∈ s'.finished)
  committed : ∀ w, s.handoff.Committed w → s'.handoff.Committed w

theorem PoolInv.exactlyOnce {s : Sys} (h : PoolInv s) : ExactlyOnce s := by
  constructor
  . intro w hw
    apply Handoff.existsUnique_at h.once h.dealt hw
  . intro g tg hg
    have hnodup := h.once.queue g
    simp only [Sys.handoff, queueOf, hg] at hnodup
    exact hnodup
  . exact h.once.finished
  . exact h.once.called_le
  . exact h.once.calledFinished

theorem PoolInv.kept {s s' : Sys} {a : Action} (h : PoolInv s) (hs : Step s a s') : Kept s s' := by
  have hhandoff := handoffStep h.fresh h.threads h.drain h.owned hs
  constructor
  . intro t tt tt' w ht ht' hw
    have htask : s.handoff.task t = some (w, tt.pc.begun) := by
      simp [Sys.handoff, ht, TThread.task, hw]
    rcases hhandoff.task_of_some htask with ⟨begun', htask'⟩ | ⟨htask', hfinished⟩
    . simp only [Sys.handoff, ht', Option.bind_some, TThread.task, Option.map_eq_some_iff] at htask'
      obtain ⟨w', hw', heq⟩ := htask'
      cases heq
      exact .inl hw'
    . simp only [Sys.handoff, ht', Option.bind_some, TThread.task, Option.map_eq_none_iff] at htask'
      exact .inr ⟨htask', hfinished⟩
  . intro w hw
    apply hhandoff.committed hw

theorem exactlyOnce_of_run {maxThrds : Nat} {tp : TPool} {as : List Action} {s : Sys}
    (hinit : TPool.initPool maxThrds = some tp) (hrun : run (.init tp) as = some s)
    : ExactlyOnce s ∧ ∀ a s', s.step a = some s' → Kept s s' := by
  have hinv := PoolInv.of_run hinit hrun
  refine ⟨hinv.exactlyOnce, ?_⟩
  intro a s' hs
  apply hinv.kept (step_of_step hs)

theorem exactlyOnce_queued_work
    : ∃ tp s, TPool.initPool 4 = some tp ∧
        run (.init tp) (.call (.addGroup 1 1 0) :: List.replicate 5 (.caller 0) ++
          .call (.doWork 0 7) :: List.replicate 3 (.caller 1) ++
          List.replicate 5 (.worker 0)) = some s ∧
        (ExactlyOnce s ∧ ∀ a s', s.step a = some s' → Kept s s') ∧
        s.returned = [7] ∧ s.finished = [7] ∧ s.called 7 = 1 := by
  refine ⟨_, _, rfl, rfl, ?_, rfl, rfl, rfl⟩
  exact @exactlyOnce_of_run 4 _ (.call (.addGroup 1 1 0) :: List.replicate 5 (.caller 0) ++
    .call (.doWork 0 7) :: List.replicate 3 (.caller 1) ++ List.replicate 5 (.worker 0)) _ rfl rfl

end Pool
