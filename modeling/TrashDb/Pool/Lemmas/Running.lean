import Mathlib.Combinatorics.Enumerative.DoubleCounting
import TrashDb.Pool.Lemmas.Shutdown
import TrashDb.Pool.Lemmas.Wakes

/-!
This module contains how many works of a group run at the same time. From the section in which a work is
taken for a thread until it is finished it is carried by that thread, or by the `do_work` that has reserved
it, and a thread carries one work. So there are never more of them than active threads, and since they are
taken in the order in which they were accepted, a work has fewer than `thrdMax` unfinished ones ahead of it
once a thread has it.
-/

namespace Pool

open Function

/--
The work is the task of the thread, or a `do_work` is about to hand it over.
-/
def Carries (s : Sys) (g w t : Nat) : Prop :=
  taskIn (s.thrds t) = some (w, g) ∨ ∃ k, s.calls k = .hand g t w

/--
The works that were assigned to the threads of the group and are not finished.
-/
def Sys.running (s : Sys) (g : Nat) : List Nat := (s.assigned g).filter (· ∉ s.finished)

def Sys.ahead (s : Sys) (g w : Nat) : List Nat := (s.accepted g).takeWhile (· ≠ w)

structure CarryInv (s : Sys) : Prop where
  nodup : ∀ g, (s.accepted g).Nodup
  accepted : ∀ g w t, Carries s g w t → w ∈ s.accepted g

section

variable {s s' : Sys} {a : Action} {k g t w : Nat}

theorem task_cases (ht : ThreadInv s) (hs : Step s a s') (htask : taskIn (s'.thrds t) = some (w, g))
    : Carries s g w t ∨ w ∈ queueOf (s.groups g) := by
  have hsame : taskIn (s.thrds t) = some (w, g) → Carries s g w t ∨ w ∈ queueOf (s.groups g) :=
    fun h => .inl (.inl h)
  have hkeep : ∀ {i tti tti'}, s.thrds i = some tti → s'.thrds = update s.thrds i (some tti') →
      tti'.currTask = tti.currTask → tti'.tg = tti.tg → Carries s g w t ∨ w ∈ queueOf (s.groups g) := by
    intro i tti tti' hi hthrds hcurr htg
    rw [taskIn_setThrd hthrds hi hcurr htg] at htask
    exact hsame htask
  have hlost : ∀ {i o}, s'.thrds = update s.thrds i o → taskIn o = none →
      Carries s g w t ∨ w ∈ queueOf (s.groups g) := by
    intro i o hthrds ho
    rw [hthrds, update_apply] at htask
    split at htask
    . rw [ho] at htask
      cases htask
    . exact hsame htask
  -- A thread that fetches a work takes it out of the queue of its group.
  have hfetch : ∀ {i w' rest tgi tti}, s'.thrds = update s.thrds i (some tti) →
      s.groups tti.tg = some tgi → tgi.q.work.items = w' :: rest → tti.currTask = some w' →
      Carries s g w t ∨ w ∈ queueOf (s.groups g) := by
    intro i w' rest tgi tti hthrds hg hitems hcurr
    rw [hthrds, update_apply] at htask
    split at htask
    . rw [taskIn, hcurr] at htask
      cases htask
      right
      rw [hg, queueOf, hitems]
      apply List.mem_cons_self
    . exact hsame htask
  cases hs with
  | start req s' hs => cases hs <;> exact hsame htask
  | caller k s' hs =>
    cases hs with
    | spawn g' n max tg hpc hg => exact hlost rfl rfl
    | wake g' ts by_ tg t' rest tt hpc hg hlen hitems htt => exact hkeep htt rfl rfl rfl
    | hand g' t' w' tt hpc htt =>
      obtain ⟨tt₀, htt₀, htg, _⟩ := ht.hand k g' t' w' hpc
      cases htt.symm.trans htt₀
      simp only [Sys.setCall, Sys.setThrd, update_apply] at htask
      split at htask
      . next heq =>
        cases htask
        exact .inl (.inr ⟨k, by rw [heq, htg]; exact hpc⟩)
      . exact hsame htask
    | _ => exact hsame htask
  | worker i s' hs =>
    cases hs with
    | fetch tt tg w' rest htt hpc hg hlock hlen hitems => exact hfetch rfl hg hitems rfl
    | ret tt w' htt | softKill tt tg htt | goIdle tt tg wait htt | leave tt tg htt => exact hlost rfl rfl
    | topTask tt w' htt | topNone tt htt | call tt w' htt | inFunc tt w' htt | hardKill tt tg htt
    | decr tt htt | block tt htt | awake tt htt =>
      exact hkeep htt rfl rfl rfl
  | manager m timedOut s' hs =>
    cases hs with
    | spawnTask g' n gs tg w' rest hpc hg hlen hitems => exact hfetch rfl hg hitems rfl
    | spawnNone g' n gs tg hpc hg => exact hlost rfl rfl
    | _ => exact hsame htask

theorem accepted_cases (hs : Step s a s')
    : s'.accepted = s.accepted ∨
        ∃ k g w, s.calls k = .offer g w ∧
          s'.accepted = update s.accepted g (s.accepted g ++ [w]) := by
  cases hs with
  | start req s' hs => cases hs <;> exact .inl rfl
  | caller k s' hs =>
    cases hs with
    | queue g w tg pc hpc => exact .inr ⟨k, g, w, hpc, rfl⟩
    | reserve g w tg t rest hpc => exact .inr ⟨k, g, w, hpc, rfl⟩
    | _ => exact .inl rfl
  | worker t s' hs => cases hs <;> exact .inl rfl
  | manager m timedOut s' hs => cases hs <;> exact .inl rfl

theorem hand_cases (hs : Step s a s') (hk : s'.calls k = .hand g t w)
    : s.calls k = .hand g t w ∨ w ∈ s'.accepted g := by
  cases hs with
  | start req s' hs =>
    by_cases hnext : k = s.nextCall
    . subst hnext
      cases hs <;> simp at hk
    . rw [hs.calls_of_ne hnext] at hk
      exact .inl hk
  | caller i s' hs =>
    by_cases hki : k = i
    . subst hki
      have hstep := hs
      cases hs with
      | reserve g' w' tg t' rest hpc hg =>
        simp only [Sys.setCall, update_self] at hk
        cases hk
        right
        simp
      | wake g' ts by_ tg t' rest tt hpc => exact .inl hk
      | queue g' w' tg pc hpc hg hlock hclose hidle hfull hnext
      | full g' w' tg pc hpc hg hlock hclose hidle hfull hnext =>
        rcases hnext with rfl | rfl <;> simp at hk
      | _ => simp at hk
    . rw [hs.calls_of_ne hki] at hk
      exact .inl hk
  | worker i s' hs =>
    rw [hs.calls_eq] at hk
    exact .inl hk
  | manager m timedOut s' hs =>
    rw [hs.calls_eq] at hk
    exact .inl hk

theorem Located.placed (h : Located s w g) : s.handoff.Placed w := by
  rcases h with (h | ⟨t, h⟩) | ⟨k, t, h⟩ | h
  . exact ⟨.queue g, h⟩
  . cases htt : s.thrds t with
    | none =>
      rw [htt] at h
      cases h
    | some tt =>
      simp only [htt, taskIn, Option.map_eq_some_iff, Prod.mk.injEq] at h
      obtain ⟨w', hw', rfl, _⟩ := h
      refine ⟨.task t, tt.pc.begun, ?_⟩
      simp [Sys.handoff, htt, TThread.task, hw']
  . refine ⟨.flight k, ?_⟩
    simp [Handoff.State.At, Sys.handoff, h, CallPc.flight]
  . exact ⟨.finished, h⟩

end

namespace CarryInv

variable {s s' : Sys} {a : Action}

theorem init (tp : TPool) : CarryInv (.init tp) := by
  constructor
  . intro g
    apply List.nodup_nil
  . rintro g w t (htask | ⟨k, hk⟩)
    . cases htask
    . cases hk

theorem step (h : CarryInv s) (hi : GroupInv s) (hl : AcceptedInv s) (hs : Step s a s') : CarryInv s' := by
  have hgrow : ∀ g, s.accepted g ⊆ s'.accepted g := fun g => (extends_of_step hs g).1.subset
  constructor
  . intro g
    rcases accepted_cases hs with heq | ⟨k, g', w, hpc, heq⟩
    . rw [heq]
      apply h.nodup g
    . rw [heq, update_apply]
      split
      . -- What is on offer is nowhere yet, so the group has not accepted it before.
        have hdeal : s.handoff.deal k = some (w, false) := by
          simp only [Sys.handoff, hpc, CallPc.deal]
        rw [← List.concat_eq_append, List.nodup_concat]
        refine ⟨?_, h.nodup g'⟩
        intro hw
        obtain ⟨p, hp⟩ := (hl g' w hw).placed
        exact Handoff.Once.not_at hi.dealt hdeal p hp
      . apply h.nodup g
  . rintro g w t (htask | ⟨k, hk⟩)
    . rcases task_cases hi.threads hs htask with hcarries | hqueue
      . exact hgrow g (h.accepted g w t hcarries)
      . apply hgrow g
        rw [hi.ordered.order g]
        exact List.mem_append_right _ hqueue
    . rcases hand_cases hs hk with hk | hw
      . exact hgrow g (h.accepted g w t (.inr ⟨k, hk⟩))
      . exact hw

end CarryInv

structure RunningInv (s : Sys) : Prop extends WakeInv s where
  table : TableInv s
  located : AcceptedInv s
  carry : CarryInv s

namespace RunningInv

variable {s s' : Sys} {a : Action} {g t w w' : Nat} {tg : TGroup}

theorem init {maxThrds : Nat} {tp : TPool} (h : TPool.initPool maxThrds = some tp) : RunningInv (.init tp) :=
  ⟨WakeInv.init h, TableInv.init tp, AcceptedInv.init tp, CarryInv.init tp⟩

theorem step (h : RunningInv s) (hs : Step s a s') : RunningInv s' := by
  refine ⟨h.toWakeInv.step hs, ?_, ?_, ?_⟩
  . apply h.table.step h.fresh h.drain h.groupLock hs
  . apply h.located.step h.toPoolInv hs
  . apply h.carry.step h.toGroupInv h.located hs

theorem of_run {maxThrds : Nat} {tp : TPool} {as : List Action} {s : Sys}
    (hinit : TPool.initPool maxThrds = some tp) (hrun : run (.init tp) as = some s)
    : RunningInv s := by
  refine Lts.invariant_run ?_ (RunningInv.init hinit) hrun
  intro s a s' h hs
  exact h.step (step_of_step hs)

theorem place_of_carries (h : RunningInv s) (hc : Carries s g w t)
    : ∃ tt, s.thrds t = some tt ∧ tt.tg = g ∧
        (∀ i, w ∉ queueOf (s.groups i)) ∧ w ∉ s.finished := by
  rcases hc with htask | ⟨k, hk⟩
  . cases htt : s.thrds t with
    | none =>
      rw [htt] at htask
      cases htask
    | some tt =>
      simp only [htt, taskIn, Option.map_eq_some_iff, Prod.mk.injEq] at htask
      obtain ⟨w', hw', rfl, htg⟩ := htask
      have hat : s.handoff.At w' (.task t) := by
        refine ⟨tt.pc.begun, ?_⟩
        simp [Sys.handoff, htt, TThread.task, hw']
      refine ⟨tt, rfl, htg, ?_, ?_⟩
      . intro i hmem
        cases h.once.place w' (.task t) (.queue i) hat hmem
      . intro hmem
        cases h.once.place w' (.task t) .finished hat hmem
  . obtain ⟨tt, htt, htg, _⟩ := h.threads.hand k g t w hk
    have hat : s.handoff.At w (.flight k) := by
      simp [Handoff.State.At, Sys.handoff, hk, CallPc.flight]
    refine ⟨tt, htt, htg, ?_, ?_⟩
    . intro i hmem
      cases h.once.place w (.flight k) (.queue i) hat hmem
    . intro hmem
      cases h.once.place w (.flight k) .finished hat hmem

theorem assigned_of_carries (h : RunningInv s) (hc : Carries s g w t) : w ∈ s.assigned g := by
  obtain ⟨_, _, _, hqueue, _⟩ := h.place_of_carries hc
  have haccepted := h.carry.accepted g w t hc
  rw [h.ordered.order g, List.mem_append] at haccepted
  exact haccepted.resolve_right (hqueue g)

theorem carries_of_running (h : RunningInv s) (hw : w ∈ s.running g) : ∃ t, Carries s g w t := by
  simp only [Sys.running, List.mem_filter, decide_not, Bool.not_eq_true', decide_eq_false_iff_not] at hw
  have hnodup := h.carry.nodup g
  have hmem : w ∈ s.accepted g := by
    rw [h.ordered.order g]
    exact List.mem_append_left _ hw.1
  rcases h.located g w hmem with (hqueue | ⟨t, htask⟩) | ⟨k, t, hk⟩ | hfinished
  . -- The queue holds the rest of the works that were accepted, and none of them twice.
    rw [h.ordered.order g] at hnodup
    exact absurd hqueue (List.disjoint_of_nodup_append hnodup hw.1)
  . exact ⟨t, .inl htask⟩
  . exact ⟨t, .inr ⟨k, hk⟩⟩
  . exact absurd hfinished hw.2

theorem carries_unique (h : RunningInv s) (hc : Carries s g w t) (hc' : Carries s g w' t) : w = w' := by
  -- A thread that a `do_work` has reserved has no task.
  have hreserved : ∀ {k w w'}, s.calls k = .hand g t w → taskIn (s.thrds t) ≠ some (w', g) := by
    intro k w w' hk htask
    obtain ⟨tt, htt, _, hidle⟩ := h.threads.hand k g t w hk
    rw [htt, taskIn, (h.threads.ok t tt htt).currTask_of_idle hidle] at htask
    cases htask
  rcases hc with htask | ⟨k, hk⟩
  . rcases hc' with htask' | ⟨k', hk'⟩
    . cases htask.symm.trans htask'
      rfl
    . exact absurd htask (hreserved hk')
  . rcases hc' with htask' | ⟨k', hk'⟩
    . exact absurd htask' (hreserved hk)
    . cases h.threads.unique k k' g g t w w' hk hk'
      cases hk.symm.trans hk'
      rfl

theorem active_of_carries (h : RunningInv s) (hg : s.groups g = some tg) (hc : Carries s g w t)
    : t ∈ tg.activeThrds.items := by
  rcases hc with htask | ⟨k, hk⟩
  . cases htt : s.thrds t with
    | none =>
      rw [htt] at htask
      cases htask
    | some tt =>
      simp only [htt, taskIn, Option.map_eq_some_iff, Prod.mk.injEq] at htask
      obtain ⟨w', hw', rfl, rfl⟩ := htask
      exact h.threads.active t tt tg htt ((h.threads.ok t tt htt).running_of_currTask hw') hg
  . exact (h.threads.apart k g t w tg hk hg).2

theorem nodup_running (h : RunningInv s) (g : Nat) : (s.running g).Nodup := by
  have hnodup := h.carry.nodup g
  rw [h.ordered.order g] at hnodup
  exact hnodup.of_append_left.filter _

theorem length_running_le (h : RunningInv s) (hg : s.groups g = some tg)
    : (s.running g).length ≤ tg.activeThrds.items.length := by
  rw [← List.toFinset_card_of_nodup (h.nodup_running g)]
  refine le_trans ?_ (List.toFinset_card_le tg.activeThrds.items)
  apply Finset.card_le_card_of_forall_subsingleton (fun w t => Carries s g w t)
  . intro w hw
    obtain ⟨t, hc⟩ := h.carries_of_running (List.mem_toFinset.mp hw)
    exact ⟨t, List.mem_toFinset.mpr (h.active_of_carries hg hc), hc⟩
  . rintro t _ w ⟨_, hc⟩ w' ⟨_, hc'⟩
    exact h.carries_unique hc hc'

theorem length_members_le (h : RunningInv s) (hg : s.groups g = some tg)
    : tg.members.length ≤ tg.thrdMax := by
  have hsubset : tg.members ⊆ tg.thrds := fun t ht => h.lists.named g tg t hg ht
  calc tg.members.length
    _ ≤ tg.numThrds := ((h.lists.nodup g tg hg).subperm hsubset).length_le
    _ ≤ tg.thrdMax := (h.table.limits g tg hg).num_le

theorem length_active_le (h : RunningInv s) (hg : s.groups g = some tg)
    : tg.activeThrds.items.length ≤ tg.thrdMax := by
  refine le_trans ?_ (h.length_members_le hg)
  rw [TGroup.members, List.length_append]
  exact Nat.le_add_left _ _

theorem running_eq_nil (h : RunningInv s) (hg : s.groups g = none) : s.running g = [] := by
  rw [List.eq_nil_iff_forall_not_mem]
  intro w hw
  obtain ⟨t, hc⟩ := h.carries_of_running hw
  obtain ⟨tt, htt, rfl, _⟩ := h.place_of_carries hc
  obtain ⟨tg, hg'⟩ := h.housed t tt htt
  rw [hg] at hg'
  cases hg'

theorem length_ahead_lt (h : RunningInv s) (hg : s.groups g = some tg) (hc : Carries s g w t)
    : ((s.ahead g w).filter (· ∉ s.finished)).length < tg.thrdMax := by
  obtain ⟨_, _, _, _, hfinished⟩ := h.place_of_carries hc
  obtain ⟨before, after, hassigned, hw⟩ := List.eq_append_cons_of_mem (h.assigned_of_carries hc)
  have hahead : s.ahead g w = before := by
    rw [Sys.ahead, h.ordered.order g, hassigned, List.append_assoc, List.cons_append,
      List.takeWhile_append_of_pos]
    . simp
    . intro w' hw'
      simp only [ne_eq, decide_eq_true_eq]
      rintro rfl
      exact hw hw'
  -- The work itself is one of those that are running, behind the ones ahead of it.
  have hlt : (before.filter (· ∉ s.finished)).length < (s.running g).length := by
    rw [Sys.running, hassigned, List.filter_append, List.filter_cons_of_pos (by simpa using hfinished),
      List.length_append, List.length_cons]
    omega
  rw [hahead]
  calc (before.filter (· ∉ s.finished)).length
    _ < (s.running g).length := hlt
    _ ≤ tg.activeThrds.items.length := h.length_running_le hg
    _ ≤ tg.thrdMax := h.length_active_le hg

end RunningInv

structure Throttled (s : Sys) : Prop where
  running : ∀ g tg, s.groups g = some tg →
    (s.running g).length ≤ tg.activeThrds.len ∧ tg.activeThrds.len ≤ tg.thrdMax
  freed : ∀ g, s.groups g = none → s.running g = []
  ahead : ∀ t tt tg w, s.thrds t = some tt → s.groups tt.tg = some tg → tt.currTask = some w →
    ((s.ahead tt.tg w).filter (· ∉ s.finished)).length < tg.thrdMax
  serial : ∀ t tt tg w, s.thrds t = some tt → s.groups tt.tg = some tg → tt.currTask = some w →
    tg.thrdMax = 1 → ∀ w' ∈ s.ahead tt.tg w, w' ∈ s.finished

theorem RunningInv.throttled {s : Sys} (h : RunningInv s) : Throttled s := by
  have hahead : ∀ t tt tg w, s.thrds t = some tt → s.groups tt.tg = some tg → tt.currTask = some w →
      ((s.ahead tt.tg w).filter (· ∉ s.finished)).length < tg.thrdMax := by
    intro t tt tg w htt hg hw
    refine h.length_ahead_lt hg (t := t) (.inl ?_)
    rw [htt, taskIn, hw, Option.map_some]
  refine ⟨?_, fun g hg => h.running_eq_nil hg, hahead, ?_⟩
  . intro g tg hg
    rw [(h.threads.coherent g tg hg).2]
    exact ⟨h.length_running_le hg, h.length_active_le hg⟩
  . intro t tt tg w htt hg hw hmax w' hw'
    have hlt := hahead t tt tg w htt hg hw
    rw [hmax, Nat.lt_one_iff, List.length_eq_zero_iff, List.filter_eq_nil_iff] at hlt
    simpa using hlt w' hw'

theorem throttled_of_run {maxThrds : Nat} {tp : TPool} {as : List Action} {s : Sys}
    (hinit : TPool.initPool maxThrds = some tp) (hrun : run (.init tp) as = some s)
    : Throttled s :=
  (RunningInv.of_run hinit hrun).throttled

theorem throttled_second_work
    : ∃ tp s, TPool.initPool 4 = some tp ∧
        run (.init tp) (.call (.addGroup 1 1 0) :: List.replicate 5 (.caller 0) ++
          .call (.doWork 0 7) :: List.replicate 3 (.caller 1) ++
          .call (.doWork 0 8) :: List.replicate 3 (.caller 2) ++ List.replicate 6 (.worker 0)) = some s ∧
        Throttled s ∧ s.ahead 0 8 = [7] ∧ s.finished = [7] ∧ s.running 0 = [8] ∧
        (s.thrds 0).bind TThread.currTask = some 8 := by
  refine ⟨_, _, rfl, rfl, ?_, rfl, rfl, rfl, rfl⟩
  exact @throttled_of_run 4 _ (.call (.addGroup 1 1 0) :: List.replicate 5 (.caller 0) ++
    .call (.doWork 0 7) :: List.replicate 3 (.caller 1) ++
    .call (.doWork 0 8) :: List.replicate 3 (.caller 2) ++ List.replicate 6 (.worker 0)) _ rfl rfl

end Pool
