import TrashDb.Pool.Lemmas.Order
import TrashDb.Pool.Lemmas.Wait

/-!
This module contains what is left of a group when its threads have been joined. The works that it
accepted are finished, since there is neither a thread that could have one of them nor a call that could
be about to hand one over.
-/

namespace Pool

open Function

def Located (s : Sys) (w g : Nat) : Prop :=
  InGroup s w g ∨ (∃ k t, s.calls k = .hand g t w) ∨ w ∈ s.finished

def AcceptedInv (s : Sys) : Prop := ∀ g w, w ∈ s.accepted g → Located s w g

namespace Located

variable {s s' : Sys} {k g t w : Nat}

theorem of_queue (h : w ∈ queueOf (s.groups g)) : Located s w g := .inl (.inl h)

theorem of_task (h : taskIn (s.thrds t) = some (w, g)) : Located s w g := .inl (.inr ⟨t, h⟩)

theorem of_hand (h : s.calls k = .hand g t w) : Located s w g := .inr (.inl ⟨k, t, h⟩)

theorem of_finished (h : w ∈ s.finished) : Located s w g := .inr (.inr h)

theorem frame (h : Located s w g)
    (hqueue : w ∈ queueOf (s.groups g) → Located s' w g)
    (htask : ∀ t, taskIn (s.thrds t) = some (w, g) → Located s' w g)
    (hcalls : ∀ k t, s.calls k = .hand g t w → Located s' w g)
    (hfinished : s'.finished = s.finished)
    : Located s' w g := by
  rcases h with (h | ⟨t, h⟩) | ⟨k, t, h⟩ | h
  . apply hqueue h
  . apply htask t h
  . apply hcalls k t h
  . apply of_finished
    rw [hfinished]
    exact h

theorem queue_of_eq (hgroups : s'.groups = s.groups) (h : w ∈ queueOf (s.groups g)) : Located s' w g := by
  apply of_queue
  rw [hgroups]
  exact h

theorem queue_setGroup {g' : Nat} {tg tg' : TGroup} (hg : s.groups g' = some tg)
    (hgroups : s'.groups = update s.groups g' (some tg'))
    (hitems : tg.q.work.items ⊆ tg'.q.work.items) (h : w ∈ queueOf (s.groups g))
    : Located s' w g := by
  apply of_queue
  rw [hgroups, update_apply]
  split
  . next heq =>
    rw [heq, hg] at h
    exact hitems h
  . exact h

theorem queue_freeGroup {g' : Nat} {tg : TGroup} (hg : s.groups g' = some tg)
    (hnil : tg.q.work.items = []) (hgroups : s'.groups = update s.groups g' none)
    (h : w ∈ queueOf (s.groups g))
    : Located s' w g := by
  apply of_queue
  rw [hgroups, update_apply]
  split
  . next heq =>
    rw [heq, hg, queueOf, hnil] at h
    exact h
  . exact h

theorem task_of_eq (hthrds : ∀ t, taskIn (s'.thrds t) = taskIn (s.thrds t))
    (h : taskIn (s.thrds t) = some (w, g))
    : Located s' w g := by
  apply of_task (t := t)
  rw [hthrds]
  exact h

theorem task_of_none {i : Nat} {o : Option TThread} (hi : taskIn (s.thrds i) = none)
    (hthrds : s'.thrds = update s.thrds i o) (h : taskIn (s.thrds t) = some (w, g))
    : Located s' w g := by
  apply of_task (t := t)
  rw [hthrds, update_of_ne]
  . exact h
  . rintro rfl
    rw [hi] at h
    cases h

theorem hand_setCall {p : CallPc} {i : Nat} (hcalls : s'.calls = update s.calls k p)
    (hk : ∀ g t w, s.calls k ≠ .hand g t w) (h : s.calls i = .hand g t w)
    : Located s' w g := by
  apply of_hand (k := i) (t := t)
  rw [hcalls, update_of_ne]
  . exact h
  . rintro rfl
    exact absurd h (hk g t w)

theorem hand_of_eq (hcalls : s'.calls = s.calls) (h : s.calls k = .hand g t w) : Located s' w g := by
  apply of_hand (k := k) (t := t)
  rw [hcalls]
  exact h

theorem queue_fetch {g' w' : Nat} {tg tg' : TGroup} {tt : TThread} {rest : List Nat}
    (hg : s.groups g' = some tg) (hitems : tg.q.work.items = w' :: rest)
    (hgroups : s'.groups = update s.groups g' (some tg')) (hitems' : tg'.q.work.items = rest)
    (hthrds : s'.thrds = update s.thrds t (some tt)) (htask : tt.currTask = some w') (htg : tt.tg = g')
    (h : w ∈ queueOf (s.groups g))
    : Located s' w g := by
  by_cases hgg : g = g'
  . rw [hgg, hg, queueOf, hitems, List.mem_cons] at h
    rcases h with rfl | h
    . apply of_task (t := t)
      rw [hthrds, update_self, taskIn, htask, htg, hgg]
      rfl
    . apply of_queue
      rw [hgg, hgroups, update_self, queueOf, hitems']
      exact h
  . apply of_queue
    rw [hgroups, update_of_ne hgg]
    exact h

end Located

namespace AcceptedInv

variable {s s' : Sys} {k t : Nat}

theorem init (tp : TPool) : AcceptedInv (.init tp) := nofun

theorem frame (h : AcceptedInv s) (haccepted : s'.accepted = s.accepted)
    (hqueue : ∀ g w, w ∈ queueOf (s.groups g) → Located s' w g)
    (htask : ∀ g t w, taskIn (s.thrds t) = some (w, g) → Located s' w g)
    (hcalls : ∀ g k t w, s.calls k = .hand g t w → Located s' w g)
    (hfinished : s'.finished = s.finished)
    : AcceptedInv s' := by
  intro g w hw
  rw [haccepted] at hw
  exact (h g w hw).frame (hqueue g w) (fun t => htask g t w) (fun k t => hcalls g k t w) hfinished

theorem setCall {p : CallPc} (h : AcceptedInv s) (hcalls : s'.calls = update s.calls k p)
    (hk : ∀ g t w, s.calls k ≠ .hand g t w) (haccepted : s'.accepted = s.accepted)
    (hqueue : ∀ g w, w ∈ queueOf (s.groups g) → Located s' w g)
    (htask : ∀ g t w, taskIn (s.thrds t) = some (w, g) → Located s' w g)
    (hfinished : s'.finished = s.finished)
    : AcceptedInv s' :=
  h.frame haccepted hqueue htask (fun _ _ _ _ => Located.hand_setCall hcalls hk) hfinished

theorem accept {p : CallPc} {g w : Nat} (h : AcceptedInv s) (hcalls : s'.calls = update s.calls k p)
    (hk : ∀ g t w, s.calls k ≠ .hand g t w)
    (haccepted : s'.accepted = update s.accepted g (s.accepted g ++ [w])) (hw : Located s' w g)
    (hqueue : ∀ g w, w ∈ queueOf (s.groups g) → Located s' w g)
    (htask : ∀ g t w, taskIn (s.thrds t) = some (w, g) → Located s' w g)
    (hfinished : s'.finished = s.finished)
    : AcceptedInv s' := by
  have hold : ∀ i w, w ∈ s.accepted i → Located s' w i := by
    intro i w hi
    exact (h i w hi).frame (hqueue i w) (fun t => htask i t w)
      (fun _ _ => Located.hand_setCall hcalls hk) hfinished
  intro i w' hi
  rw [haccepted, update_apply] at hi
  split at hi
  . next heq =>
    subst heq
    rw [List.mem_append, List.mem_singleton] at hi
    rcases hi with hi | rfl
    . apply hold i w' hi
    . exact hw
  . apply hold i w' hi

theorem start {req : Req} (h : AcceptedInv s) (hf : Fresh s) (hs : StartStep s req s')
    : AcceptedInv s' := by
  have hk : ∀ g t w, s.calls s.nextCall ≠ .hand g t w := by
    rw [hf.nextCall_eq_returned]
    nofun
  cases hs <;>
    exact h.setCall rfl hk rfl (fun _ _ => .queue_of_eq rfl) (fun _ _ _ => .task_of_eq (fun _ => rfl))
      rfl

theorem taskIn_eq_none {tt : TThread} (htt : s.thrds t = some tt) (htask : tt.currTask = none)
    : taskIn (s.thrds t) = none := by
  rw [htt, taskIn, htask]
  rfl

theorem hand {g w : Nat} {tt : TThread} (h : AcceptedInv s) (hi : ThreadInv s)
    (hpc : s.calls k = .hand g t w) (htt : s.thrds t = some tt)
    : AcceptedInv ((s.setThrd t { tt with currTask := some w, state := .running }).setCall k
        (.done w .poolSuccess)) := by
  obtain ⟨tt', htt', htg, hidle⟩ := hi.hand k g t w hpc
  rw [htt] at htt'
  cases htt'
  have hnone := taskIn_eq_none htt ((hi.ok t tt htt).currTask_of_idle hidle)
  refine h.frame rfl (fun _ _ => .queue_of_eq rfl) (fun _ _ _ => .task_of_none hnone rfl) ?_ rfl
  intro g' k' t' w' hk'
  by_cases hkk : k' = k
  . subst hkk
    rw [hpc] at hk'
    cases hk'
    apply Located.of_task (t := t)
    simp [taskIn, htg]
  . apply Located.of_hand (k := k') (t := t')
    simpa [hkk] using hk'

theorem caller (h : AcceptedInv s) (hi : PoolInv s) (hs : CallStep s k s') : AcceptedInv s' := by
  have hnew : taskIn (s.thrds s.nextThrd) = none := by
    rw [hi.fresh.nextThrd_eq_none]
    rfl
  cases hs with
  | build min max flags hpc =>
    refine h.setCall rfl (by simp [hpc]) rfl ?_ (fun _ _ _ => .task_of_eq (fun _ => rfl)) rfl
    intro g w hw
    apply Located.of_queue
    simp only [Sys.setCall, Sys.setGroup, update_apply]
    split
    . next heq =>
      rw [heq, hi.fresh.nextGroup_eq_none] at hw
      cases hw
    . exact hw
  | spawn g n max tg hpc hg =>
    exact h.setCall rfl (by simp [hpc]) rfl (fun _ _ => .queue_setGroup hg rfl (fun _ => id))
      (fun _ _ _ => .task_of_none hnew rfl) rfl
  | endSpawn g max tg hpc hg | close g by_ tg hpc hg | endWake g ts by_ tg hpc hg
  | flag g gs before tg hpc hg =>
    exact h.setCall rfl (by simp [hpc]) rfl (fun _ _ => .queue_setGroup hg rfl (fun _ => id))
      (fun _ _ _ => .task_of_eq (fun _ => rfl)) rfl
  | wake g ts by_ tg t rest tt hpc hg hlen hitems htt =>
    exact h.frame rfl (fun _ _ => .queue_setGroup hg rfl (fun _ => id))
      (fun _ _ _ => .task_of_eq (taskIn_setThrd rfl htt rfl rfl)) (fun _ _ _ _ => .hand_of_eq rfl) rfl
  | endJoinPool g tg hpc hg | refund g tg hpc hg =>
    have hnil := hi.drain.queue_empty hi.owned (k := k) (by rw [hpc]; rfl) hg
    exact h.setCall rfl (by simp [hpc]) rfl (fun _ _ => .queue_freeGroup hg hnil rfl)
      (fun _ _ _ => .task_of_eq (fun _ => rfl)) rfl
  | queue g w tg pc hpc hg =>
    refine h.accept rfl (by simp [hpc]) rfl ?_ ?_ (fun _ _ _ => .task_of_eq (fun _ => rfl)) rfl
    . apply Located.of_queue
      simp [queueOf]
    . intro g' w' hw'
      exact .queue_setGroup hg rfl (List.subset_append_left _ _) hw'
  | reserve g w tg t rest hpc hg =>
    refine h.accept rfl (by simp [hpc]) rfl ?_ (fun _ _ => .queue_setGroup hg rfl (fun _ => id))
      (fun _ _ _ => .task_of_eq (fun _ => rfl)) rfl
    apply Located.of_hand (k := k) (t := t)
    simp
  | hand g t w tt hpc htt => exact h.hand hi.threads hpc htt
  | block before hpc | endWait before hpc =>
    refine h.setCall rfl ?_ rfl (fun _ _ => .queue_of_eq rfl) (fun _ _ _ => .task_of_eq (fun _ => rfl))
      rfl
    rcases hpc with hpc | ⟨hpc, _⟩ <;> simp [hpc]
  | _ =>
    refine h.setCall rfl ?_ rfl (fun _ _ => .queue_of_eq rfl) (fun _ _ _ => .task_of_eq (fun _ => rfl))
      rfl
    simp [*]

theorem worker (h : AcceptedInv s) (hi : ThreadInv s) (hs : WorkerStep s t s') : AcceptedInv s' := by
  cases hs with
  | topTask tt w htt | topNone tt htt | call tt w htt | inFunc tt w htt | hardKill tt tg htt
  | decr tt htt | block tt htt | awake tt htt =>
    exact h.frame rfl (fun _ _ => .queue_of_eq rfl)
      (fun _ _ _ => .task_of_eq (taskIn_setThrd rfl htt rfl rfl)) (fun _ _ _ _ => .hand_of_eq rfl) rfl
  | ret tt w htt hpc =>
    intro g w' hw'
    rcases h g w' hw' with (hq | ⟨i, htask⟩) | hhand | hfin
    . exact .of_queue hq
    . by_cases hit : i = t
      . subst hit
        apply Located.of_finished
        simp only [Sys.setThrd, List.mem_append, Option.mem_toList]
        right
        rw [htt, taskIn, Option.map_eq_some_iff] at htask
        obtain ⟨w'', hw'', heq⟩ := htask
        cases heq
        exact hw''
      . apply Located.of_task (t := i)
        simpa [hit] using htask
    . exact .inr (.inl hhand)
    . exact .of_finished (List.mem_append_left _ hfin)
  | fetch tt tg w rest htt hpc hg hlock hlen hitems =>
    have hok := hi.ok t tt htt
    rw [TThread.Ok, hpc] at hok
    exact h.frame rfl (fun _ _ => .queue_fetch hg hitems rfl rfl rfl rfl rfl)
      (fun _ _ _ => .task_of_none (taskIn_eq_none htt hok.2) rfl) (fun _ _ _ _ => .hand_of_eq rfl) rfl
  | softKill tt tg htt hpc =>
    have hok := hi.ok t tt htt
    rw [TThread.Ok, hpc] at hok
    exact h.frame rfl (fun _ _ => .queue_of_eq rfl)
      (fun _ _ _ => .task_of_none (taskIn_eq_none htt hok.2) rfl) (fun _ _ _ _ => .hand_of_eq rfl) rfl
  | goIdle tt tg wait htt hpc hg | leave tt tg htt hpc hg =>
    have hok := hi.ok t tt htt
    rw [TThread.Ok, hpc] at hok
    exact h.frame rfl (fun _ _ => .queue_setGroup hg rfl (fun _ => id))
      (fun _ _ _ => .task_of_none (taskIn_eq_none htt hok.2) rfl) (fun _ _ _ _ => .hand_of_eq rfl) rfl

theorem manager {m : Nat} (h : AcceptedInv s) (hf : Fresh s) (hs : ManagerStep s m s')
    : AcceptedInv s' := by
  have hnew : taskIn (s.thrds s.nextThrd) = none := by
    rw [hf.nextThrd_eq_none]
    rfl
  cases hs with
  | look g gs tg hpc hg | endSpawn g gs tg hpc hg =>
    exact h.frame rfl (fun _ _ => .queue_setGroup hg rfl (fun _ => id))
      (fun _ _ _ => .task_of_eq (fun _ => rfl)) (fun _ _ _ _ => .hand_of_eq rfl) rfl
  | spawnTask g n gs tg w rest hpc hg hlen hitems =>
    exact h.frame rfl (fun _ _ => .queue_fetch hg hitems rfl rfl rfl rfl rfl)
      (fun _ _ _ => .task_of_none hnew rfl) (fun _ _ _ _ => .hand_of_eq rfl) rfl
  | spawnNone g n gs tg hpc hg =>
    exact h.frame rfl (fun _ _ => .queue_setGroup hg rfl (fun _ => id))
      (fun _ _ _ => .task_of_none hnew rfl) (fun _ _ _ _ => .hand_of_eq rfl) rfl
  | _ =>
    exact h.frame rfl (fun _ _ => .queue_of_eq rfl) (fun _ _ _ => .task_of_eq (fun _ => rfl))
      (fun _ _ _ _ => .hand_of_eq rfl) rfl

theorem step {a : Action} (h : AcceptedInv s) (hi : PoolInv s) (hs : Step s a s') : AcceptedInv s' := by
  cases hs with
  | start req s' hs => apply h.start hi.fresh hs
  | caller k s' hs => apply h.caller hi hs
  | worker t s' hs => apply h.worker hi.threads hs
  | manager m timedOut s' hs => apply h.manager hi.fresh hs

end AcceptedInv

/--
The call has joined the threads of the group, and the group is not freed yet.
-/
def CallPc.emptied : CallPc → Option Nat
  | .join g [] _ | .refund g => some g
  | _ => none

theorem CallPc.unjoined_of_emptied {pc : CallPc} {g : Nat} (h : pc.emptied = some g)
    : pc.unjoined = some (g, []) := by
  unfold CallPc.emptied at h
  split at h <;> cases h <;> rfl

structure Shut (s : Sys) (g : Nat) (tg : TGroup) : Prop where
  works : ∀ w, w ∈ s.accepted g → w ∈ s.finished ∧ s.called w = 1
  queue : tg.q.work = .initList
  idle : tg.idleThrds = .initList
  active : tg.activeThrds = .initList
  thrds : ∀ t, t ∈ tg.thrds → s.thrds t = none
  exited : ∀ t tt, s.thrds t = some tt → tt.tg ≠ g

/--
A `do_work` that finds the group closed returns `POOL_ERROR` and changes nothing else.
-/
def Refuses (s : Sys) : Prop :=
  ∀ k g w tg s', s.calls k = .offer g w → s.groups g = some tg → tg.groupClose = true →
    s.step (.caller k) = some s' → s' = s.setCall k (.done w .poolError)

def StaysClosed (s s' : Sys) : Prop :=
  ∀ g tg tg', s.groups g = some tg → tg.groupClose = true → s'.groups g = some tg' →
    tg'.groupClose = true

section

variable {s s' : Sys} {k g : Nat}

theorem eq_initList {list : LL Nat} (hcoherent : list.Coherent) (hnil : list.items = [])
    : list = .initList := by
  rw [LL.Coherent, hnil, List.length_nil] at hcoherent
  rw [LL.mk.injEq]
  exact ⟨hnil, hcoherent⟩

theorem shut_of_emptied (h : GroupInv s) (ha : AcceptedInv s) (hk : (s.calls k).emptied = some g)
    : ∃ tg, s.groups g = some tg ∧ Shut s g tg := by
  have hunjoined := CallPc.unjoined_of_emptied hk
  have hsize := (h.owned.owned k g (DrainInv.unjoined_owned hunjoined)).1
  simp only [Sys.ledger, ne_eq, Option.map_eq_none_iff] at hsize
  obtain ⟨tg, hg⟩ := Option.ne_none_iff_exists'.mp hsize
  have hthrds : ∀ t, t ∈ tg.thrds → s.thrds t = none := by
    intro t ht
    exact (h.drain.unjoined k g [] tg t hunjoined hg ht).resolve_left (List.not_mem_nil)
  have hmembers : tg.members = [] := by
    rw [List.eq_nil_iff_forall_not_mem]
    intro t ht
    have hhome := (h.lists.members g tg t hg).mp ht
    rw [hthrds t (h.lists.named g tg t hg ht)] at hhome
    cases hhome
  have hexited : ∀ t tt, s.thrds t = some tt → tt.tg ≠ g := by
    rintro t tt ht rfl
    have hmem := (h.lists.members tt.tg tg t hg).mpr (by rw [ht, Option.map_some])
    rw [hmembers] at hmem
    cases hmem
  have hqueue := h.drain.queue_empty h.owned hunjoined hg
  have hlists := List.append_eq_nil_iff.mp hmembers
  refine ⟨tg, hg, ?_, eq_initList (h.drain.sound g tg hg).coherent hqueue,
    eq_initList (h.threads.coherent g tg hg).1 hlists.1,
    eq_initList (h.threads.coherent g tg hg).2 hlists.2, hthrds, hexited⟩
  intro w hw
  have hfinished : w ∈ s.finished := by
    rcases ha g w hw with (hq | ⟨t, ht⟩) | ⟨k', t, hhand⟩ | hfin
    . rw [hg, queueOf, hqueue] at hq
      cases hq
    . unfold taskIn at ht
      split at ht
      . cases ht
      . next tt htt =>
        obtain ⟨_, _, heq⟩ := Option.map_eq_some_iff.mp ht
        cases heq
        exact absurd rfl (hexited t tt htt)
    . obtain ⟨tt, htt, htg, _⟩ := h.threads.hand k' g t w hhand
      exact absurd htg (hexited t tt htt)
    . exact hfin
  exact ⟨hfinished, h.once.calledFinished w hfinished⟩

theorem refuses (s : Sys) : Refuses s := by
  intro k g w tg s' hpc hg hclose hs
  simp only [Sys.step, Sys.callStep, hpc, hg, Sys.doWorkSection, hclose, if_true] at hs
  split at hs
  . cases hs
    rfl
  . cases hs

theorem staysClosed_of_keeps (h : Keeps TGroup.groupClose s s') : StaysClosed s s' := by
  intro g tg tg' hg hclose hg'
  obtain ⟨tg₀, hg₀, heq⟩ := h g tg' hg'
  rw [hg] at hg₀
  cases hg₀
  rw [heq, hclose]

theorem staysClosed_setGroup {tg' : TGroup} (hgroups : s'.groups = update s.groups g (some tg'))
    (hclose : ∀ tg, s.groups g = some tg → tg.groupClose = true → tg'.groupClose = true)
    : StaysClosed s s' := by
  intro i tg tgi hi hclosei hi'
  rcases setGroup_cases hgroups hi' with ⟨rfl, rfl⟩ | ⟨_, hi'⟩
  . exact hclose tg hi hclosei
  . rw [hi] at hi'
    cases hi'
    exact hclosei

theorem staysClosed_of_step {a : Action} (hf : Fresh s) (hs : Step s a s') : StaysClosed s s' := by
  cases hs with
  | start req s' hs => cases hs <;> exact staysClosed_of_keeps (keeps_of_eq rfl)
  | caller k s' hs =>
    cases hs with
    | build min max flags hpc =>
      refine staysClosed_setGroup rfl ?_
      intro tg hg
      rw [hf.nextGroup_eq_none] at hg
      cases hg
    | close g by_ tg hpc hg => exact staysClosed_setGroup rfl (fun _ _ _ => rfl)
    | spawn g n max tg hpc hg | endSpawn g max tg hpc hg | endWake g ts by_ tg hpc hg
    | flag g gs before tg hpc hg | wake g ts by_ tg t rest tt hpc hg | queue g w tg pc hpc hg
    | reserve g w tg t rest hpc hg =>
      exact staysClosed_of_keeps (keeps_setGroup rfl hg rfl)
    | endJoinPool g tg hpc hg | refund g tg hpc hg => exact staysClosed_of_keeps (keeps_freeGroup rfl)
    | _ => exact staysClosed_of_keeps (keeps_of_eq rfl)
  | worker t s' hs =>
    cases hs with
    | fetch tt tg w rest htt hpc hg | goIdle tt tg wait htt hpc hg | leave tt tg htt hpc hg =>
      exact staysClosed_of_keeps (keeps_setGroup rfl hg rfl)
    | _ => exact staysClosed_of_keeps (keeps_of_eq rfl)
  | manager m timedOut s' hs =>
    cases hs with
    | look g gs tg hpc hg | endSpawn g gs tg hpc hg | spawnTask g n gs tg w rest hpc hg
    | spawnNone g n gs tg hpc hg =>
      exact staysClosed_of_keeps (keeps_setGroup rfl hg rfl)
    | _ => exact staysClosed_of_keeps (keeps_of_eq rfl)

end

theorem shutdown_of_run {maxThrds : Nat} {tp : TPool} {as : List Action} {s : Sys}
    (hinit : TPool.initPool maxThrds = some tp) (hrun : run (.init tp) as = some s)
    : (∀ k g, (s.calls k).emptied = some g → ∃ tg, s.groups g = some tg ∧ Shut s g tg) ∧
        Refuses s ∧ ∀ a s', s.step a = some s' → StaysClosed s s' := by
  have hinv : GroupInv s ∧ AcceptedInv s := by
    refine Lts.invariant_run (I := fun s => GroupInv s ∧ AcceptedInv s) ?_ ?_ hrun
    . intro s a s' ⟨h, ha⟩ hs
      have hs := step_of_step hs
      exact ⟨h.step hs, ha.step h.toPoolInv hs⟩
    . exact ⟨.init hinit, .init tp⟩
  refine ⟨?_, refuses s, ?_⟩
  . intro k g hk
    apply shut_of_emptied hinv.1 hinv.2 hk
  . intro a s' hs
    apply staysClosed_of_step hinv.1.fresh (step_of_step hs)

theorem shutdown_queued_work
    : ∃ tp s, TPool.initPool 4 = some tp ∧
        run (.init tp) (.call (.addGroup 1 1 0) :: List.replicate 5 (.caller 0) ++
          .call (.doWork 0 7) :: List.replicate 3 (.caller 1) ++
          .call (.destroyGroup 0) :: List.replicate 3 (.caller 2) ++
          List.replicate 7 (.worker 0) ++ [.caller 2, .caller 2]) = some s ∧
        s.calls 2 = .refund 0 ∧
        ((∀ k g, (s.calls k).emptied = some g → ∃ tg, s.groups g = some tg ∧ Shut s g tg) ∧
          Refuses s ∧ ∀ a s', s.step a = some s' → StaysClosed s s') ∧
        s.accepted 0 = [7] := by
  refine ⟨_, _, rfl, rfl, rfl, ?_, rfl⟩
  exact @shutdown_of_run 4 _ (.call (.addGroup 1 1 0) :: List.replicate 5 (.caller 0) ++
    .call (.doWork 0 7) :: List.replicate 3 (.caller 1) ++
    .call (.destroyGroup 0) :: List.replicate 3 (.caller 2) ++
    List.replicate 7 (.worker 0) ++ [.caller 2, .caller 2]) _ rfl rfl

end Pool
