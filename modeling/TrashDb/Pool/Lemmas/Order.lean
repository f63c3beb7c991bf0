import TrashDb.Pool.Lemmas.GroupLocks
import TrashDb.Pool.Lemmas.Lists
import TrashDb.Pool.Lemmas.Once

/-!
This module contains why the threads of a group get its works in the order in which `do_work` accepted
them. A thread joins the list of idle threads only when the queue is empty, and a work joins the queue
only when that list is empty. So a work that is handed to an idle thread has no work in front of it, and
a work in the queue waits for threads that are all active.
-/

namespace Pool

open Function

structure OrderInv (s : Sys) : Prop where
  idle : ∀ g tg, s.groups g = some tg → tg.idleThrds.items ≠ [] → tg.q.work.items = []
  order : ∀ g, s.accepted g = s.assigned g ++ queueOf (s.groups g)

namespace OrderInv

variable {s s' : Sys} {k g t : Nat}

theorem init (tp : TPool) : OrderInv (.init tp) := by
  constructor <;> simp [Sys.init, queueOf]

theorem frame (h : OrderInv s) (hgroups : s'.groups = s.groups) (haccepted : s'.accepted = s.accepted)
    (hassigned : s'.assigned = s.assigned)
    : OrderInv s' := by
  constructor
  . rw [hgroups]
    apply h.idle
  . rw [hgroups, haccepted, hassigned]
    apply h.order

theorem setGroup {tg' : TGroup} (h : OrderInv s)
    (hgroups : s'.groups = update s.groups g (some tg'))
    (hidle : tg'.idleThrds.items ≠ [] → tg'.q.work.items = [])
    (horder : s'.accepted g = s'.assigned g ++ tg'.q.work.items)
    (hothers : ∀ i, i ≠ g → s'.accepted i = s.accepted i ∧ s'.assigned i = s.assigned i)
    : OrderInv s' := by
  constructor
  . intro i tgi hi
    rcases setGroup_cases hgroups hi with ⟨rfl, rfl⟩ | ⟨_, hi⟩
    . exact hidle
    . apply h.idle i tgi hi
  . intro i
    rw [hgroups, update_apply]
    split
    . next heq =>
      rw [heq]
      exact horder
    . next hne =>
      rw [(hothers i hne).1, (hothers i hne).2]
      apply h.order i

theorem keep {tg tg' : TGroup} (h : OrderInv s) (hg : s.groups g = some tg)
    (hgroups : s'.groups = update s.groups g (some tg')) (hitems : tg'.q.work.items = tg.q.work.items)
    (hidle : tg'.idleThrds.items ≠ [] → tg.idleThrds.items ≠ [])
    (haccepted : s'.accepted = s.accepted) (hassigned : s'.assigned = s.assigned)
    : OrderInv s' := by
  refine h.setGroup hgroups ?_ ?_ ?_
  . intro hne
    rw [hitems]
    apply h.idle g tg hg (hidle hne)
  . have horder := h.order g
    rw [hg] at horder
    rw [haccepted, hassigned, hitems, horder, queueOf]
  . intro i _
    rw [haccepted, hassigned]
    exact ⟨rfl, rfl⟩

theorem free {tg : TGroup} (h : OrderInv s) (hg : s.groups g = some tg)
    (hnil : tg.q.work.items = []) (hgroups : s'.groups = update s.groups g none)
    (haccepted : s'.accepted = s.accepted) (hassigned : s'.assigned = s.assigned)
    : OrderInv s' := by
  constructor
  . intro i tgi hi
    rw [hgroups, update_apply] at hi
    split at hi
    . cases hi
    . apply h.idle i tgi hi
  . intro i
    rw [hgroups, haccepted, hassigned, update_apply, h.order i]
    split
    . next heq => rw [heq, hg, queueOf, queueOf, hnil]
    . rfl

theorem fetch {tg tg' : TGroup} {w : Nat} {rest : List Nat} (h : OrderInv s)
    (hg : s.groups g = some tg) (hitems : tg.q.work.items = w :: rest)
    (hgroups : s'.groups = update s.groups g (some tg')) (hitems' : tg'.q.work.items = rest)
    (hidle : tg'.idleThrds = tg.idleThrds) (haccepted : s'.accepted = s.accepted)
    (hassigned : s'.assigned = update s.assigned g (s.assigned g ++ [w]))
    : OrderInv s' := by
  refine h.setGroup hgroups ?_ ?_ ?_
  . intro hne
    rw [hidle] at hne
    have hnil := h.idle g tg hg hne
    rw [hitems] at hnil
    cases hnil
  . have horder := h.order g
    rw [hg, queueOf, hitems] at horder
    rw [haccepted, hassigned, update_self, hitems', horder, List.append_assoc, List.singleton_append]
  . intro i hi
    rw [haccepted, hassigned, update_of_ne hi]
    exact ⟨rfl, rfl⟩

theorem caller (h : OrderInv s) (hi : PoolInv s) (hs : CallStep s k s') : OrderInv s' := by
  cases hs with
  | build min max flags hpc =>
    refine h.setGroup rfl (fun _ => rfl) ?_ (fun _ _ => ⟨rfl, rfl⟩)
    have horder := h.order s.nextGroup
    rw [hi.fresh.nextGroup_eq_none] at horder
    exact horder
  | spawn g n max tg hpc hg => exact h.keep hg rfl rfl id rfl rfl
  | endSpawn g max tg hpc hg => exact h.keep hg rfl rfl id rfl rfl
  | close g by_ tg hpc hg => exact h.keep hg rfl rfl id rfl rfl
  | wake g ts by_ tg t rest tt hpc hg hlen hitems =>
    refine h.keep hg rfl rfl ?_ rfl rfl
    simp [hitems]
  | endWake g ts by_ tg hpc hg => exact h.keep hg rfl rfl id rfl rfl
  | endJoinPool g tg hpc hg =>
    exact h.free hg (hi.drain.queue_empty hi.owned (k := k) (by rw [hpc]; rfl) hg) rfl rfl rfl
  | refund g tg hpc hg =>
    exact h.free hg (hi.drain.queue_empty hi.owned (k := k) (by rw [hpc]; rfl) hg) rfl rfl rfl
  | queue g w tg pc hpc hg hlock hclose hidle =>
    have hnil : tg.idleThrds.items = [] := by
      rw [← List.length_eq_zero_iff, ← (hi.threads.coherent g tg hg).1]
      exact hidle
    refine h.setGroup rfl (fun hne => absurd hnil hne) ?_ ?_
    . have horder := h.order g
      rw [hg, queueOf] at horder
      simp only [Sys.setCall, Sys.accept, Sys.setGroup, update_self, LL.listAppend_items, horder,
        List.append_assoc]
    . intro i hne
      exact ⟨update_of_ne hne _ _, rfl⟩
  | reserve g w tg t rest hpc hg hlock hclose hlen hitems =>
    have hnil := h.idle g tg hg (by simp [hitems])
    refine h.setGroup rfl (fun _ => hnil) ?_ ?_
    . have horder := h.order g
      rw [hg, queueOf, hnil, List.append_nil] at horder
      simp only [Sys.setCall, Sys.assign, Sys.accept, Sys.setGroup, update_self, hnil, horder,
        List.append_nil]
    . intro i hne
      exact ⟨update_of_ne hne _ _, update_of_ne hne _ _⟩
  | flag g gs before tg hpc hg => exact h.keep hg rfl rfl id rfl rfl
  | _ => exact h.frame rfl rfl rfl

theorem worker (h : OrderInv s) (hi : PoolInv s) (hs : WorkerStep s t s') : OrderInv s' := by
  cases hs with
  | fetch tt tg w rest htt hpc hg hlock hlen hitems => exact h.fetch hg hitems rfl rfl rfl rfl rfl
  | goIdle tt tg wait htt hpc hg hlock hlen =>
    have hnil : tg.q.work.items = [] := by
      rw [← List.length_eq_zero_iff, ← (hi.drain.sound tt.tg tg hg).coherent]
      exact hlen
    refine h.setGroup rfl (fun _ => hnil) ?_ (fun _ _ => ⟨rfl, rfl⟩)
    have horder := h.order tt.tg
    rw [hg] at horder
    exact horder
  | leave tt tg htt hpc hg =>
    refine h.keep hg rfl rfl ?_ rfl rfl
    rintro hne hnil
    apply hne
    simp [hnil]
  | _ => exact h.frame rfl rfl rfl

theorem manager {m : Nat} (h : OrderInv s) (hs : ManagerStep s m s') : OrderInv s' := by
  cases hs with
  | look g gs tg hpc hg => exact h.keep hg rfl rfl id rfl rfl
  | spawnTask g n gs tg w rest hpc hg hlen hitems => exact h.fetch hg hitems rfl rfl rfl rfl rfl
  | spawnNone g n gs tg hpc hg => exact h.keep hg rfl rfl id rfl rfl
  | endSpawn g gs tg hpc hg => exact h.keep hg rfl rfl id rfl rfl
  | _ => exact h.frame rfl rfl rfl

theorem step {a : Action} (h : OrderInv s) (hi : PoolInv s) (hs : Step s a s') : OrderInv s' := by
  cases hs with
  | start req s' hs => cases hs <;> exact h.frame rfl rfl rfl
  | caller k s' hs => apply h.caller hi hs
  | worker t s' hs => apply h.worker hi hs
  | manager m timedOut s' hs => apply h.manager hs

end OrderInv

structure GroupInv (s : Sys) : Prop extends PoolInv s where
  groupLock : GroupLock s
  lists : ListInv s
  ordered : OrderInv s

namespace GroupInv

variable {s s' : Sys} {g : Nat} {tg : TGroup}

theorem init {maxThrds : Nat} {tp : TPool} (h : TPool.initPool maxThrds = some tp)
    : GroupInv (.init tp) :=
  ⟨PoolInv.init h, GroupLock.init tp, ListInv.init tp, OrderInv.init tp⟩

theorem step {a : Action} (h : GroupInv s) (hs : Step s a s') : GroupInv s' := by
  refine ⟨h.toPoolInv.step hs, ?_, ?_, ?_⟩
  . apply h.groupLock.step h.fresh hs
  . apply h.lists.step h.fresh h.threads hs
  . apply h.ordered.step h.toPoolInv hs

theorem of_run {maxThrds : Nat} {tp : TPool} {as : List Action} {s : Sys}
    (hinit : TPool.initPool maxThrds = some tp) (hrun : run (.init tp) as = some s)
    : GroupInv s := by
  refine Lts.invariant_run ?_ (GroupInv.init hinit) hrun
  intro s a s' h hs
  apply h.step (step_of_step hs)

theorem members_ne_nil (h : GroupInv s) (hg : s.groups g = some tg) (hlock : tg.mutexGrp = none)
    (hclose : tg.groupClose = false)
    : tg.members ≠ [] := by
  cases hthrds : tg.thrds with
  | nil =>
    obtain ⟨k, hk⟩ := h.drain.staffed g tg hg hthrds
    have hholds : s.holdsGroup (.call k) = some g := by
      unfold CallPc.spawning at hk
      split at hk
      . next hpc =>
        simp only [Sys.holdsGroup, hpc, CallPc.holdsGroup]
        exact hk
      . cases hk
    exact absurd hholds (h.groupLock.not_held hg hlock _)
  | cons t ts =>
    have hmem : t ∈ tg.thrds := by
      rw [hthrds]
      apply List.mem_cons_self
    cases htt : s.thrds t with
    | none =>
      have hdrained := h.drain.left g tg t hg hmem htt
      rw [(h.drain.sound g tg hg).close hdrained.1] at hclose
      cases hclose
    | some tt =>
      have htg := (h.drain.names g tg t hg hmem).2 tt htt
      apply List.ne_nil_of_mem (a := t)
      rw [h.lists.members g tg t hg, htt, Option.map_some, htg]

end GroupInv

structure TGroup.WorkConserving (tg : TGroup) : Prop where
  coherent : tg.q.work.Coherent ∧ tg.idleThrds.Coherent ∧ tg.activeThrds.Coherent
  idle : tg.q.work.items = [] ∨ tg.idleThrds.items = []
  active : tg.groupClose = false → tg.q.work.items ≠ [] → tg.activeThrds.items ≠ []

theorem workConserving_of_run {maxThrds : Nat} {tp : TPool} {as : List Action} {s : Sys}
    (hinit : TPool.initPool maxThrds = some tp) (hrun : run (.init tp) as = some s)
    : ∀ g tg, s.groups g = some tg → tg.mutexGrp = none → tg.WorkConserving := by
  intro g tg hg hlock
  have h := GroupInv.of_run hinit hrun
  have hidle : tg.q.work.items = [] ∨ tg.idleThrds.items = [] := by
    by_cases hnil : tg.idleThrds.items = []
    . exact .inr hnil
    . exact .inl (h.ordered.idle g tg hg hnil)
  refine ⟨⟨(h.drain.sound g tg hg).coherent, h.threads.coherent g tg hg⟩, hidle, ?_⟩
  intro hclose hqueue hactive
  have hmembers := h.members_ne_nil hg hlock hclose
  rw [TGroup.members, hidle.resolve_left hqueue, hactive] at hmembers
  exact hmembers rfl

theorem workConserving_busy_thread
    : ∃ tp s tg, TPool.initPool 4 = some tp ∧
        run (.init tp) (.call (.addGroup 1 1 0) :: List.replicate 5 (.caller 0) ++
          .call (.doWork 0 7) :: List.replicate 3 (.caller 1)) = some s ∧
        s.groups 0 = some tg ∧ tg.WorkConserving ∧ tg.q.work.items = [7] := by
  refine ⟨_, _, _, rfl, rfl, rfl, ?_, rfl⟩
  exact @workConserving_of_run 4 _ (.call (.addGroup 1 1 0) :: List.replicate 5 (.caller 0) ++
    .call (.doWork 0 7) :: List.replicate 3 (.caller 1)) _ rfl rfl 0 _ rfl rfl

/--
The works that have been assigned to threads are the first ones that were accepted, the others wait in
the queue.
-/
def InOrder (s : Sys) : Prop := ∀ g, s.accepted g = s.assigned g ++ queueOf (s.groups g)

def Extends (s s' : Sys) : Prop := ∀ g, s.accepted g <+: s'.accepted g ∧ s.assigned g <+: s'.assigned g

theorem prefix_update {f : Nat → List Nat} {g w : Nat} (i : Nat)
    : f i <+: update f g (f g ++ [w]) i := by
  rw [update_apply]
  split
  . next heq =>
    rw [heq]
    apply List.prefix_append
  . apply List.prefix_rfl

theorem extends_of_step {s s' : Sys} {a : Action} (hs : Step s a s') : Extends s s' := by
  intro i
  cases hs with
  | start req s' hs => cases hs <;> exact ⟨List.prefix_rfl, List.prefix_rfl⟩
  | caller k s' hs =>
    cases hs with
    | queue g w tg pc hpc hg => exact ⟨prefix_update i, List.prefix_rfl⟩
    | reserve g w tg t rest hpc hg => exact ⟨prefix_update i, prefix_update i⟩
    | _ => exact ⟨List.prefix_rfl, List.prefix_rfl⟩
  | worker t s' hs =>
    cases hs with
    | fetch tt tg w rest htt hpc hg => exact ⟨List.prefix_rfl, prefix_update i⟩
    | _ => exact ⟨List.prefix_rfl, List.prefix_rfl⟩
  | manager m timedOut s' hs =>
    cases hs with
    | spawnTask g n gs tg w rest hpc hg => exact ⟨List.prefix_rfl, prefix_update i⟩
    | _ => exact ⟨List.prefix_rfl, List.prefix_rfl⟩

theorem inOrder_of_run {maxThrds : Nat} {tp : TPool} {as : List Action} {s : Sys}
    (hinit : TPool.initPool maxThrds = some tp) (hrun : run (.init tp) as = some s)
    : InOrder s ∧ ∀ a s', s.step a = some s' → Extends s s' := by
  refine ⟨(GroupInv.of_run hinit hrun).ordered.order, ?_⟩
  intro a s' hs
  apply extends_of_step (step_of_step hs)

theorem inOrder_two_works
    : ∃ tp s, TPool.initPool 4 = some tp ∧
        run (.init tp) (.call (.addGroup 1 1 0) :: List.replicate 5 (.caller 0) ++
          .call (.doWork 0 7) :: List.replicate 3 (.caller 1) ++
          .call (.doWork 0 8) :: List.replicate 3 (.caller 2) ++ List.replicate 2 (.worker 0)) = some s ∧
        (InOrder s ∧ ∀ a s', s.step a = some s' → Extends s s') ∧
        s.accepted 0 = [7, 8] ∧ s.assigned 0 = [7] := by
  refine ⟨_, _, rfl, rfl, ?_, rfl, rfl⟩
  exact @inOrder_of_run 4 _ (.call (.addGroup 1 1 0) :: List.replicate 5 (.caller 0) ++
    .call (.doWork 0 7) :: List.replicate 3 (.caller 1) ++
    .call (.doWork 0 8) :: List.replicate 3 (.caller 2) ++ List.replicate 2 (.worker 0)) _ rfl rfl

end Pool
