import TrashDb.Pool.Lemmas.Once

/-!
This module contains what `wait_pool` waits for. A group whose queue is empty is not waited for, even
if its threads are still busy with works that were given to the pool before. So the condition is that
they are not. A group whose queue is not empty is waited for until its last active thread finds the
queue empty. The counter `groupsWaiting` is at least the number of groups that `wait_pool` has still
to look at, that have the flag `GROUP_WAIT`, or whose last thread has yet to count itself off.
-/

namespace Pool

open Function

def taskIn : Option TThread → Option (Nat × Nat)
  | none => none
  | some tt => tt.currTask.map fun w => (w, tt.tg)

/--
The work waits in the queue of the group or is the task of one of its threads.
-/
def InGroup (s : Sys) (w g : Nat) : Prop :=
  w ∈ queueOf (s.groups g) ∨ ∃ t, taskIn (s.thrds t) = some (w, g)

def CallPc.brings : CallPc → Option (Nat × Nat)
  | .offer g w | .hand g _ w => some (g, w)
  | _ => none

section

variable {s s' : Sys} {k g t w : Nat}

theorem InGroup.of_eq (h : InGroup s' w g)
    (hqueue : ∀ g, queueOf (s'.groups g) ⊆ queueOf (s.groups g))
    (htask : ∀ t, taskIn (s'.thrds t) = taskIn (s.thrds t))
    : InGroup s w g := by
  refine h.imp (fun hw => hqueue g hw) ?_
  simp only [htask]
  exact id

theorem queueOf_setGroup {tg tg' : TGroup} (hgroups : s'.groups = update s.groups g (some tg'))
    (hg : s.groups g = some tg) (hitems : tg'.q.work.items = tg.q.work.items)
    : ∀ i, queueOf (s'.groups i) ⊆ queueOf (s.groups i) := by
  intro i
  rw [hgroups, update_apply]
  split
  . next heq =>
    rw [heq, hg, queueOf, queueOf, hitems]
    apply List.Subset.refl
  . apply List.Subset.refl

theorem queueOf_freeGroup (hgroups : s'.groups = update s.groups g none)
    : ∀ i, queueOf (s'.groups i) ⊆ queueOf (s.groups i) := by
  intro i
  rw [hgroups, update_apply]
  split
  . apply List.nil_subset
  . apply List.Subset.refl

theorem taskIn_setThrd {tt tt' : TThread} (hthrds : s'.thrds = update s.thrds t (some tt'))
    (ht : s.thrds t = some tt) (htask : tt'.currTask = tt.currTask) (htg : tt'.tg = tt.tg)
    : ∀ i, taskIn (s'.thrds i) = taskIn (s.thrds i) := by
  intro i
  rw [hthrds, update_apply]
  split
  . next heq => rw [heq, ht, taskIn, taskIn, htask, htg]
  . rfl

theorem InGroup.of_lost {o : Option TThread} (h : InGroup s' w g)
    (hqueue : ∀ g, queueOf (s'.groups g) ⊆ queueOf (s.groups g))
    (hthrds : s'.thrds = update s.thrds t o) (ho : taskIn o = none)
    : InGroup s w g := by
  rcases h with h | ⟨i, hi⟩
  . exact .inl (hqueue g h)
  . rw [hthrds, update_apply] at hi
    split at hi
    . rw [ho] at hi
      cases hi
    . exact .inr ⟨i, hi⟩

theorem inGroup_caller (ht : ThreadInv s) (hf : Fresh s) (hs : CallStep s k s') (h : InGroup s' w g)
    : InGroup s w g ∨ (s.calls k).brings = some (g, w) := by
  cases hs with
  | build min max flags hpc =>
    refine .inl (h.of_eq ?_ (fun _ => rfl))
    intro i
    simp only [Sys.setCall, Sys.setGroup, update_apply]
    split
    . next heq =>
      rw [heq, hf.nextGroup_eq_none]
      apply List.Subset.refl
    . apply List.Subset.refl
  | spawn g' n max tg hpc hg =>
    exact .inl (h.of_lost (queueOf_setGroup rfl hg rfl) rfl rfl)
  | endSpawn g' max tg hpc hg =>
    exact .inl (h.of_eq (queueOf_setGroup rfl hg rfl) (fun _ => rfl))
  | close g' by_ tg hpc hg =>
    exact .inl (h.of_eq (queueOf_setGroup rfl hg rfl) (fun _ => rfl))
  | wake g' ts by_ tg t rest tt hpc hg hlen hitems htt =>
    exact .inl (h.of_eq (queueOf_setGroup rfl hg rfl) (taskIn_setThrd rfl htt rfl rfl))
  | endWake g' ts by_ tg hpc hg =>
    exact .inl (h.of_eq (queueOf_setGroup rfl hg rfl) (fun _ => rfl))
  | endJoinPool g' tg hpc hg =>
    exact .inl (h.of_eq (queueOf_freeGroup rfl) (fun _ => rfl))
  | refund g' tg hpc hg =>
    exact .inl (h.of_eq (queueOf_freeGroup rfl) (fun _ => rfl))
  | queue g' w' tg pc hpc hg =>
    rcases h with h | h
    . simp only [Sys.setCall, Sys.accept, Sys.setGroup, update_apply] at h
      split at h
      . next heq =>
        simp only [queueOf, LL.listAppend_items, List.mem_append, List.mem_singleton] at h
        rcases h with h | rfl
        . refine .inl (.inl ?_)
          rw [heq, hg]
          exact h
        . refine .inr ?_
          rw [hpc, heq]
          rfl
      . exact .inl (.inl h)
    . exact .inl (.inr h)
  | reserve g' w' tg t rest hpc hg =>
    exact .inl (h.of_eq (queueOf_setGroup rfl hg rfl) (fun _ => rfl))
  | hand g' t w' tt hpc htt =>
    obtain ⟨tt₀, htt₀, htg, _⟩ := ht.hand k g' t w' hpc
    rw [htt] at htt₀
    cases htt₀
    rcases h with h | ⟨i, hi⟩
    . exact .inl (.inl h)
    . simp only [Sys.setCall, Sys.setThrd, update_apply] at hi
      split at hi
      . cases hi
        refine .inr ?_
        rw [hpc, htg]
        rfl
      . exact .inl (.inr ⟨i, hi⟩)
  | flag g' gs before tg hpc hg =>
    exact .inl (h.of_eq (queueOf_setGroup rfl hg rfl) (fun _ => rfl))
  | _ => exact .inl h

theorem InGroup.of_fetch {g' w' : Nat} {rest : List Nat} {tg tg' : TGroup} {tt : TThread}
    (h : InGroup s' w g) (hgroups : s'.groups = update s.groups g' (some tg'))
    (hg : s.groups g' = some tg) (hitems : tg.q.work.items = w' :: rest)
    (hitems' : tg'.q.work.items = rest) (hthrds : s'.thrds = update s.thrds t (some tt))
    (htask : tt.currTask = some w') (htg : tt.tg = g')
    : InGroup s w g := by
  rcases h with h | ⟨i, hi⟩
  . rw [hgroups, update_apply] at h
    split at h
    . next heq =>
      refine .inl ?_
      rw [queueOf, hitems'] at h
      rw [heq, hg, queueOf, hitems]
      apply List.mem_cons_of_mem w' h
    . exact .inl h
  . rw [hthrds, update_apply] at hi
    split at hi
    . rw [taskIn, htask, htg] at hi
      cases hi
      refine .inl ?_
      rw [hg, queueOf, hitems]
      apply List.mem_cons_self
    . exact .inr ⟨i, hi⟩

theorem inGroup_worker (hs : WorkerStep s t s') (h : InGroup s' w g)
    : InGroup s w g := by
  cases hs with
  | fetch tt tg w' rest htt hpc hg hlock hlen hitems =>
    exact h.of_fetch rfl hg hitems rfl rfl rfl rfl
  | ret tt w' htt => exact h.of_lost (fun _ => List.Subset.refl _) rfl rfl
  | softKill tt tg htt => exact h.of_lost (fun _ => List.Subset.refl _) rfl rfl
  | goIdle tt tg wait htt hpc hg => exact h.of_lost (queueOf_setGroup rfl hg rfl) rfl rfl
  | leave tt tg htt hpc hg => exact h.of_lost (queueOf_setGroup rfl hg rfl) rfl rfl
  | topTask tt w' htt => exact h.of_eq (fun _ => List.Subset.refl _) (taskIn_setThrd rfl htt rfl rfl)
  | topNone tt htt => exact h.of_eq (fun _ => List.Subset.refl _) (taskIn_setThrd rfl htt rfl rfl)
  | call tt w' htt => exact h.of_eq (fun _ => List.Subset.refl _) (taskIn_setThrd rfl htt rfl rfl)
  | inFunc tt w' htt => exact h.of_eq (fun _ => List.Subset.refl _) (taskIn_setThrd rfl htt rfl rfl)
  | hardKill tt tg htt => exact h.of_eq (fun _ => List.Subset.refl _) (taskIn_setThrd rfl htt rfl rfl)
  | decr tt htt => exact h.of_eq (fun _ => List.Subset.refl _) (taskIn_setThrd rfl htt rfl rfl)
  | block tt htt => exact h.of_eq (fun _ => List.Subset.refl _) (taskIn_setThrd rfl htt rfl rfl)
  | awake tt htt => exact h.of_eq (fun _ => List.Subset.refl _) (taskIn_setThrd rfl htt rfl rfl)

theorem inGroup_manager {m : Nat} (hs : ManagerStep s m s') (h : InGroup s' w g)
    : InGroup s w g := by
  cases hs with
  | look g' gs tg hpc hg => exact h.of_eq (queueOf_setGroup rfl hg rfl) (fun _ => rfl)
  | spawnTask g' n gs tg w' rest hpc hg hlen hitems => exact h.of_fetch rfl hg hitems rfl rfl rfl rfl
  | spawnNone g' n gs tg hpc hg => exact h.of_lost (queueOf_setGroup rfl hg rfl) rfl rfl
  | endSpawn g' gs tg hpc hg => exact h.of_eq (queueOf_setGroup rfl hg rfl) (fun _ => rfl)
  | _ => exact h

end

def CallPc.destroys : CallPc → Bool
  | .unlink _ | .refund _ | .close _ _ | .wake _ _ _ | .join _ _ _ => true
  | .killManager | .readManager | .joinManager _ | .relock | .popGroups => true
  | _ => false

def NoDestroy : Action → Prop
  | .call (.destroyGroup _) | .call .destroyPool => False
  | _ => True

/--
Works are in groups that callers know, and these stay in the list of the pool.
-/
structure Published (s : Sys) : Prop where
  keeps : ∀ k, (s.calls k).destroys = false
  linked : ∀ g, g ∈ s.published → g ∈ s.pool.groups.items
  coherent : s.pool.groups.Coherent
  brings : ∀ k g w, (s.calls k).brings = some (g, w) → g ∈ s.published
  works : ∀ w g, InGroup s w g → g ∈ s.published

namespace Published

variable {s s' : Sys} {k : Nat}

theorem init {maxThrds : Nat} {tp : TPool} (h : TPool.initPool maxThrds = some tp)
    : Published (.init tp) := by
  unfold TPool.initPool at h
  split at h
  . cases h
  . cases h
    constructor <;> simp [Sys.init, InGroup, queueOf, taskIn, CallPc.destroys, CallPc.brings]

theorem setCall {p : CallPc} (h : Published s) (hcalls : s'.calls = update s.calls k p)
    (hin : ∀ w g, InGroup s' w g → InGroup s w g ∨ (s.calls k).brings = some (g, w))
    (hdestroys : p.destroys = false)
    (hbrings : ∀ g w, p.brings = some (g, w) → (s.calls k).brings = some (g, w))
    (hpublished : ∀ g, g ∈ s.published → g ∈ s'.published)
    (hlinked : ∀ g, g ∈ s'.published → g ∈ s'.pool.groups.items)
    (hcoherent : s'.pool.groups.Coherent)
    : Published s' := by
  constructor
  . intro i
    rw [hcalls, update_apply]
    split
    . exact hdestroys
    . apply h.keeps i
  . exact hlinked
  . exact hcoherent
  . intro i g w hi
    rw [hcalls, update_apply] at hi
    apply hpublished
    split at hi
    . apply h.brings k g w (hbrings g w hi)
    . apply h.brings i g w hi
  . intro w g hw
    apply hpublished
    rcases hin w g hw with hw | hk
    . apply h.works w g hw
    . apply h.brings k g w hk

theorem caller (h : Published s) (ht : ThreadInv s) (hf : Fresh s) (hs : CallStep s k s')
    : Published s' := by
  have hin : ∀ w g, InGroup s' w g → InGroup s w g ∨ (s.calls k).brings = some (g, w) :=
    fun w g => inGroup_caller ht hf hs
  have hkeeps := h.keeps k
  cases hs with
  | chargeFirst g max hpc =>
    refine h.setCall rfl hin rfl (by nofun) ?_ ?_ ?_
    . exact fun _ hg => List.mem_cons_of_mem g hg
    . intro i hi
      simp only [Sys.setCall, Sys.setManager, Sys.setPool, TPool.addGroupCharge_groups,
        LL.listAppend_items, List.mem_append, List.mem_singleton]
      simp only [Sys.setCall, Sys.setManager, List.mem_cons] at hi
      exact hi.symm.imp_left (h.linked i)
    . simp only [Sys.setCall, Sys.setManager, Sys.setPool, TPool.addGroupCharge_groups]
      apply h.coherent.listAppend
  | charge g max hpc =>
    refine h.setCall rfl hin rfl (by nofun) ?_ ?_ ?_
    . exact fun _ hg => List.mem_cons_of_mem g hg
    . intro i hi
      simp only [Sys.setCall, Sys.setPool, TPool.addGroupCharge_groups,
        LL.listAppend_items, List.mem_append, List.mem_singleton]
      simp only [Sys.setCall, List.mem_cons] at hi
      exact hi.symm.imp_left (h.linked i)
    . simp only [Sys.setCall, Sys.setPool, TPool.addGroupCharge_groups]
      apply h.coherent.listAppend
  | queue g w tg pc hpc hg hlock hclose hidle hfull hnext =>
    refine h.setCall rfl hin ?_ ?_ (fun _ => id) h.linked h.coherent
    . rcases hnext with rfl | rfl <;> rfl
    . rcases hnext with rfl | rfl <;> nofun
  | full g w tg pc hpc hg hlock hclose hidle hfull hnext =>
    refine h.setCall rfl hin ?_ ?_ (fun _ => id) h.linked h.coherent
    . rcases hnext with rfl | rfl <;> rfl
    . rcases hnext with rfl | rfl <;> nofun
  | reserve g w tg t rest hpc =>
    refine h.setCall rfl hin rfl ?_ (fun _ => id) h.linked h.coherent
    rw [hpc]
    exact fun _ _ => id
  | unlink g hpc => simp [hpc, CallPc.destroys] at hkeeps
  | close g by_ tg hpc => simp [hpc, CallPc.destroys] at hkeeps
  | wake g ts by_ tg t rest tt hpc => simp [hpc, CallPc.destroys] at hkeeps
  | endWake g ts by_ tg hpc => simp [hpc, CallPc.destroys] at hkeeps
  | join g t ts by_ hpc => simp [hpc, CallPc.destroys] at hkeeps
  | endJoinGroup g hpc => simp [hpc, CallPc.destroys] at hkeeps
  | endJoinPool g tg hpc => simp [hpc, CallPc.destroys] at hkeeps
  | refund g tg hpc => simp [hpc, CallPc.destroys] at hkeeps
  | killDead hpc => simp [hpc, CallPc.destroys] at hkeeps
  | kill hpc => simp [hpc, CallPc.destroys] at hkeeps
  | readManager m hpc => simp [hpc, CallPc.destroys] at hkeeps
  | joinManager m hpc => simp [hpc, CallPc.destroys] at hkeeps
  | relock hpc => simp [hpc, CallPc.destroys] at hkeeps
  | popGroup g rest hpc => simp [hpc, CallPc.destroys] at hkeeps
  | freePool hpc => simp [hpc, CallPc.destroys] at hkeeps
  | _ => exact h.setCall rfl hin rfl (by nofun) (fun _ => id) h.linked h.coherent

theorem start {req : Req} (h : Published s) (hreq : NoDestroy (.call req)) (hs : StartStep s req s')
    : Published s' := by
  cases hs with
  | destroyGroup => cases hreq
  | destroyPool => cases hreq
  | doWork g w hg =>
    refine ⟨?_, h.linked, h.coherent, ?_, h.works⟩
    . intro i
      simp only [Sys.startCall, Sys.setCall, update_apply]
      split
      . rfl
      . apply h.keeps i
    . intro i g' w' hi
      simp only [Sys.startCall, Sys.setCall, update_apply] at hi
      split at hi
      . cases hi
        exact hg
      . apply h.brings i g' w' hi
  | addGroup =>
    exact h.setCall rfl (fun _ _ => .inl) rfl (by nofun) (fun _ => id) h.linked h.coherent
  | waitPool =>
    exact h.setCall rfl (fun _ _ => .inl) rfl (by nofun) (fun _ => id) h.linked h.coherent

theorem frame (h : Published s) (hin : ∀ w g, InGroup s' w g → InGroup s w g)
    (hcalls : s'.calls = s.calls) (hpublished : s'.published = s.published)
    (hgroups : s'.pool.groups = s.pool.groups)
    : Published s' := by
  constructor
  . rw [hcalls]
    apply h.keeps
  . rw [hpublished, hgroups]
    apply h.linked
  . rw [hgroups]
    apply h.coherent
  . rw [hcalls, hpublished]
    apply h.brings
  . intro w g hw
    rw [hpublished]
    apply h.works w g (hin w g hw)

theorem step {a : Action} (h : Published s) (ht : ThreadInv s) (hf : Fresh s) (ha : NoDestroy a)
    (hs : Step s a s')
    : Published s' := by
  cases hs with
  | start req s' hs => apply h.start ha hs
  | caller k s' hs => apply h.caller ht hf hs
  | worker t s' hs =>
    have hin : ∀ w g, InGroup s' w g → InGroup s w g := fun w g => inGroup_worker hs
    cases hs <;> exact h.frame hin rfl rfl rfl
  | manager m timedOut s' hs =>
    have hin : ∀ w g, InGroup s' w g → InGroup s w g := fun w g => inGroup_manager hs
    cases hs <;> exact h.frame hin rfl rfl rfl

end Published

def flagOf : Option TGroup → Bool
  | none => false
  | some tg => tg.groupWait

/--
The thread has cleared the flag of its group and is about to decrement `groupsWaiting`.
-/
def settles : Option TThread → Bool
  | none => false
  | some tt => tt.pc == .decr

theorem flagOf_setGroup {s s' : Sys} {g : Nat} {tg tg' : TGroup} (hg : s.groups g = some tg)
    (hgroups : s'.groups = update s.groups g (some tg')) (hflag : tg'.groupWait = tg.groupWait) (i : Nat)
    : flagOf (s'.groups i) = flagOf (s.groups i) := by
  rw [hgroups, update_apply]
  split
  . next heq => rw [heq, hg, flagOf, flagOf, hflag]
  . rfl

theorem settles_eq_true {o : Option TThread} : settles o = true ↔ ∃ tt, o = some tt ∧ tt.pc = .decr := by
  cases o <;> simp [settles]

def CallPc.waits : CallPc → Bool
  | .waitStart _ | .waitLook _ _ | .waitBlock _ | .waitDone _ => true
  | _ => false

def CallPc.before : CallPc → Option (List Nat)
  | .waitStart before | .waitLook _ before | .waitBlock before | .waitDone before => some before
  | _ => none

def CallPc.remaining : CallPc → Option (List Nat × List Nat)
  | .waitLook gs before => some (gs, before)
  | .waitBlock before => some ([], before)
  | _ => none

def OneWait (s : Sys) : Action → Prop
  | .call .waitPool => ∀ k < s.nextCall, (s.calls k).waits = false
  | _ => True

def CallPc.looks : CallPc → Option (Nat × List Nat)
  | .waitLook (g :: _) before => some (g, before)
  | _ => none

/--
No thread of the group that is in its list of active threads has one of the works as its task.
-/
def NotBusy (s : Sys) (tg : TGroup) (works : List Nat) : Prop :=
  ∀ t ∈ tg.activeThrds.items, ∀ tt ∈ s.thrds t, ∀ w ∈ tt.currTask, w ∉ works

/--
If `wait_pool` finds the queue of a group empty then the group is not busy with one of the works.
-/
def QuietSkip (s : Sys) : Action → Prop
  | .caller k => ∀ look ∈ (s.calls k).looks, ∀ tg ∈ s.groups look.1, tg.q.qEmpty = true →
    NotBusy s tg look.2
  | _ => True

instance : (a : Action) → Decidable (NoDestroy a)
  | .call (.destroyGroup _) | .call .destroyPool => isFalse id
  | .call (.addGroup _ _ _) | .call (.doWork _ _) | .call .waitPool => isTrue trivial
  | .caller _ | .worker _ | .manager _ _ => isTrue trivial

instance (s : Sys) : (a : Action) → Decidable (OneWait s a)
  | .call .waitPool => inferInstanceAs (Decidable (∀ k < s.nextCall, _))
  | .call (.addGroup _ _ _) | .call (.doWork _ _) | .call (.destroyGroup _) => isTrue trivial
  | .call .destroyPool | .caller _ | .worker _ | .manager _ _ => isTrue trivial

instance (s : Sys) (tg : TGroup) (works : List Nat) : Decidable (NotBusy s tg works) :=
  inferInstanceAs (Decidable (∀ t ∈ tg.activeThrds.items, ∀ tt ∈ s.thrds t, ∀ w ∈ tt.currTask, _))

instance (s : Sys) : (a : Action) → Decidable (QuietSkip s a)
  | .caller k =>
    inferInstanceAs (Decidable (∀ look ∈ (s.calls k).looks, ∀ tg ∈ s.groups look.1, _ → _))
  | .call _ | .worker _ | .manager _ _ => isTrue trivial

def Counted (s : Sys) (n : Nat) : Prop :=
  ∃ gs ts : List Nat, (∀ g, flagOf (s.groups g) = true → g ∈ gs) ∧ (∀ t, settles (s.thrds t) = true → t ∈ ts) ∧
    ((n + gs.length + ts.length : Nat) : Int) ≤ s.pool.groupsWaiting

structure WaitInv (s : Sys) : Prop where
  one : ∀ k k', (s.calls k).waits = true → (s.calls k').waits = true → k = k'
  before : ∀ k before w, (s.calls k).before = some before → w ∈ before → w ∈ s.returned
  quiet : (∀ k, (s.calls k).remaining = none) →
    (∀ g, flagOf (s.groups g) = false) ∧ ∀ t, settles (s.thrds t) = false
  counted : ∀ k gs before, (s.calls k).remaining = some (gs, before) → Counted s gs.length
  covered : ∀ k gs before w g, (s.calls k).remaining = some (gs, before) → w ∈ before →
    InGroup s w g → g ∈ gs ∨ flagOf (s.groups g) = true
  done : ∀ k before w, s.calls k = .waitDone before → w ∈ before → w ∈ s.finished

namespace WaitInv

variable {s s' : Sys} {k g t : Nat}

theorem init (tp : TPool) : WaitInv (.init tp) := by
  constructor <;>
    simp [Sys.init, CallPc.waits, CallPc.before, CallPc.remaining, flagOf, settles]

theorem remaining_of_not_waits {pc : CallPc} (h : pc.waits = false) : pc.remaining = none := by
  cases pc with
  | waitLook gs before => cases h
  | waitBlock before => cases h
  | _ => rfl

theorem before_of_not_waits {pc : CallPc} (h : pc.waits = false) : pc.before = none := by
  cases pc with
  | waitStart before => cases h
  | waitLook gs before => cases h
  | waitBlock before => cases h
  | waitDone before => cases h
  | _ => rfl

theorem frame (h : WaitInv s)
    (hcalls : ∀ i, s'.calls i = s.calls i ∨
      ((s'.calls i).waits = false ∧ (s.calls i).waits = false))
    (hflag : ∀ g, flagOf (s'.groups g) = flagOf (s.groups g))
    (hcounts : ∀ t, settles (s'.thrds t) = true → settles (s.thrds t) = true)
    (hcounter : s'.pool.groupsWaiting = s.pool.groupsWaiting)
    (hin : ∀ w g, w ∈ s.returned → InGroup s' w g → InGroup s w g)
    (hreturned : ∀ w, w ∈ s.returned → w ∈ s'.returned)
    (hfinished : ∀ w, w ∈ s.finished → w ∈ s'.finished)
    : WaitInv s' := by
  have hwaits : ∀ i, (s'.calls i).waits = true → s'.calls i = s.calls i := by
    intro i hi
    rcases hcalls i with heq | ⟨hfalse, _⟩
    . exact heq
    . rw [hi] at hfalse
      cases hfalse
  have hremaining : ∀ i, (s'.calls i).remaining = (s.calls i).remaining := by
    intro i
    rcases hcalls i with heq | ⟨h', h⟩
    . rw [heq]
    . rw [remaining_of_not_waits h, remaining_of_not_waits h']
  constructor
  . intro i i' hi hi'
    apply h.one i i'
    . rw [← hwaits i hi]
      exact hi
    . rw [← hwaits i' hi']
      exact hi'
  . intro i before w hi hw
    apply hreturned
    rcases hcalls i with heq | ⟨h', _⟩
    . rw [heq] at hi
      apply h.before i before w hi hw
    . rw [before_of_not_waits h'] at hi
      cases hi
  . intro hnone
    have hquiet := h.quiet fun i => hremaining i ▸ hnone i
    refine ⟨fun g => (hflag g).trans (hquiet.1 g), fun t => Bool.eq_false_iff.mpr fun ht => ?_⟩
    exact Bool.eq_false_iff.mp (hquiet.2 t) (hcounts t ht)
  . intro i gs before hi
    rw [hremaining] at hi
    obtain ⟨fs, ts, hfs, hts, hle⟩ := h.counted i gs before hi
    refine ⟨fs, ts, ?_, fun t ht => hts t (hcounts t ht), ?_⟩
    . intro g hg
      rw [hflag] at hg
      apply hfs g hg
    . rw [hcounter]
      exact hle
  . intro i gs before w g hi hw hg
    rw [hremaining] at hi
    rw [hflag]
    have hmem : w ∈ s.returned := by
      apply h.before i before w _ hw
      cases hpc : s.calls i with
      | waitLook gs before =>
        rw [hpc] at hi
        cases hi
        rfl
      | waitBlock before =>
        rw [hpc] at hi
        cases hi
        rfl
      | _ =>
        rw [hpc] at hi
        cases hi
    apply h.covered i gs before w g hi hw (hin w g hmem hg)
  . intro i before w hi hw
    apply hfinished
    have heq := hwaits i (by rw [hi]; rfl)
    rw [heq] at hi
    apply h.done i before w hi hw

theorem frame_setCall {p : CallPc} (h : WaitInv s) (hcalls : s'.calls = update s.calls k p)
    (hp : p.waits = false) (hk : (s.calls k).waits = false)
    (hflag : ∀ g, flagOf (s'.groups g) = flagOf (s.groups g))
    (hcounts : ∀ t, settles (s'.thrds t) = true → settles (s.thrds t) = true)
    (hcounter : s'.pool.groupsWaiting = s.pool.groupsWaiting)
    (hin : ∀ w g, w ∈ s.returned → InGroup s' w g → InGroup s w g)
    (hreturned : ∀ w, w ∈ s.returned → w ∈ s'.returned) (hfinished : s'.finished = s.finished)
    : WaitInv s' := by
  refine h.frame ?_ hflag hcounts hcounter hin hreturned ?_
  . intro i
    rw [hcalls, update_apply]
    split
    . next heq =>
      rw [heq]
      exact .inr ⟨hp, hk⟩
    . exact .inl rfl
  . rw [hfinished]
    exact fun _ => id

theorem settles_setThrd {o : Option TThread} (hthrds : s'.thrds = update s.thrds t o)
    (hpc : ∀ tt, o = some tt → tt.pc = .decr → settles (s.thrds t) = true)
    : ∀ i, settles (s'.thrds i) = true → settles (s.thrds i) = true := by
  intro i hsettles
  obtain ⟨tt, hi, hdecr⟩ := settles_eq_true.mp hsettles
  rcases setThrd_cases hthrds hi with ⟨rfl, ho⟩ | ⟨_, hi⟩
  . apply hpc tt ho hdecr
  . exact settles_eq_true.mpr ⟨tt, hi, hdecr⟩

theorem setWait {p : CallPc} (hothers : ∀ i, i ≠ k → (s.calls i).waits = false)
    (hcalls : s'.calls = update s.calls k p)
    (hbefore : ∀ before w, p.before = some before → w ∈ before → w ∈ s'.returned)
    (hquiet : p.remaining = none → (∀ g, flagOf (s'.groups g) = false) ∧ ∀ t, settles (s'.thrds t) = false)
    (hcounted : ∀ gs before, p.remaining = some (gs, before) → Counted s' gs.length)
    (hcovered : ∀ gs before w g, p.remaining = some (gs, before) → w ∈ before → InGroup s' w g →
      g ∈ gs ∨ flagOf (s'.groups g) = true)
    (hdone : ∀ before w, p = .waitDone before → w ∈ before → w ∈ s'.finished)
    : WaitInv s' := by
  have hnew : ∀ i, i ≠ k → (s'.calls i).waits = false := by
    intro i hi
    rw [hcalls, update_of_ne hi]
    apply hothers i hi
  have hself : s'.calls k = p := by rw [hcalls, update_self]
  have heq : ∀ i, (s'.calls i).waits = true → i = k := by
    intro i hi
    by_contra hne
    rw [hnew i hne] at hi
    cases hi
  constructor
  . intro i i' hi hi'
    rw [heq i hi, heq i' hi']
  . intro i before w hi hw
    by_cases hik : i = k
    . rw [hik, hself] at hi
      apply hbefore before w hi hw
    . rw [before_of_not_waits (hnew i hik)] at hi
      cases hi
  . intro hnone
    apply hquiet
    rw [← hself]
    apply hnone k
  . intro i gs before hi
    by_cases hik : i = k
    . rw [hik, hself] at hi
      apply hcounted gs before hi
    . rw [remaining_of_not_waits (hnew i hik)] at hi
      cases hi
  . intro i gs before w g hi hw hg
    by_cases hik : i = k
    . rw [hik, hself] at hi
      apply hcovered gs before w g hi hw hg
    . rw [remaining_of_not_waits (hnew i hik)] at hi
      cases hi
  . intro i before w hi hw
    have hik := heq i (by rw [hi]; rfl)
    rw [hik, hself] at hi
    apply hdone before w hi hw

theorem others (h : WaitInv s) (hk : (s.calls k).waits = true)
    : ∀ i, i ≠ k → (s.calls i).waits = false := by
  intro i hi
  by_contra hne
  apply hi (h.one i k (by simpa using hne) hk)

theorem quiet_of_remaining (h : WaitInv s) (hk : (s.calls k).waits = true)
    (hnone : (s.calls k).remaining = none)
    : (∀ g, flagOf (s.groups g) = false) ∧ ∀ t, settles (s.thrds t) = false := by
  apply h.quiet
  intro i
  by_cases hik : i = k
  . rw [hik]
    exact hnone
  . apply remaining_of_not_waits (h.others hk i hik)

theorem waitStart {before : List Nat} (h : WaitInv s) (hp : Published s)
    (hpc : s.calls k = .waitStart before)
    : WaitInv
        ((s.setPool
          {
            s.pool with
            mutexPool := some (.call k)
            groupsWaiting := s.pool.groups.len
          }).setCall k (.waitLook s.pool.groups.items before)) := by
  have hwaits : (s.calls k).waits = true := by
    rw [hpc]
    rfl
  have hquiet := h.quiet_of_remaining hwaits (by rw [hpc]; rfl)
  refine setWait (h.others hwaits) rfl ?_ (by nofun) ?_ ?_ (by nofun)
  . rintro _ w ⟨⟩ hw
    apply h.before k before w (by rw [hpc]; rfl) hw
  . rintro gs _ ⟨⟩
    refine ⟨[], [], ?_, ?_, ?_⟩
    . intro g hg
      have hfalse : flagOf (s.groups g) = true := hg
      rw [hquiet.1 g] at hfalse
      cases hfalse
    . intro t ht
      exact absurd ht (Bool.eq_false_iff.mp (hquiet.2 t))
    . have hlen : s.pool.groups.len = s.pool.groups.items.length := hp.coherent
      show ((s.pool.groups.items.length + 0 + 0 : Nat) : Int) ≤ (s.pool.groups.len : Int)
      omega
  . rintro gs _ w g ⟨⟩ hw hg
    exact .inl (hp.linked g (hp.works w g hg))

theorem not_inGroup {tg : TGroup} {works : List Nat} {w : Nat} (ht : ThreadInv s) (hd : DrainInv s)
    (hg : s.groups g = some tg) (hlen : tg.q.work.len = 0) (hbusy : NotBusy s tg works)
    (hw : w ∈ works)
    : ¬ InGroup s w g := by
  rintro (hqueue | ⟨t, htask⟩)
  . rw [hg, queueOf] at hqueue
    have hcoherent : tg.q.work.len = tg.q.work.items.length := (hd.sound g tg hg).coherent
    rw [hlen] at hcoherent
    rw [List.length_eq_zero_iff.mp hcoherent.symm] at hqueue
    cases hqueue
  . cases htt : s.thrds t with
    | none =>
      rw [htt] at htask
      cases htask
    | some tt =>
      rw [htt, taskIn, Option.map_eq_some_iff] at htask
      obtain ⟨w', hw', heq⟩ := htask
      cases heq
      have hrun := (ht.ok t tt htt).running_of_currTask hw'
      have hactive := ht.active t tt tg htt hrun hg
      apply hbusy t hactive tt htt w hw' hw

theorem skip {gs before : List Nat} {tg : TGroup} (h : WaitInv s) (ht : ThreadInv s)
    (hd : DrainInv s) (hpc : s.calls k = .waitLook (g :: gs) before) (hg : s.groups g = some tg)
    (hlen : tg.q.work.len = 0) (hbusy : NotBusy s tg before)
    : WaitInv
        ((s.setPool { s.pool with groupsWaiting := s.pool.groupsWaiting - 1 }).setCall k
          (.waitLook gs before)) := by
  have hwaits : (s.calls k).waits = true := by
    rw [hpc]
    rfl
  have hremaining : (s.calls k).remaining = some (g :: gs, before) := by
    rw [hpc]
    rfl
  refine setWait (h.others hwaits) rfl ?_ (by nofun) ?_ ?_ (by nofun)
  . rintro _ w ⟨⟩ hw
    apply h.before k before w (by rw [hpc]; rfl) hw
  . rintro gs' _ ⟨⟩
    obtain ⟨fs, ts, hfs, hts, hle⟩ := h.counted k (g :: gs) before hremaining
    refine ⟨fs, ts, hfs, hts, ?_⟩
    simp only [List.length_cons] at hle
    show ((gs.length + fs.length + ts.length : Nat) : Int) ≤ s.pool.groupsWaiting - 1
    omega
  . rintro gs' _ w i ⟨⟩ hw hi
    have hin : InGroup s w i := hi
    rcases h.covered k (g :: gs) before w i hremaining hw hin with hmem | hflag
    . rw [List.mem_cons] at hmem
      rcases hmem with rfl | hmem
      . exact absurd hin (not_inGroup ht hd hg hlen hbusy hw)
      . exact .inl hmem
    . exact .inr hflag

theorem flag {gs before : List Nat} {tg : TGroup} (h : WaitInv s)
    (hpc : s.calls k = .waitLook (g :: gs) before) (hg : s.groups g = some tg)
    : WaitInv ((s.setGroup g { tg with groupWait := true }).setCall k (.waitLook gs before)) := by
  have hwaits : (s.calls k).waits = true := by
    rw [hpc]
    rfl
  have hremaining : (s.calls k).remaining = some (g :: gs, before) := by
    rw [hpc]
    rfl
  refine setWait (h.others hwaits) rfl ?_ (by nofun) ?_ ?_ (by nofun)
  . rintro _ w ⟨⟩ hw
    apply h.before k before w (by rw [hpc]; rfl) hw
  . rintro gs' _ ⟨⟩
    obtain ⟨fs, ts, hfs, hts, hle⟩ := h.counted k (g :: gs) before hremaining
    refine ⟨g :: fs, ts, ?_, hts, ?_⟩
    . intro i hi
      rw [List.mem_cons]
      by_cases hig : i = g
      . exact .inl hig
      . simp only [Sys.setCall, Sys.setGroup, update_of_ne hig] at hi
        exact .inr (hfs i hi)
    . simp only [List.length_cons] at hle ⊢
      show ((gs.length + (fs.length + 1) + ts.length : Nat) : Int) ≤ s.pool.groupsWaiting
      omega
  . rintro gs' _ w i ⟨⟩ hw hi
    simp only [Sys.setCall, Sys.setGroup]
    by_cases hig : i = g
    . rw [hig, update_self]
      exact .inr rfl
    . rw [update_of_ne hig]
      have hin : InGroup s w i := hi.of_eq (queueOf_setGroup rfl hg rfl) (fun _ => rfl)
      rcases h.covered k (g :: gs) before w i hremaining hw hin with hmem | hflag
      . rw [List.mem_cons] at hmem
        exact .inl (hmem.resolve_left hig)
      . exact .inr hflag

theorem remaining_of_block {before : List Nat}
    (hpc : s.calls k = .waitLook [] before ∨ (s.calls k = .waitBlock before ∧ s.pool.mutexPool = none))
    : (s.calls k).waits = true ∧ (s.calls k).before = some before ∧
        (s.calls k).remaining = some ([], before) := by
  rcases hpc with hpc | ⟨hpc, _⟩ <;> rw [hpc] <;> exact ⟨rfl, rfl, rfl⟩

theorem block {before : List Nat} {tp : TPool} (h : WaitInv s)
    (hpc : s.calls k = .waitLook [] before ∨ (s.calls k = .waitBlock before ∧ s.pool.mutexPool = none))
    (hcounter : tp.groupsWaiting = s.pool.groupsWaiting)
    : WaitInv ((s.setPool tp).setCall k (.waitBlock before)) := by
  obtain ⟨hwaits, hbefore, hremaining⟩ := remaining_of_block hpc
  refine setWait (h.others hwaits) rfl ?_ (by nofun) ?_ ?_ (by nofun)
  . rintro _ w ⟨⟩ hw
    apply h.before k before w hbefore hw
  . rintro gs' _ ⟨⟩
    obtain ⟨fs, ts, hfs, hts, hle⟩ := h.counted k [] before hremaining
    refine ⟨fs, ts, hfs, hts, ?_⟩
    show _ ≤ tp.groupsWaiting
    rw [hcounter]
    exact hle
  . rintro gs' _ w i ⟨⟩ hw hi
    apply h.covered k [] before w i hremaining hw hi

theorem finished_of_not_inGroup {w : Nat} (hd : Handoff.Dealt s.handoff) (hw : w ∈ s.returned)
    (hnot : ∀ g, ¬ InGroup s w g)
    : w ∈ s.finished := by
  obtain ⟨_, hdeal, p, hp⟩ := hd.returned w hw
  cases p with
  | queue g => exact absurd (.inl hp) (hnot g)
  | flight k =>
    have hflight : (s.calls k).flight = some w := hp
    cases hpc : s.calls k with
    | hand g t w' =>
      rw [hpc] at hflight
      cases hflight
      refine absurd ?_ (hdeal k true)
      simp only [Sys.handoff, hpc, CallPc.deal]
    | _ =>
      rw [hpc] at hflight
      cases hflight
  | task t =>
    obtain ⟨begun, htask⟩ := hp
    cases htt : s.thrds t with
    | none => simp [Sys.handoff, htt] at htask
    | some tt =>
      simp only [Sys.handoff, htt, Option.bind_some, TThread.task, Option.map_eq_some_iff] at htask
      obtain ⟨w', hw', heq⟩ := htask
      cases heq
      refine absurd (.inr ⟨t, ?_⟩) (hnot tt.tg)
      rw [htt, taskIn, hw', Option.map_some]
  | finished => exact hp

theorem endWait {before : List Nat} {tp : TPool} (h : WaitInv s) (hd : Handoff.Dealt s.handoff)
    (hpc : s.calls k = .waitLook [] before ∨ (s.calls k = .waitBlock before ∧ s.pool.mutexPool = none))
    (hwait : s.pool.groupsWaiting ≤ 0)
    : WaitInv ((s.setPool tp).setCall k (.waitDone before)) := by
  obtain ⟨hwaits, hbefore, hremaining⟩ := remaining_of_block hpc
  obtain ⟨fs, ts, hfs, hts, hle⟩ := h.counted k [] before hremaining
  have hfnil : fs = [] := by
    rw [← List.length_eq_zero_iff]
    omega
  have htnil : ts = [] := by
    rw [← List.length_eq_zero_iff]
    omega
  subst hfnil htnil
  have hflag : ∀ g, flagOf (s.groups g) = false := by
    intro g
    by_contra hg
    cases hfs g (by simpa using hg)
  refine setWait (h.others hwaits) rfl ?_ ?_ (by nofun) (by nofun) ?_
  . rintro _ w ⟨⟩ hw
    apply h.before k before w hbefore hw
  . intro _
    refine ⟨hflag, ?_⟩
    refine fun t => Bool.eq_false_iff.mpr fun ht => ?_
    cases hts t ht
  . rintro _ w ⟨⟩ hw
    have hnot : ∀ g, ¬ InGroup s w g := by
      intro g hg
      rcases h.covered k [] before w g hremaining hw hg with hmem | htrue
      . cases hmem
      . rw [hflag g] at htrue
        cases htrue
    have hfinished : w ∈ s.finished :=
      finished_of_not_inGroup hd (h.before k before w hbefore hw) hnot
    exact hfinished

theorem waitReturn {before : List Nat} (h : WaitInv s) (hpc : s.calls k = .waitDone before)
    : WaitInv (s.setCall k .returned) := by
  have hwaits : (s.calls k).waits = true := by
    rw [hpc]
    rfl
  refine setWait (h.others hwaits) rfl (by nofun) ?_ (by nofun) (by nofun) (by nofun)
  intro _
  apply h.quiet_of_remaining hwaits
  rw [hpc]
  rfl

/--
The last active thread of a group that is waited for has found its queue empty.
-/
theorem countOff {tt tt' : TThread} {tg tg' : TGroup} (h : WaitInv s) (ht : ThreadInv s)
    (hd : DrainInv s) (htt : s.thrds t = some tt) (hpc : tt.pc = .grp)
    (hg : s.groups tt.tg = some tg) (hlen : tg.q.work.len = 0) (hflag : tg.groupWait = true)
    (hone : tg.activeThrds.len = 1) (hgroups : s'.groups = update s.groups tt.tg (some tg'))
    (hflag' : tg'.groupWait = false)
    (hthrds : s'.thrds = update s.thrds t (some tt')) (hcalls : s'.calls = s.calls)
    (hcounter : s'.pool.groupsWaiting = s.pool.groupsWaiting)
    (hreturned : s'.returned = s.returned) (hfinished : s'.finished = s.finished)
    (hin : ∀ w g, InGroup s' w g → InGroup s w g)
    : WaitInv s' := by
  have hok := ht.ok t tt htt
  simp only [TThread.Ok, hpc] at hok
  have hflagged : flagOf (s.groups tt.tg) = true := by
    rw [hg]
    exact hflag
  have hbusy : ∀ works, NotBusy s tg works := by
    intro works t' hmem tt' htt' w hw
    have hmem' := ht.active t tt tg htt hok.1 hg
    have hlength : tg.activeThrds.items.length = 1 := (ht.coherent tt.tg tg hg).2.symm.trans hone
    obtain ⟨t₀, hitems⟩ := List.length_eq_one_iff.mp hlength
    rw [hitems, List.mem_singleton] at hmem hmem'
    rw [hmem, ← hmem', htt] at htt'
    cases htt'
    rw [hok.2] at hw
    cases hw
  constructor
  . rw [hcalls]
    apply h.one
  . rw [hcalls, hreturned]
    apply h.before
  . intro hnone
    rw [hcalls] at hnone
    rw [(h.quiet hnone).1 tt.tg] at hflagged
    cases hflagged
  . intro i gs before hi
    rw [hcalls] at hi
    obtain ⟨fs, ts, hfs, hts, hle⟩ := h.counted i gs before hi
    have hmem := hfs tt.tg hflagged
    have hlength := List.length_erase_add_one hmem
    refine ⟨fs.erase tt.tg, t :: ts, ?_, ?_, ?_⟩
    . intro j hj
      rw [hgroups, update_apply] at hj
      split at hj
      . rw [flagOf, hflag'] at hj
        cases hj
      . next hne =>
        rw [List.mem_erase_of_ne hne]
        apply hfs j hj
    . intro j hsettles
      obtain ⟨ttj, hj, hdecr⟩ := settles_eq_true.mp hsettles
      rw [List.mem_cons]
      rcases setThrd_cases hthrds hj with ⟨hjt, _⟩ | ⟨_, hj⟩
      . exact .inl hjt
      . exact .inr (hts j (settles_eq_true.mpr ⟨ttj, hj, hdecr⟩))
    . rw [hcounter, List.length_cons]
      omega
  . intro i gs before w j hi hw hj
    rw [hcalls] at hi
    have hold := hin w j hj
    rcases h.covered i gs before w j hi hw hold with hmem | hwait
    . exact .inl hmem
    . by_cases hjg : j = tt.tg
      . rw [hjg] at hold
        exact absurd hold (not_inGroup ht hd hg hlen (hbusy before) hw)
      . rw [hgroups, update_of_ne hjg]
        exact .inr hwait
  . rw [hcalls, hfinished]
    apply h.done

theorem decr {tt : TThread} (h : WaitInv s) (htt : s.thrds t = some tt) (hpc : tt.pc = .decr)
    : WaitInv
        ((s.setPool { s.pool with groupsWaiting := s.pool.groupsWaiting - 1 }).setThrd t
          { tt with pc := .sleep }) := by
  have hcounts : settles (s.thrds t) = true := settles_eq_true.mpr ⟨tt, htt, hpc⟩
  refine ⟨h.one, h.before, ?_, ?_, ?_, h.done⟩
  . intro hnone
    exact absurd hcounts (Bool.eq_false_iff.mp ((h.quiet hnone).2 t))
  . intro i gs before hi
    obtain ⟨fs, ts, hfs, hts, hle⟩ := h.counted i gs before hi
    have hlength := List.length_erase_add_one (hts t hcounts)
    refine ⟨fs, ts.erase t, hfs, ?_, ?_⟩
    . intro j hj
      simp only [Sys.setThrd, Sys.setPool, update_apply] at hj
      split at hj
      . cases hj
      . next hne =>
        rw [List.mem_erase_of_ne hne]
        exact hts j hj
    . show ((gs.length + fs.length + (ts.erase t).length : Nat) : Int) ≤ s.pool.groupsWaiting - 1
      omega
  . intro i gs before w j hi hw hj
    have hold : InGroup s w j :=
      hj.of_eq (fun _ => List.Subset.refl _) (taskIn_setThrd rfl htt rfl rfl)
    exact h.covered i gs before w j hi hw hold

theorem worker (h : WaitInv s) (ht : ThreadInv s) (hd : DrainInv s) (hs : WorkerStep s t s')
    : WaitInv s' := by
  have hin : ∀ w g, InGroup s' w g → InGroup s w g := fun w g => inGroup_worker hs
  have hin' : ∀ w g, w ∈ s.returned → InGroup s' w g → InGroup s w g := fun w g _ => hin w g
  have hcalls : ∀ i, s'.calls i = s.calls i ∨
      ((s'.calls i).waits = false ∧ (s.calls i).waits = false) :=
    fun i => .inl (congrFun hs.calls_eq i)
  cases hs with
  | decr tt htt hpc => exact h.decr htt hpc
  | goIdle tt tg wait htt hpc hg hlock hlen hkill hrun hwait =>
    cases wait with
    | true =>
      simp only [Eq.comm (a := true), Bool.and_eq_true, beq_iff_eq] at hwait
      exact h.countOff ht hd htt hpc hg hlen hwait.1 hwait.2 rfl (by simp) rfl rfl rfl rfl rfl hin
    | false =>
      refine h.frame hcalls (flagOf_setGroup hg rfl (by simp)) ?_ rfl hin' (fun _ => id) (fun _ => id)
      exact settles_setThrd rfl (by rintro _ ⟨⟩ ⟨⟩)
  | ret tt w htt =>
    refine h.frame hcalls (fun _ => rfl) ?_ rfl hin' (fun _ => id) ?_
    . exact settles_setThrd rfl (by rintro _ ⟨⟩ ⟨⟩)
    . intro w hw
      apply List.mem_append_left _ hw
  | fetch tt tg w rest htt hpc hg =>
    refine h.frame hcalls (flagOf_setGroup hg rfl rfl) ?_ rfl hin' (fun _ => id) (fun _ => id)
    exact settles_setThrd rfl (by rintro _ ⟨⟩ ⟨⟩)
  | leave tt tg htt hpc hg =>
    refine h.frame hcalls (flagOf_setGroup hg rfl rfl) ?_ rfl hin' (fun _ => id) (fun _ => id)
    exact settles_setThrd rfl (by rintro _ ⟨⟩)
  | _ =>
    refine h.frame hcalls (fun _ => rfl) ?_ rfl hin' (fun _ => id) (fun _ => id)
    exact settles_setThrd rfl (by rintro _ ⟨⟩ ⟨⟩)

theorem manager {m : Nat} (h : WaitInv s) (hs : ManagerStep s m s') : WaitInv s' := by
  have hin : ∀ w g, w ∈ s.returned → InGroup s' w g → InGroup s w g :=
    fun w g _ => inGroup_manager hs
  have hcalls : ∀ i, s'.calls i = s.calls i ∨
      ((s'.calls i).waits = false ∧ (s.calls i).waits = false) :=
    fun i => .inl (congrFun hs.calls_eq i)
  cases hs with
  | look g gs tg hpc hg =>
    exact h.frame hcalls (flagOf_setGroup hg rfl rfl) (fun _ => id) rfl hin (fun _ => id)
      (fun _ => id)
  | spawnTask g n gs tg w rest hpc hg =>
    refine h.frame hcalls (flagOf_setGroup hg rfl rfl) ?_ rfl hin (fun _ => id) (fun _ => id)
    exact settles_setThrd rfl (by rintro _ ⟨⟩ ⟨⟩)
  | spawnNone g n gs tg hpc hg =>
    refine h.frame hcalls (flagOf_setGroup hg rfl rfl) ?_ rfl hin (fun _ => id) (fun _ => id)
    exact settles_setThrd rfl (by rintro _ ⟨⟩ ⟨⟩)
  | endSpawn g gs tg hpc hg =>
    exact h.frame hcalls (flagOf_setGroup hg rfl rfl) (fun _ => id) rfl hin (fun _ => id)
      (fun _ => id)
  | _ => exact h.frame hcalls (fun _ => rfl) (fun _ => id) rfl hin (fun _ => id) (fun _ => id)

theorem inGroup_of_returned {w : Nat} (ht : ThreadInv s) (hf : Fresh s)
    (hd : Handoff.Dealt s.handoff) (hs : CallStep s k s') (hw : w ∈ s.returned) (h : InGroup s' w g)
    : InGroup s w g := by
  rcases inGroup_caller ht hf hs h with h | hbrings
  . exact h
  . obtain ⟨_, hdeal, _⟩ := hd.returned w hw
    cases hpc : s.calls k with
    | offer g' w' =>
      rw [hpc] at hbrings
      cases hbrings
      refine absurd ?_ (hdeal k false)
      simp only [Sys.handoff, hpc, CallPc.deal]
    | hand g' t w' =>
      rw [hpc] at hbrings
      cases hbrings
      refine absurd ?_ (hdeal k true)
      simp only [Sys.handoff, hpc, CallPc.deal]
    | _ =>
      rw [hpc] at hbrings
      cases hbrings

theorem caller (h : WaitInv s) (hi : PoolInv s) (hp : Published s)
    (hquiet : QuietSkip s (.caller k)) (hs : CallStep s k s')
    : WaitInv s' := by
  have hin : ∀ w g, w ∈ s.returned → InGroup s' w g → InGroup s w g :=
    fun w g => inGroup_of_returned hi.threads hi.fresh hi.dealt hs
  have hkeeps := hp.keeps k
  cases hs with
  | build min max flags hpc =>
    refine h.frame_setCall rfl rfl (by rw [hpc]; rfl) ?_ (fun _ => id) rfl hin (fun _ => id) rfl
    intro g
    simp only [Sys.setCall, Sys.setGroup, update_apply]
    split
    . next heq =>
      rw [heq, hi.fresh.nextGroup_eq_none]
      rfl
    . rfl
  | spawn g n max tg hpc hg =>
    refine h.frame_setCall rfl rfl (by rw [hpc]; rfl) (flagOf_setGroup hg rfl rfl) ?_ rfl hin
      (fun _ => id) rfl
    exact settles_setThrd rfl (by rintro _ ⟨⟩ ⟨⟩)
  | endSpawn g max tg hpc hg =>
    exact h.frame_setCall rfl rfl (by rw [hpc]; rfl) (flagOf_setGroup hg rfl rfl) (fun _ => id) rfl
      hin (fun _ => id) rfl
  | chargeFirst g max hpc =>
    exact h.frame_setCall rfl rfl (by rw [hpc]; rfl) (fun _ => rfl) (fun _ => id)
      (TPool.addGroupCharge_groupsWaiting ..) hin (fun _ => id) rfl
  | charge g max hpc =>
    exact h.frame_setCall rfl rfl (by rw [hpc]; rfl) (fun _ => rfl) (fun _ => id)
      (TPool.addGroupCharge_groupsWaiting ..) hin (fun _ => id) rfl
  | queue g w tg pc hpc hg hlock hclose hidle hfull hnext =>
    refine h.frame_setCall rfl ?_ (by rw [hpc]; rfl) (flagOf_setGroup hg rfl rfl) (fun _ => id) rfl
      hin (fun _ => id) rfl
    rcases hnext with rfl | rfl <;> rfl
  | full g w tg pc hpc hg hlock hclose hidle hfull hnext =>
    refine h.frame_setCall rfl ?_ (by rw [hpc]; rfl) (fun _ => rfl) (fun _ => id) rfl hin
      (fun _ => id) rfl
    rcases hnext with rfl | rfl <;> rfl
  | reserve g w tg t rest hpc hg =>
    exact h.frame_setCall rfl rfl (by rw [hpc]; rfl) (flagOf_setGroup hg rfl rfl) (fun _ => id) rfl
      hin (fun _ => id) rfl
  | hand g t w tt hpc htt =>
    refine h.frame_setCall rfl rfl (by rw [hpc]; rfl) (fun _ => rfl) ?_ rfl hin (fun _ => id) rfl
    refine settles_setThrd rfl ?_
    rintro _ ⟨⟩ hdecr
    exact settles_eq_true.mpr ⟨tt, htt, hdecr⟩
  | success w hpc =>
    exact h.frame_setCall rfl rfl (by rw [hpc]; rfl) (fun _ => rfl) (fun _ => id) rfl hin
      (fun _ => List.mem_cons_of_mem w) rfl
  | waitStart before hpc => exact h.waitStart hp hpc
  | skip g gs before tg hpc hg hlock hlen =>
    refine h.skip hi.threads hi.drain hpc hg hlen ?_
    refine hquiet (g, before) ?_ tg hg ?_
    . rw [hpc]
      rfl
    . simp [Q.qEmpty, LL.emptyList, hlen]
  | flag g gs before tg hpc hg => exact h.flag hpc hg
  | block before hpc => exact h.block hpc rfl
  | endWait before hpc hwait => exact h.endWait hi.dealt hpc hwait
  | waitReturn before hpc => exact h.waitReturn hpc
  | checkFail min max flags hpc | check min max min' max' flags hpc | refuse g w tg hpc
  | notify w rc hpc | failure w rc hpc =>
    exact h.frame_setCall rfl rfl (by rw [hpc]; rfl) (fun _ => rfl) (fun _ => id) rfl hin
      (fun _ => id) rfl
  | _ => simp_all [CallPc.destroys]

theorem startWait (h : WaitInv s) (hf : Fresh s) (hone : OneWait s (.call .waitPool))
    : WaitInv (s.startCall (.waitStart s.returned)) := by
  have hnone : ∀ i, (s.calls i).waits = false := by
    intro i
    by_cases hi : s.calls i = .returned
    . rw [hi]
      rfl
    . apply hone i (hf.calls i hi)
  refine setWait (fun i _ => hnone i) rfl ?_ ?_ (by nofun) (by nofun) (by nofun)
  . rintro _ w ⟨⟩ hw
    exact hw
  . intro _
    apply h.quiet
    intro i
    apply remaining_of_not_waits (hnone i)

theorem start {req : Req} (h : WaitInv s) (hf : Fresh s) (hone : OneWait s (.call req))
    (hs : StartStep s req s')
    : WaitInv s' := by
  have hk : (s.calls s.nextCall).waits = false := by
    rw [hf.nextCall_eq_returned]
    rfl
  cases hs with
  | waitPool => exact h.startWait hf hone
  | _ =>
    exact h.frame_setCall rfl rfl hk (fun _ => rfl) (fun _ => id) rfl (fun _ _ _ => id) (fun _ => id)
      rfl

theorem step {a : Action} (h : WaitInv s) (hi : PoolInv s) (hp : Published s) (hone : OneWait s a)
    (hquiet : QuietSkip s a) (hs : Step s a s')
    : WaitInv s' := by
  cases hs with
  | start req s' hs => apply h.start hi.fresh hone hs
  | caller k s' hs => apply h.caller hi hp hquiet hs
  | worker t s' hs => apply h.worker hi.threads hi.drain hs
  | manager m timedOut s' hs => apply h.manager hs

end WaitInv

/--
When `wait_pool` returns, the works that had been accepted when it was called are finished.
-/
def Waited (s : Sys) : Prop := ∀ k before w, s.calls k = .waitDone before → w ∈ before → w ∈ s.finished

def WaitOnly (s : Sys) (a : Action) : Prop := NoDestroy a ∧ OneWait s a

instance (s : Sys) (a : Action) : Decidable (WaitOnly s a) :=
  inferInstanceAs (Decidable (NoDestroy a ∧ OneWait s a))

theorem waited_of_quietSkip {maxThrds : Nat} {tp : TPool} {as : List Action} {s : Sys}
    (hinit : TPool.initPool maxThrds = some tp)
    (hquiet : Lts.Along Sys.step (fun s a => WaitOnly s a ∧ QuietSkip s a) (.init tp) as)
    (hrun : run (.init tp) as = some s)
    : Waited s := by
  have hinv : PoolInv s ∧ Published s ∧ WaitInv s := by
    refine Lts.invariant_along (I := fun s => PoolInv s ∧ Published s ∧ WaitInv s) ?_ ?_ hquiet hrun
    . intro s a s' ⟨hi, hp, hw⟩ ⟨⟨hdestroy, hone⟩, hskip⟩ hs
      have hs := step_of_step hs
      exact ⟨hi.step hs, hp.step hi.threads hi.fresh hdestroy hs, hw.step hi hp hone hskip hs⟩
    . exact ⟨.init hinit, .init hinit, .init tp⟩
  exact hinv.2.2.done

theorem waited_queued_work
    : ∃ tp s, TPool.initPool 4 = some tp ∧
        run (.init tp) (.call (.addGroup 1 1 0) :: List.replicate 5 (.caller 0) ++
          .call (.doWork 0 7) :: List.replicate 3 (.caller 1) ++
          .call .waitPool :: List.replicate 3 (.caller 2) ++
          List.replicate 7 (.worker 0) ++ [.caller 2]) = some s ∧
        Waited s ∧ s.calls 2 = .waitDone [7] ∧ s.finished = [7] := by
  refine ⟨_, _, rfl, rfl, ?_, rfl, rfl⟩
  exact @waited_of_quietSkip 4 _ (.call (.addGroup 1 1 0) :: List.replicate 5 (.caller 0) ++
    .call (.doWork 0 7) :: List.replicate 3 (.caller 1) ++
    .call .waitPool :: List.replicate 3 (.caller 2) ++
    List.replicate 7 (.worker 0) ++ [.caller 2]) _ rfl (by decide) rfl

/--
The thread is idle when the work is given to the pool, so the queue stays empty.
-/
theorem not_waited_handed_work
    : ¬ ∀ maxThrds tp as s, TPool.initPool maxThrds = some tp →
        Lts.Along Sys.step WaitOnly (.init tp) as → run (.init tp) as = some s → Waited s := by
  intro h
  have hs := h 4 _ (.call (.addGroup 1 1 0) :: List.replicate 5 (.caller 0) ++
    List.replicate 3 (.worker 0) ++ .call (.doWork 0 7) :: List.replicate 3 (.caller 1) ++
    .call .waitPool :: List.replicate 3 (.caller 2)) _ rfl (by decide) rfl
  exact absurd (hs 2 [7] 7 rfl (by decide)) (by decide)

end Pool
