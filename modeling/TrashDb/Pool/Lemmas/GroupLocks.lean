import TrashDb.Pool.Lemmas.Threads

/-!
This module contains the ownership of the mutexes of the groups. Such a mutex is held across steps by
the call of `add_group` that creates the threads of the group, by the call that destroys the group, and
by the manager that adds threads to it.
-/

namespace Pool

open Function

def CallPc.holdsGroup : CallPc → Option Nat
  | .addSpawn g _ _ | .wake g _ _ => some g
  | _ => none

def ManagerPc.holdsGroup : ManagerPc → Option Nat
  | .spawn g _ _ => some g
  | _ => none

def Sys.holdsGroup (s : Sys) : Holder → Option Nat
  | .call k => (s.calls k).holdsGroup
  | .manager m => (s.managers m).holdsGroup

structure GroupLock (s : Sys) : Prop where
  owner : ∀ g tg o, s.groups g = some tg → (tg.mutexGrp = some o ↔ s.holdsGroup o = some g)
  fresh : ∀ o g, s.holdsGroup o = some g → g < s.nextGroup
  unstarted : ∀ m, s.nextManager ≤ m → s.managers m = .exited

namespace GroupLock

variable {s s' : Sys} {k g m : Nat}

theorem init (tp : TPool) : GroupLock (.init tp) := by
  constructor
  . intro g tg o hg
    cases hg
  . intro o g ho
    cases o <;> cases ho
  . intro m _
    rfl

theorem frame (h : GroupLock s) (hkeeps : Keeps TGroup.mutexGrp s s')
    (hholds : s'.holdsGroup = s.holdsGroup) (hnext : s'.nextGroup = s.nextGroup)
    (hunstarted : ∀ m, s'.nextManager ≤ m → s'.managers m = .exited)
    : GroupLock s' := by
  refine ⟨?_, ?_, hunstarted⟩
  . intro g tg' o hg'
    obtain ⟨tg, hg, hmutex⟩ := hkeeps g tg' hg'
    rw [hmutex, hholds]
    apply h.owner g tg o hg
  . rw [hholds, hnext]
    apply h.fresh

theorem holdsGroup_setCall {p : CallPc} {x : Option Nat} (hcalls : s'.calls = update s.calls k p)
    (hmanagers : s'.managers = s.managers) (hp : p.holdsGroup = x)
    : s'.holdsGroup = update s.holdsGroup (.call k) x := by
  subst hp
  funext o
  cases o with
  | call i =>
    simp only [Sys.holdsGroup, hcalls, update_apply, Holder.call.injEq]
    split <;> rfl
  | manager i => simp [Sys.holdsGroup, hmanagers]

theorem holdsGroup_setManager {p : ManagerPc} {x : Option Nat}
    (hmanagers : s'.managers = update s.managers m p) (hcalls : s'.calls = s.calls)
    (hp : p.holdsGroup = x)
    : s'.holdsGroup = update s.holdsGroup (.manager m) x := by
  subst hp
  funext o
  cases o with
  | call i => simp [Sys.holdsGroup, hcalls]
  | manager i =>
    simp only [Sys.holdsGroup, hmanagers, update_apply, Holder.manager.injEq]
    split <;> rfl

theorem acquire {o : Holder} {tg' : TGroup} (h : GroupLock s) (ho : s.holdsGroup o = none)
    (hfree : ∀ o, s.holdsGroup o ≠ some g) (hgroups : s'.groups = update s.groups g (some tg'))
    (hmutex : tg'.mutexGrp = some o) (hholds : s'.holdsGroup = update s.holdsGroup o (some g))
    (hnext : s.nextGroup ≤ s'.nextGroup) (hg : g < s'.nextGroup)
    (hunstarted : ∀ m, s'.nextManager ≤ m → s'.managers m = .exited)
    : GroupLock s' := by
  refine ⟨?_, ?_, hunstarted⟩
  . intro i tgi o' hi
    rw [hholds, update_apply]
    rcases setGroup_cases hgroups hi with ⟨rfl, rfl⟩ | ⟨hne, hi⟩
    . rw [hmutex, Option.some.injEq]
      split
      . next heq => simp [heq]
      . next hne => simp [Ne.symm hne, hfree o']
    . rw [h.owner i tgi o' hi]
      split
      . next heq => simp [heq, ho, Ne.symm hne]
      . rfl
  . intro o' i hi
    rw [hholds, update_apply] at hi
    split at hi
    . cases hi
      exact hg
    . exact Nat.lt_of_lt_of_le (h.fresh o' i hi) hnext

theorem not_held {tg : TGroup} (h : GroupLock s) (hg : s.groups g = some tg)
    (hfree : tg.mutexGrp = none)
    : ∀ o, s.holdsGroup o ≠ some g := by
  intro o ho
  rw [← h.owner g tg o hg, hfree] at ho
  cases ho

theorem release {o : Holder} {tg tg' : TGroup} (h : GroupLock s) (ho : s.holdsGroup o = some g)
    (hg : s.groups g = some tg) (hgroups : s'.groups = update s.groups g (some tg'))
    (hmutex : tg'.mutexGrp = none) (hholds : s'.holdsGroup = update s.holdsGroup o none)
    (hnext : s'.nextGroup = s.nextGroup)
    (hunstarted : ∀ m, s'.nextManager ≤ m → s'.managers m = .exited)
    : GroupLock s' := by
  have howner := (h.owner g tg o hg).mpr ho
  refine ⟨?_, ?_, hunstarted⟩
  . intro i tgi o' hi
    rw [hholds, update_apply]
    rcases setGroup_cases hgroups hi with ⟨rfl, rfl⟩ | ⟨hne, hi⟩
    . rw [hmutex]
      split
      . simp
      . next hne =>
        rw [← h.owner i tg o' hg, howner]
        simp [Ne.symm hne]
    . rw [h.owner i tgi o' hi]
      split
      . next heq => simp [heq, ho, Ne.symm hne]
      . rfl
  . intro o' i hi
    rw [hnext]
    rw [hholds, update_apply] at hi
    split at hi
    . cases hi
    . apply h.fresh o' i hi

theorem setCall {p : CallPc} (h : GroupLock s) (hcalls : s'.calls = update s.calls k p)
    (hmanagers : s'.managers = s.managers) (hnextManager : s'.nextManager = s.nextManager)
    (hp : p.holdsGroup = (s.calls k).holdsGroup) (hkeeps : Keeps TGroup.mutexGrp s s')
    (hnext : s'.nextGroup = s.nextGroup)
    : GroupLock s' := by
  refine h.frame hkeeps ?_ hnext ?_
  . rw [holdsGroup_setCall hcalls hmanagers hp]
    apply update_eq_self
  . rw [hmanagers, hnextManager]
    apply h.unstarted

theorem unstarted_setManager {p : ManagerPc} (h : GroupLock s) (hm : s.managers m ≠ .exited)
    (hmanagers : s'.managers = update s.managers m p) (hnextManager : s'.nextManager = s.nextManager)
    : ∀ i, s'.nextManager ≤ i → s'.managers i = .exited := by
  intro i hi
  rw [hnextManager] at hi
  rw [hmanagers, update_apply]
  split
  . next heq =>
    rw [heq] at hi
    exact absurd (h.unstarted m hi) hm
  . apply h.unstarted i hi

theorem setManager {p : ManagerPc} (h : GroupLock s) (hm : s.managers m ≠ .exited)
    (hmanagers : s'.managers = update s.managers m p) (hcalls : s'.calls = s.calls)
    (hnextManager : s'.nextManager = s.nextManager) (hp : p.holdsGroup = (s.managers m).holdsGroup)
    (hkeeps : Keeps TGroup.mutexGrp s s') (hnext : s'.nextGroup = s.nextGroup)
    : GroupLock s' := by
  refine h.frame hkeeps ?_ hnext (h.unstarted_setManager hm hmanagers hnextManager)
  rw [holdsGroup_setManager hmanagers hcalls hp]
  apply update_eq_self

theorem start {req : Req} (h : GroupLock s) (hf : Fresh s) (hs : StartStep s req s')
    : GroupLock s' := by
  have hreturned := hf.nextCall_eq_returned
  cases hs <;> exact h.setCall rfl rfl rfl (by rw [hreturned]; rfl) (keeps_of_eq rfl) rfl

theorem caller (h : GroupLock s) (hf : Fresh s) (hs : CallStep s k s') : GroupLock s' := by
  cases hs with
  | build min max flags hpc =>
    refine h.acquire (o := .call k) ?_ ?_ rfl rfl ?_ (Nat.le_succ _) (Nat.lt_succ_self _) h.unstarted
    . simp only [Sys.holdsGroup, hpc, CallPc.holdsGroup]
    . intro o ho
      have := h.fresh o s.nextGroup ho
      omega
    . exact holdsGroup_setCall rfl rfl rfl
  | spawn g n max tg hpc hg =>
    exact h.setCall rfl rfl rfl (by rw [hpc]; rfl) (keeps_setGroup rfl hg rfl) rfl
  | endSpawn g max tg hpc hg =>
    refine h.release (o := .call k) ?_ hg rfl rfl ?_ rfl h.unstarted
    . simp only [Sys.holdsGroup, hpc, CallPc.holdsGroup]
    . exact holdsGroup_setCall rfl rfl rfl
  | close g by_ tg hpc hg hlock =>
    refine h.acquire (o := .call k) ?_ (h.not_held hg hlock) rfl rfl ?_ (Nat.le_refl _) ?_ h.unstarted
    . simp only [Sys.holdsGroup, hpc, CallPc.holdsGroup]
    . exact holdsGroup_setCall rfl rfl rfl
    . apply hf.groups g
      rw [hg]
      nofun
  | wake g ts by_ tg t rest tt hpc hg => exact h.frame (keeps_setGroup rfl hg rfl) rfl rfl h.unstarted
  | endWake g ts by_ tg hpc hg =>
    refine h.release (o := .call k) ?_ hg rfl rfl ?_ rfl h.unstarted
    . simp only [Sys.holdsGroup, hpc, CallPc.holdsGroup]
    . exact holdsGroup_setCall rfl rfl rfl
  | endJoinPool g tg hpc =>
    exact h.setCall rfl rfl rfl (by rw [hpc]; rfl) (keeps_freeGroup rfl) rfl
  | refund g tg hpc =>
    exact h.setCall rfl rfl rfl (by rw [hpc]; rfl) (keeps_freeGroup rfl) rfl
  | chargeFirst g max hpc =>
    -- the new manager holds no mutex, and nobody was there in its place before
    refine h.frame (keeps_of_eq rfl) ?_ rfl ?_
    . have hnone := h.unstarted s.nextManager (Nat.le_refl _)
      funext o
      cases o with
      | call i =>
        simp only [Sys.holdsGroup, Sys.setCall, Sys.setManager, Sys.setPool, update_apply]
        split
        . next heq => rw [heq, hpc]; rfl
        . rfl
      | manager i =>
        simp only [Sys.holdsGroup, Sys.setCall, Sys.setManager, Sys.setPool, update_apply]
        split
        . next heq => rw [heq, hnone]; rfl
        . rfl
    . intro i hi
      simp only [Sys.setCall, Sys.setManager, Sys.setPool] at hi ⊢
      rw [update_of_ne (by omega)]
      apply h.unstarted i (by omega)
  | queue g w tg pc hpc hg hlock hclose hidle hfull hnext =>
    refine h.setCall rfl rfl rfl ?_ (keeps_setGroup rfl hg rfl) rfl
    rw [hpc]
    rcases hnext with rfl | rfl <;> rfl
  | full g w tg pc hpc hg hlock hclose hidle hfull hnext =>
    refine h.setCall rfl rfl rfl ?_ (keeps_of_eq rfl) rfl
    rw [hpc]
    rcases hnext with rfl | rfl <;> rfl
  | reserve g w tg t rest hpc hg =>
    exact h.setCall rfl rfl rfl (by rw [hpc]; rfl) (keeps_setGroup rfl hg rfl) rfl
  | flag g gs before tg hpc hg =>
    exact h.setCall rfl rfl rfl (by rw [hpc]; rfl) (keeps_setGroup rfl hg rfl) rfl
  | block before hpc =>
    refine h.setCall rfl rfl rfl ?_ (keeps_of_eq rfl) rfl
    rcases hpc with hpc | hpc <;> simp [hpc, CallPc.holdsGroup]
  | endWait before hpc =>
    refine h.setCall rfl rfl rfl ?_ (keeps_of_eq rfl) rfl
    rcases hpc with hpc | hpc <;> simp [hpc, CallPc.holdsGroup]
  | _ =>
    refine h.setCall rfl rfl rfl ?_ (keeps_of_eq rfl) rfl
    simp [*, CallPc.holdsGroup]

theorem worker {t : Nat} (h : GroupLock s) (hs : WorkerStep s t s') : GroupLock s' := by
  cases hs with
  | fetch tt tg w rest htt hpc hg => exact h.frame (keeps_setGroup rfl hg rfl) rfl rfl h.unstarted
  | goIdle tt tg wait htt hpc hg => exact h.frame (keeps_setGroup rfl hg rfl) rfl rfl h.unstarted
  | leave tt tg htt hpc hg => exact h.frame (keeps_setGroup rfl hg rfl) rfl rfl h.unstarted
  | _ => exact h.frame (keeps_of_eq rfl) rfl rfl h.unstarted

theorem manager (h : GroupLock s) (hf : Fresh s) (hs : ManagerStep s m s') : GroupLock s' := by
  have hm := hs.ne_exited
  cases hs with
  | stay hpc => exact h
  | look g gs tg hpc hg hlock =>
    refine h.acquire (o := .manager m) ?_ (h.not_held hg hlock) rfl rfl ?_ (Nat.le_refl _) ?_ ?_
    . simp only [Sys.holdsGroup, hpc, ManagerPc.holdsGroup]
    . exact holdsGroup_setManager rfl rfl rfl
    . apply hf.groups g
      rw [hg]
      nofun
    . exact h.unstarted_setManager hm rfl rfl
  | spawnTask g n gs tg w rest hpc hg =>
    exact h.setManager hm rfl rfl rfl (by rw [hpc]; rfl) (keeps_setGroup rfl hg rfl) rfl
  | spawnNone g n gs tg hpc hg =>
    exact h.setManager hm rfl rfl rfl (by rw [hpc]; rfl) (keeps_setGroup rfl hg rfl) rfl
  | endSpawn g gs tg hpc hg =>
    refine h.release (o := .manager m) ?_ hg rfl rfl ?_ rfl (h.unstarted_setManager hm rfl rfl)
    . simp only [Sys.holdsGroup, hpc, ManagerPc.holdsGroup]
    . exact holdsGroup_setManager rfl rfl rfl
  | _ =>
    refine h.setManager hm rfl rfl rfl ?_ (keeps_of_eq rfl) rfl
    simp [*, ManagerPc.holdsGroup]

theorem step {a : Action} (h : GroupLock s) (hf : Fresh s) (hs : Step s a s') : GroupLock s' := by
  cases hs with
  | start req s' hs => apply h.start hf hs
  | caller k s' hs => apply h.caller hf hs
  | worker t s' hs => apply h.worker hs
  | manager m timedOut s' hs => apply h.manager hf hs

end GroupLock

end Pool
