import TrashDb.Pool.Step

/-!
This module contains the ownership of `mutexPool`: whoever is at a place between the locking and the
unlocking of the mutex is its owner, so there is at most one.
-/

namespace Pool

def CallPc.holdsPool : CallPc → Bool
  | .popGroups | .waitLook _ _ => true
  | .close _ by_ | .wake _ _ by_ | .join _ _ by_ => by_ == .destroyPool
  | _ => false

def ManagerPc.holdsPool : ManagerPc → Bool
  | .pass _ | .spawn _ _ _ => true
  | _ => false

structure PoolLock (s : Sys) : Prop where
  call : ∀ k, (s.calls k).holdsPool = true → s.pool.mutexPool = some (.call k)
  manager : ∀ m, (s.managers m).holdsPool = true → s.pool.mutexPool = some (.manager m)

namespace PoolLock

variable {s s' : Sys} {k m : Nat}

theorem init (tp : TPool) : PoolLock (.init tp) := by
  constructor <;> intro i hi <;> cases hi

theorem call_ne_manager (h : PoolLock s) (hk : (s.calls k).holdsPool = true)
    (hm : (s.managers m).holdsPool = true)
    : False := by
  have := h.call k hk
  rw [h.manager m hm] at this
  cases this

theorem call_unique (h : PoolLock s) {k' : Nat} (hk : (s.calls k).holdsPool = true)
    (hk' : (s.calls k').holdsPool = true)
    : k = k' := by
  have := h.call k hk
  rw [h.call k' hk'] at this
  cases this
  rfl

theorem setCall {p : CallPc} (h : PoolLock s) (hcalls : s'.calls = Function.update s.calls k p)
    (hmanagers : s'.managers = s.managers)
    (hcase :
      (s'.pool.mutexPool = s.pool.mutexPool ∧ (p.holdsPool = true → (s.calls k).holdsPool = true)) ∨
      (s.pool.mutexPool = none ∧ (p.holdsPool = true → s'.pool.mutexPool = some (.call k))) ∨
      ((s.calls k).holdsPool = true ∧ p.holdsPool = false))
    : PoolLock s' := by
  constructor
  . intro i hi
    rw [hcalls, Function.update_apply] at hi
    split at hi
    . next heq =>
      subst heq
      rcases hcase with hcase | hcase | hcase
      . rw [hcase.1]
        apply h.call i (hcase.2 hi)
      . apply hcase.2 hi
      . rw [hcase.2] at hi
        cases hi
    . next hne =>
      rcases hcase with hcase | hcase | hcase
      . rw [hcase.1]
        apply h.call i hi
      . rw [h.call i hi] at hcase
        cases hcase.1
      . exact absurd (h.call_unique hi hcase.1) hne
  . intro i hi
    rw [hmanagers] at hi
    rcases hcase with hcase | hcase | hcase
    . rw [hcase.1]
      apply h.manager i hi
    . rw [h.manager i hi] at hcase
      cases hcase.1
    . exact (h.call_ne_manager hcase.1 hi).elim

theorem start {req : Req} (h : PoolLock s) (hs : StartStep s req s') : PoolLock s' := by
  cases hs <;> exact h.setCall rfl rfl (.inl ⟨rfl, by nofun⟩)

theorem caller (h : PoolLock s) (hs : CallStep s k s') : PoolLock s' := by
  cases hs with
  | wake g ts by_ tg t rest tt hpc => exact ⟨h.call, h.manager⟩
  | chargeFirst g max hpc hlock =>
    have hreturned : PoolLock (s.setCall k .returned) := h.setCall rfl rfl (.inl ⟨rfl, by nofun⟩)
    constructor
    . intro i hi
      simp only [Sys.setCall, Sys.setManager, Sys.setPool, TPool.addGroupCharge_mutexPool]
      apply hreturned.call i hi
    . intro i hi
      simp only [Sys.setCall, Sys.setManager, Sys.setPool, Function.update_apply,
        TPool.addGroupCharge_mutexPool] at hi ⊢
      split at hi
      . cases hi
      . apply h.manager i hi
  | charge g max hpc hlock hfreed hlen =>
    refine h.setCall (p := .returned) rfl rfl (.inl ⟨?_, by nofun⟩)
    simp
  | close g by_ tg hpc => exact h.setCall rfl rfl (.inl ⟨rfl, by simp [hpc, CallPc.holdsPool]⟩)
  | endWake g ts by_ tg hpc => exact h.setCall rfl rfl (.inl ⟨rfl, by simp [hpc, CallPc.holdsPool]⟩)
  | join g t ts by_ hpc => exact h.setCall rfl rfl (.inl ⟨rfl, by simp [hpc, CallPc.holdsPool]⟩)
  | endJoinPool g tg hpc =>
    exact h.setCall rfl rfl (.inl ⟨by simp, by simp [hpc, CallPc.holdsPool]⟩)
  | refund g tg hpc => exact h.setCall rfl rfl (.inl ⟨by simp, by nofun⟩)
  | popGroup g rest hpc => exact h.setCall rfl rfl (.inl ⟨rfl, by simp [hpc, CallPc.holdsPool]⟩)
  | skip g gs before tg hpc => exact h.setCall rfl rfl (.inl ⟨rfl, by simp [hpc, CallPc.holdsPool]⟩)
  | flag g gs before tg hpc => exact h.setCall rfl rfl (.inl ⟨rfl, by simp [hpc, CallPc.holdsPool]⟩)
  | queue g w tg pc hpc hg hlock hclose hidle hfull hnext =>
    refine h.setCall (p := pc) rfl rfl (.inl ⟨rfl, ?_⟩)
    rcases hnext with rfl | rfl <;> nofun
  | full g w tg pc hpc hg hlock hclose hidle hfull hnext =>
    refine h.setCall (p := pc) rfl rfl (.inl ⟨rfl, ?_⟩)
    rcases hnext with rfl | rfl <;> nofun
  | killDead hpc hlock => exact h.setCall rfl rfl (.inr (.inl ⟨hlock, fun _ => rfl⟩))
  | relock hpc hlock => exact h.setCall rfl rfl (.inr (.inl ⟨hlock, fun _ => rfl⟩))
  | waitStart before hpc hlock => exact h.setCall rfl rfl (.inr (.inl ⟨hlock, fun _ => rfl⟩))
  | freePool hpc => exact h.setCall rfl rfl (.inr (.inr ⟨by simp [hpc, CallPc.holdsPool], rfl⟩))
  | block before hpc =>
    rcases hpc with hpc | ⟨hpc, hlock⟩
    . exact h.setCall rfl rfl (.inr (.inr ⟨by simp [hpc, CallPc.holdsPool], rfl⟩))
    . exact h.setCall rfl rfl (.inr (.inl ⟨hlock, by nofun⟩))
  | endWait before hpc =>
    rcases hpc with hpc | ⟨hpc, hlock⟩
    . exact h.setCall rfl rfl (.inr (.inr ⟨by simp [hpc, CallPc.holdsPool], rfl⟩))
    . exact h.setCall rfl rfl (.inr (.inl ⟨hlock, by nofun⟩))
  | _ => exact h.setCall rfl rfl (.inl ⟨rfl, by nofun⟩)

theorem worker {t : Nat} (h : PoolLock s) (hs : WorkerStep s t s') : PoolLock s' := by
  cases hs <;> exact ⟨h.call, h.manager⟩

theorem setManager {pc : ManagerPc} (h : PoolLock s)
    (hmanagers : s'.managers = Function.update s.managers m pc) (hcalls : s'.calls = s.calls)
    (hcase :
      (s'.pool.mutexPool = s.pool.mutexPool ∧
        (pc.holdsPool = true → (s.managers m).holdsPool = true)) ∨
      (s.pool.mutexPool = none ∧ s'.pool.mutexPool = some (.manager m)) ∨
      ((s.managers m).holdsPool = true ∧ pc.holdsPool = false))
    : PoolLock s' := by
  constructor
  . intro i hi
    rw [hcalls] at hi
    rcases hcase with hcase | hcase | hcase
    . rw [hcase.1]
      apply h.call i hi
    . rw [h.call i hi] at hcase
      cases hcase.1
    . exact (h.call_ne_manager hi hcase.1).elim
  . intro i hi
    rw [hmanagers, Function.update_apply] at hi
    split at hi
    . next heq =>
      subst heq
      rcases hcase with hcase | hcase | hcase
      . rw [hcase.1]
        apply h.manager i (hcase.2 hi)
      . apply hcase.2
      . rw [hcase.2] at hi
        cases hi
    . next hne =>
      rcases hcase with hcase | hcase | hcase
      . rw [hcase.1]
        apply h.manager i hi
      . rw [h.manager i hi] at hcase
        cases hcase.1
      . have := h.manager i hi
        rw [h.manager m hcase.1] at this
        cases this
        exact absurd rfl hne

theorem manager_step (h : PoolLock s) (hs : ManagerStep s m s') : PoolLock s' := by
  cases hs with
  | stay hpc => exact h
  | exit hpc hlock => exact h.setManager rfl rfl (.inl ⟨rfl, by nofun⟩)
  | pass hpc hlock => exact h.setManager rfl rfl (.inr (.inl ⟨hlock, rfl⟩))
  | endPass hpc =>
    exact h.setManager rfl rfl (.inr (.inr ⟨by simp [hpc, ManagerPc.holdsPool], rfl⟩))
  | look g gs tg hpc =>
    exact h.setManager rfl rfl (.inl ⟨rfl, by simp [hpc, ManagerPc.holdsPool]⟩)
  | spawnTask g n gs tg w rest hpc =>
    exact h.setManager rfl rfl (.inl ⟨rfl, by simp [hpc, ManagerPc.holdsPool]⟩)
  | spawnNone g n gs tg hpc =>
    exact h.setManager rfl rfl (.inl ⟨rfl, by simp [hpc, ManagerPc.holdsPool]⟩)
  | endSpawn g gs tg hpc =>
    exact h.setManager rfl rfl (.inl ⟨rfl, by simp [hpc, ManagerPc.holdsPool]⟩)

theorem step {a : Action} (h : PoolLock s) (hs : Step s a s') : PoolLock s' := by
  cases hs with
  | start req s' hs => apply h.start hs
  | caller k s' hs => apply h.caller hs
  | worker t s' hs => apply h.worker hs
  | manager m timedOut s' hs => apply h.manager_step hs

end PoolLock

end Pool
