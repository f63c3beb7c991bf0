import TrashDb.Pool.Lemmas.Locks

/-!
This module contains the life of the manager threads. A manager is created by an `add_group` that
finds the counter of the group list at 0 and it leaves when `destroy_pool` asks it to. There is one
manager at most as long as the counter is not at 0 again once a manager was created.
-/

namespace Pool

/--
The call is one of `destroy_pool` that has joined the manager, or has found that there is none.
-/
def CallPc.joined : CallPc → Bool
  | .relock | .popGroups => true
  | .close _ by_ | .wake _ _ by_ | .join _ _ by_ => by_ == .destroyPool
  | _ => false

theorem CallPc.relock_or_holdsPool {pc : CallPc} (h : pc.joined = true)
    : pc = .relock ∨ pc.holdsPool = true := by
  unfold joined at h
  split at h
  . exact .inl rfl
  . exact .inr rfl
  . exact .inr h
  . exact .inr h
  . exact .inr h
  . cases h

def CallPc.offers : CallPc → Bool
  | .offer _ _ | .notify _ _ => true
  | _ => false

def CallPc.charges : CallPc → Bool
  | .addCharge _ _ => true
  | _ => false

/--
An `add_group` that is about to create a manager is the first to do so.
-/
def FirstManager (s : Sys) : Action → Prop
  | .caller k => (s.calls k).charges = true → s.pool.groups.len = 0 → s.pool.state = .dead
  | _ => True

instance (s : Sys) : (a : Action) → Decidable (FirstManager s a)
  | .caller _ => inferInstanceAs (Decidable (_ → _ → _))
  | .call _ | .worker _ | .manager _ _ => isTrue trivial

structure ManagerInv (s : Sys) : Prop where
  fresh : ∀ m, s.managers m ≠ .exited → m < s.nextManager
  le : s.nextManager ≤ 1
  dead : s.pool.state = .dead ↔ s.nextManager = 0
  manager : s.pool.manager = if s.nextManager = 0 then none else some 0
  linked : s.pool.groups.len ≠ 0 → s.nextManager = 1
  published : s.published ≠ [] → s.nextManager = 1
  offers : ∀ k, (s.calls k).offers = true → s.nextManager = 1
  joining : ∀ k m, s.calls k = .joinManager m → m = 0 ∧ s.nextManager = 1
  relock : ∀ k, s.calls k = .relock → s.nextManager = 1
  joined : ∀ k, (s.calls k).joined = true → s.managers 0 = .exited
  freed : s.pool.freed = true → s.managers 0 = .exited

namespace ManagerInv

variable {s s' : Sys} {k m : Nat}

theorem init {maxThrds : Nat} {tp : TPool} (h : TPool.initPool maxThrds = some tp)
    : ManagerInv (.init tp) := by
  unfold TPool.initPool at h
  split at h
  . cases h
  . cases h
    constructor <;> simp [Sys.init, LL.initList, CallPc.offers, CallPc.joined]

theorem setCall {p : CallPc} (h : ManagerInv s) (hcalls : s'.calls = Function.update s.calls k p)
    (hmanagers : s'.managers = s.managers) (hnext : s'.nextManager = s.nextManager)
    (hpublished : s'.published = s.published) (hmanager : s'.pool.manager = s.pool.manager)
    (hstate : s'.pool.state = .dead ↔ s.pool.state = .dead)
    (hlen : s'.pool.groups.len ≠ 0 → s.pool.groups.len ≠ 0)
    (hfreed : s'.pool.freed = true → s.pool.freed = true ∨ (s.calls k).joined = true)
    (hoffers : p.offers = true → s.nextManager = 1)
    (hjoining : ∀ m, p = .joinManager m → m = 0 ∧ s.nextManager = 1)
    (hrelock : p = .relock → s.nextManager = 1)
    (hjoined : p.joined = true → s.managers 0 = .exited)
    : ManagerInv s' := by
  constructor
  . rw [hmanagers, hnext]
    apply h.fresh
  . rw [hnext]
    apply h.le
  . rw [hnext, hstate]
    apply h.dead
  . rw [hnext, hmanager]
    apply h.manager
  . rw [hnext]
    intro hne
    apply h.linked (hlen hne)
  . rw [hnext, hpublished]
    apply h.published
  . intro i hi
    rw [hcalls, Function.update_apply] at hi
    rw [hnext]
    split at hi
    . apply hoffers hi
    . apply h.offers i hi
  . intro i m hi
    rw [hcalls, Function.update_apply] at hi
    rw [hnext]
    split at hi
    . apply hjoining m hi
    . apply h.joining i m hi
  . intro i hi
    rw [hcalls, Function.update_apply] at hi
    rw [hnext]
    split at hi
    . apply hrelock hi
    . apply h.relock i hi
  . intro i hi
    rw [hcalls, Function.update_apply] at hi
    rw [hmanagers]
    split at hi
    . apply hjoined hi
    . apply h.joined i hi
  . rw [hmanagers]
    intro hf
    rcases hfreed hf with hf | hf
    . apply h.freed hf
    . apply h.joined k hf

theorem setCall_quiet {p : CallPc} (h : ManagerInv s)
    (hcalls : s'.calls = Function.update s.calls k p) (hmanagers : s'.managers = s.managers)
    (hnext : s'.nextManager = s.nextManager) (hpublished : s'.published = s.published)
    (hmanager : s'.pool.manager = s.pool.manager)
    (hstate : s'.pool.state = s.pool.state) (hlen : s'.pool.groups.len ≠ 0 → s.pool.groups.len ≠ 0)
    (hfreed : s'.pool.freed = s.pool.freed) (hoffers : p.offers = true → (s.calls k).offers = true)
    (hjoining : ∀ m, p ≠ .joinManager m) (hrelock : p ≠ .relock)
    (hjoined : p.joined = true → (s.calls k).joined = true)
    : ManagerInv s' := by
  refine h.setCall hcalls hmanagers hnext hpublished hmanager (by rw [hstate]) hlen ?_ ?_ ?_ ?_ ?_
  . rw [hfreed]
    exact .inl
  . intro hpc
    apply h.offers k (hoffers hpc)
  . intro m hpc
    exact absurd hpc (hjoining m)
  . intro hpc
    exact absurd hpc hrelock
  . intro hpc
    apply h.joined k (hjoined hpc)

theorem exited_of_eq_zero (h : ManagerInv s) (hnext : s.nextManager = 0) : s.managers m = .exited := by
  by_contra hm
  have := h.fresh m hm
  omega

theorem start {req : Req} (h : ManagerInv s) (hs : StartStep s req s') : ManagerInv s' := by
  cases hs with
  | doWork g w hg =>
    refine h.setCall rfl rfl rfl rfl rfl Iff.rfl id .inl ?_ (by nofun) (by nofun) (by nofun)
    intro _
    apply h.published
    rintro hnil
    rw [hnil] at hg
    cases hg
  | _ =>
    exact h.setCall rfl rfl rfl rfl rfl Iff.rfl id .inl (by nofun) (by nofun) (by nofun) (by nofun)

theorem chargeFirst {g max : Nat} (h : ManagerInv s) (hlock : PoolLock s)
    (hmutex : s.pool.mutexPool = none) (hfreed : s.pool.freed = false)
    (hlen : s.pool.groups.len = 0) (hstate : s.pool.state = .dead)
    : ManagerInv
        (({ s.setPool (s.pool.addGroupCharge g max s.nextManager) with
          published := g :: s.published
          nextManager := s.nextManager + 1 }.setManager s.nextManager .wait).setCall k .returned) := by
  have hnext := h.dead.mp hstate
  have hne : ∀ i, (s.calls i).joined = false := by
    intro i
    by_contra hi
    have hi : (s.calls i).joined = true := by simpa using hi
    rcases CallPc.relock_or_holdsPool hi with hpc | hpc
    . have := h.relock i hpc
      omega
    . rw [hlock.call i hpc] at hmutex
      cases hmutex
  constructor
  . intro m hm
    simp only [Sys.setCall, Sys.setManager, Function.update_apply] at hm ⊢
    split at hm
    . omega
    . exact absurd (h.exited_of_eq_zero hnext) hm
  . simp [hnext]
  . simp [hnext, TPool.addGroupCharge, hlen]
  . simp [hnext, TPool.addGroupCharge, hlen]
  . simp [hnext]
  . simp [hnext]
  . simp [hnext]
  . intro i m hi
    simp only [Sys.setCall, Sys.setManager, Function.update_apply] at hi ⊢
    split at hi
    . cases hi
    . have := h.joining i m hi
      omega
  . simp [hnext]
  . intro i hi
    simp only [Sys.setCall, Sys.setManager, Function.update_apply] at hi
    split at hi
    . cases hi
    . simp [hne] at hi
  . simp [hfreed]

theorem charge {g max : Nat} (h : ManagerInv s) (hlen : s.pool.groups.len ≠ 0)
    : ManagerInv
        ({ s.setPool (s.pool.addGroupCharge g max s.nextManager) with
          published := g :: s.published }.setCall k .returned) := by
  have hq : ManagerInv (s.setCall k .returned) :=
    h.setCall_quiet rfl rfl rfl rfl rfl rfl id rfl (by nofun) (by nofun) (by nofun) (by nofun)
  have hpool : s.pool.addGroupCharge g max s.nextManager =
      { s.pool with
        groups := s.pool.groups.listAppend g
        totalThrds := Word.add32 s.pool.totalThrds max } := by
    simp [TPool.addGroupCharge, hlen]
  rw [hpool]
  have hnext := h.linked hlen
  exact ⟨hq.fresh, hq.le, hq.dead, hq.manager, fun _ => hnext, fun _ => hnext, hq.offers, hq.joining,
    hq.relock, hq.joined, hq.freed⟩

theorem caller (h : ManagerInv s) (hlock : PoolLock s) (hfirst : FirstManager s (.caller k))
    (hs : CallStep s k s')
    : ManagerInv s' := by
  cases hs with
  | chargeFirst g max hpc hmutex hfreed hlen =>
    have hstate := hfirst (by rw [hpc]; rfl) hlen
    exact h.chargeFirst hlock hmutex hfreed hlen hstate
  | charge g max hpc hmutex hfreed hlen => exact h.charge hlen
  | wake =>
    exact ⟨h.fresh, h.le, h.dead, h.manager, h.linked, h.published, h.offers, h.joining, h.relock,
      h.joined, h.freed⟩
  | refund g tg hpc =>
    refine h.setCall_quiet (p := .returned) rfl rfl rfl rfl rfl rfl ?_ rfl (by nofun) (by nofun)
      (by nofun) (by nofun)
    simp only [Sys.setCall, Sys.freeGroup, Sys.setPool, TPool.refund_groups]
    omega
  | killDead hpc hmutex hfreed hstate =>
    refine h.setCall (p := .popGroups) rfl rfl rfl rfl rfl Iff.rfl id .inl (by nofun) (by nofun)
      (by nofun) ?_
    intro _
    apply h.exited_of_eq_zero (h.dead.mp hstate)
  | kill hpc hmutex hstate =>
    refine h.setCall (p := .readManager) rfl rfl rfl rfl rfl ?_ id .inl (by nofun) (by nofun)
      (by nofun) (by nofun)
    simp [hstate]
  | readManager m hpc hm =>
    refine h.setCall (p := .joinManager m) rfl rfl rfl rfl rfl Iff.rfl id .inl (by nofun) ?_
      (by nofun) (by nofun)
    rintro m' ⟨⟩
    rw [h.manager] at hm
    split at hm
    . cases hm
    . cases hm
      have := h.le
      exact ⟨rfl, by omega⟩
  | joinManager m hpc hm =>
    obtain ⟨rfl, hnext⟩ := h.joining k m hpc
    exact h.setCall rfl rfl rfl rfl rfl Iff.rfl id .inl (by nofun) (by nofun) (fun _ => hnext)
      (fun _ => hm)
  | popGroup g rest hpc hlen =>
    refine h.setCall_quiet (p := .close g .destroyPool) rfl rfl rfl rfl rfl rfl ?_ rfl (by nofun)
      (by nofun) (by nofun) ?_
    . intro _
      exact hlen
    . simp [hpc, CallPc.joined]
  | freePool hpc hlen =>
    refine h.setCall (p := .returned) rfl rfl rfl rfl rfl Iff.rfl id ?_ (by nofun) (by nofun)
      (by nofun) (by nofun)
    simp [hpc, CallPc.joined]
  | notify w rc hpc =>
    refine h.setCall (p := .done w rc) rfl rfl rfl rfl rfl ?_ id .inl (by nofun) (by nofun)
      (by nofun) (by nofun)
    have := h.offers k (by simp [hpc, CallPc.offers])
    simp [h.dead, this]
  | queue g w tg pc hpc hg hmutex hclose hidle hfull hnext =>
    refine h.setCall_quiet (p := pc) rfl rfl rfl rfl rfl rfl id rfl ?_ ?_ ?_ ?_ <;>
      rcases hnext with rfl | rfl <;> simp [hpc, CallPc.offers, CallPc.joined]
  | full g w tg pc hpc hg hmutex hclose hidle hfull hnext =>
    refine h.setCall_quiet (p := pc) rfl rfl rfl rfl rfl rfl id rfl ?_ ?_ ?_ ?_ <;>
      rcases hnext with rfl | rfl <;> simp [hpc, CallPc.offers, CallPc.joined]
  | close g by_ tg hpc =>
    exact h.setCall_quiet rfl rfl rfl rfl rfl rfl id rfl (by nofun) (by nofun) (by nofun)
      (by simp [hpc, CallPc.joined])
  | endWake g ts by_ tg hpc =>
    exact h.setCall_quiet rfl rfl rfl rfl rfl rfl id rfl (by nofun) (by nofun) (by nofun)
      (by simp [hpc, CallPc.joined])
  | join g t ts by_ hpc =>
    exact h.setCall_quiet rfl rfl rfl rfl rfl rfl id rfl (by nofun) (by nofun) (by nofun)
      (by simp [hpc, CallPc.joined])
  | endJoinPool g tg hpc =>
    exact h.setCall_quiet rfl rfl rfl rfl rfl rfl id rfl (by nofun) (by nofun) (by nofun)
      (by simp [hpc, CallPc.joined])
  | relock hpc =>
    exact h.setCall_quiet rfl rfl rfl rfl rfl rfl id rfl (by nofun) (by nofun) (by nofun)
      (by simp [hpc, CallPc.joined])
  | block before hpc =>
    exact h.setCall_quiet rfl rfl rfl rfl rfl rfl id rfl (by nofun) (by nofun) (by nofun) (by nofun)
  | endWait before hpc =>
    exact h.setCall_quiet rfl rfl rfl rfl rfl rfl id rfl (by nofun) (by nofun) (by nofun) (by nofun)
  | _ =>
    exact h.setCall_quiet rfl rfl rfl rfl rfl rfl id rfl (by nofun) (by nofun) (by nofun) (by nofun)

theorem worker {t : Nat} (h : ManagerInv s) (hs : WorkerStep s t s') : ManagerInv s' := by
  cases hs <;>
    exact ⟨h.fresh, h.le, h.dead, h.manager, h.linked, h.published, h.offers, h.joining, h.relock,
      h.joined, h.freed⟩

theorem setManager {pc : ManagerPc} (h : ManagerInv s) (halive : s.managers m ≠ .exited)
    (hmanagers : s'.managers = Function.update s.managers m pc)
    (hpool : s'.pool = s.pool ∨
      (s'.pool.manager = s.pool.manager ∧ s'.pool.state ≠ .dead ∧ s'.pool.freed = s.pool.freed ∧
        s'.pool.groups = s.pool.groups))
    (hnext : s'.nextManager = s.nextManager) (hcalls : s'.calls = s.calls)
    : ManagerInv s' := by
  have hm := h.fresh m halive
  have hle := h.le
  obtain rfl : m = 0 := by omega
  have hpos : s.nextManager = 1 := by omega
  have hmanager : s'.pool.manager = some 0 ∧ s'.pool.state ≠ .dead ∧
      s'.pool.freed = s.pool.freed := by
    rcases hpool with hpool | ⟨hmanager, hstate, hfreed, _⟩
    . rw [hpool, h.manager]
      simp [hpos, h.dead]
    . rw [hmanager, h.manager]
      simp [hpos, hstate, hfreed]
  have hjoined : ∀ i, (s.calls i).joined = false := by
    intro i
    by_contra hi
    apply halive (h.joined i (by simpa using hi))
  constructor
  . intro i hi
    rw [hmanagers, Function.update_apply] at hi
    rw [hnext]
    split at hi
    . omega
    . apply h.fresh i hi
  . rw [hnext]
    exact hle
  . simp [hnext, hpos, hmanager]
  . simp [hnext, hpos, hmanager]
  . simp [hnext, hpos]
  . simp [hnext, hpos]
  . simp [hnext, hpos]
  . rw [hcalls, hnext]
    apply h.joining
  . simp [hnext, hpos]
  . intro i hi
    rw [hcalls, hjoined i] at hi
    cases hi
  . intro hf
    rw [hmanager.2.2] at hf
    exact absurd (h.freed hf) halive

theorem manager_step (h : ManagerInv s) (hs : ManagerStep s m s') : ManagerInv s' := by
  cases hs with
  | stay => exact h
  | pass hpc hmutex hfreed hkill hwait =>
    have hm := h.fresh m (by simp [hpc])
    have hstate : s.pool.state ≠ .dead := by
      rw [ne_eq, h.dead]
      omega
    exact h.setManager (by simp [hpc]) rfl (.inr ⟨rfl, hstate, rfl, rfl⟩) rfl rfl
  | endPass hpc => exact h.setManager (by simp [hpc]) rfl (.inr ⟨rfl, by nofun, rfl, rfl⟩) rfl rfl
  | exit hpc => exact h.setManager (by simp [hpc]) rfl (.inl rfl) rfl rfl
  | look g gs tg hpc => exact h.setManager (by simp [hpc]) rfl (.inl rfl) rfl rfl
  | spawnTask g n gs tg w rest hpc => exact h.setManager (by simp [hpc]) rfl (.inl rfl) rfl rfl
  | spawnNone g n gs tg hpc => exact h.setManager (by simp [hpc]) rfl (.inl rfl) rfl rfl
  | endSpawn g gs tg hpc => exact h.setManager (by simp [hpc]) rfl (.inl rfl) rfl rfl

theorem step {a : Action} (h : ManagerInv s) (hlock : PoolLock s) (hfirst : FirstManager s a)
    (hs : Step s a s')
    : ManagerInv s' := by
  cases hs with
  | start req s' hs => apply h.start hs
  | caller k s' hs => apply h.caller hlock hfirst hs
  | worker t s' hs => apply h.worker hs
  | manager m timedOut s' hs => apply h.manager_step hs

end ManagerInv

structure SingleManager (s : Sys) : Prop where
  unique : ∀ m m', s.managers m ≠ .exited → s.managers m' ≠ .exited → m = m'
  identified : ∀ m, s.managers m ≠ .exited → s.pool.manager = some m
  joined : s.pool.freed = true → ∀ m, s.managers m = .exited

theorem ManagerInv.singleManager {s : Sys} (h : ManagerInv s) : SingleManager s := by
  have hle := h.le
  constructor
  . intro m m' hm hm'
    have := h.fresh m hm
    have := h.fresh m' hm'
    omega
  . intro m hm
    have := h.fresh m hm
    obtain rfl : m = 0 := by omega
    rw [h.manager, if_neg (by omega)]
  . intro hf m
    by_contra hm
    have := h.fresh m hm
    obtain rfl : m = 0 := by omega
    apply hm (h.freed hf)

theorem singleManager_of_firstManager {maxThrds : Nat} {tp : TPool} {as : List Action} {s : Sys}
    (hinit : TPool.initPool maxThrds = some tp)
    (hfirst : Lts.Along Sys.step FirstManager (.init tp) as) (hrun : run (.init tp) as = some s)
    : SingleManager s := by
  have hinv : PoolLock s ∧ ManagerInv s := by
    refine Lts.invariant_along (I := fun s => PoolLock s ∧ ManagerInv s) ?_
      ⟨PoolLock.init tp, ManagerInv.init hinit⟩ hfirst hrun
    intro s a s' h hP hs
    have hs := step_of_step hs
    exact ⟨h.1.step hs, h.2.step h.1 hP hs⟩
  exact hinv.2.singleManager

theorem singleManager_first_group
    : ∃ tp s, TPool.initPool 4 = some tp ∧
        run (.init tp) (.call (.addGroup 1 2 0) :: List.replicate 5 (.caller 0)) = some s ∧
        SingleManager s ∧ s.managers 0 = .wait := by
  refine ⟨_, _, rfl, rfl, ?_, rfl⟩
  exact @singleManager_of_firstManager 4 _
    (.call (.addGroup 1 2 0) :: List.replicate 5 (.caller 0)) _ rfl (by decide) rfl

theorem not_singleManager_second_first_group
    : ¬ ∀ maxThrds tp as s, TPool.initPool maxThrds = some tp → run (.init tp) as = some s →
        SingleManager s := by
  intro h
  have hs := h 4 _
    (.call (.addGroup 1 2 0) :: List.replicate 5 (.caller 0) ++
      .call (.destroyGroup 0) :: List.replicate 3 (.caller 1) ++
      List.replicate 3 (.worker 0) ++ List.replicate 3 (.caller 1) ++
      .call (.addGroup 1 2 0) :: List.replicate 5 (.caller 2))
    _ rfl rfl
  exact absurd (hs.unique 0 1 (by decide) (by decide)) (by decide)

end Pool
