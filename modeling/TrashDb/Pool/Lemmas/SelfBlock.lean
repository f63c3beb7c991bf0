import TrashDb.Pool.Lemmas.Deadlock

/-!
This module contains when `destroy_pool` blocks itself. It keeps `mutexPool` locked while it joins the
threads of one group after the other. A thread that it joins does not return if its task is in a call of
`do_work` that wants to notify the manager, or if it waits for a thread that does so, or for one that
wants to count its group down for `wait_pool`.
-/

namespace Pool

open Function

/--
The section of `do_work` ends with a queue that the manager has to be notified of.
-/
def TGroup.overloadedBy (tg : TGroup) (w : Nat) : Bool :=
  !tg.groupClose && tg.idleThrds.len == 0 &&
    { tg with q := (tg.q.qAppend w).2 }.internalHealthCheck != .well

namespace Sys

/--
`destroy_pool` has `mutexPool` locked.
-/
def closing (s : Sys) : Bool :=
  match s.pool.mutexPool with
  | some (.call k) => (s.calls k).byPool
  | _ => false

def locksPool (s : Sys) (k : Nat) : Bool :=
  match s.calls k with
  | .killManager => s.pool.state == .dead
  | .relock => true
  | _ => false

def overloads (s : Sys) (k : Nat) : Bool :=
  match s.calls k with
  | .offer g w =>
    match s.groups g with
    | none => false
    | some tg => tg.overloadedBy w
  | _ => false

def clearsWait (s : Sys) (t : Nat) : Bool :=
  match s.thrds t with
  | none => false
  | some tt =>
    match s.groups tt.tg with
    | none => false
    | some tg =>
      tt.pc == .grp && tg.q.work.len == 0 && !tg.softKill && tg.groupWait && tg.activeThrds.len == 1

end Sys

def CallPc.notifies : CallPc → Bool
  | .notify _ _ => true
  | _ => false

namespace Nest

/--
`destroy_pool` is called when no other call from outside of the pool is in progress, and there is no
such call before it has returned.
-/
def Alone (x : Nest) : NestAction → Prop
  | .outer (.call .destroyPool) => ∀ k < x.sys.nextCall, x.inside k = none → x.sys.calls k = .returned
  | .outer (.call _) => ∀ k < x.sys.nextCall, (x.sys.calls k).byPool = false
  | _ => True

/--
Nobody wants `mutexPool` when `destroy_pool` locks it, and nobody gets to a place where it is wanted
after that.
-/
def Clear (x : Nest) : NestAction → Prop
  | .outer (.caller k) =>
    (x.sys.locksPool k = true →
      (∀ i < x.sys.nextCall, (x.sys.calls i).notifies = false) ∧
      (∀ t < x.sys.nextThrd, settles (x.sys.thrds t) = false)) ∧
    (x.sys.closing = true → x.sys.overloads k = false)
  | .outer (.worker t) => x.sys.closing = true → x.sys.clearsWait t = false
  | _ => True

instance (x : Nest) : (a : NestAction) → Decidable (x.Alone a)
  | .outer (.call .destroyPool) =>
    inferInstanceAs (Decidable (∀ k < x.sys.nextCall, x.inside k = none → x.sys.calls k = .returned))
  | .outer (.call (.addGroup _ _ _)) | .outer (.call (.destroyGroup _)) | .outer (.call (.doWork _ _))
  | .outer (.call .waitPool) =>
    inferInstanceAs (Decidable (∀ k < x.sys.nextCall, (x.sys.calls k).byPool = false))
  | .outer (.caller _) | .outer (.worker _) | .outer (.manager _ _) => isTrue trivial
  | .inner _ _ _ => isTrue trivial

instance (x : Nest) : (a : NestAction) → Decidable (x.Clear a)
  | .outer (.caller k) =>
    inferInstanceAs (Decidable ((x.sys.locksPool k = true →
      (∀ i < x.sys.nextCall, (x.sys.calls i).notifies = false) ∧
      (∀ t < x.sys.nextThrd, settles (x.sys.thrds t) = false)) ∧
      (x.sys.closing = true → x.sys.overloads k = false)))
  | .outer (.worker t) => inferInstanceAs (Decidable (x.sys.closing = true → x.sys.clearsWait t = false))
  | .outer (.call _) | .outer (.manager _ _) => isTrue trivial
  | .inner _ _ _ => isTrue trivial

/--
`destroy_pool` is in `pthread_join` for a worker that has not returned.
-/
def Joins (x : Nest) (k t : Nat) : Prop :=
  (∃ g ts, x.sys.calls k = .join g (t :: ts) .destroyPool) ∧ x.sys.thrds t ≠ none

/--
The worker that is joined is blocked on `mutexPool`, be it through other threads.
-/
def SelfBlocked (x : Nest) (k t : Nat) : Prop :=
  x.Joins k t ∧ x.Holds (.caller k) .pool ∧
    ∃ q, Relation.ReflTransGen x.Waits (.worker t) q ∧ x.Wants q .pool

end Nest

section

variable {s s' : Sys} {k t : Nat}

theorem closing_iff
    : s.closing = true ↔ ∃ k, s.pool.mutexPool = some (.call k) ∧ (s.calls k).byPool = true := by
  unfold Sys.closing
  split
  . next k hk => simp [hk]
  . next hk =>
    constructor
    . nofun
    . rintro ⟨k, hk', _⟩
      exact absurd hk' (hk k)

theorem closing_start {req : Req} (hheld : PoolHeld s) (hf : Fresh s) (hs : StartStep s req s')
    (hclosing : s'.closing = true)
    : s.closing = true := by
  obtain ⟨k, hk, hpool⟩ := closing_iff.mp hclosing
  have hlock : s.pool.mutexPool = some (.call k) := by
    cases hs <;> exact hk
  have hne : k ≠ s.nextCall := by
    rintro rfl
    have hholds := hheld.call _ hlock
    rw [hf.nextCall_eq_returned] at hholds
    cases hholds
  rw [hs.calls_of_ne hne] at hpool
  exact closing_iff.mpr ⟨k, hlock, hpool⟩

theorem closing_caller (hs : CallStep s k s') (hclosing : s'.closing = true)
    : s.closing = true ∨ s.locksPool k = true := by
  obtain ⟨i, hi, hpool⟩ := closing_iff.mp hclosing
  have hpool' := byPool_caller hs i hpool
  cases hs with
  | killDead hpc hlock hfreed hstate =>
    right
    simp [Sys.locksPool, hpc, hstate]
  | relock hpc =>
    right
    simp [Sys.locksPool, hpc]
  | waitStart before hpc =>
    cases hi
    simp [CallPc.byPool] at hpool
  | block before hpc | endWait before hpc | freePool hpc => cases hi
  | _ =>
    left
    refine closing_iff.mpr ⟨i, ?_, hpool'⟩
    simpa using hi

theorem closing_worker (hs : WorkerStep s t s') (hclosing : s'.closing = true) : s.closing = true := by
  cases hs <;> exact hclosing

theorem closing_manager {m : Nat} (hs : ManagerStep s m s') (hclosing : s'.closing = true)
    : s.closing = true := by
  cases hs with
  | pass hpc | endPass hpc => cases hclosing
  | _ => exact hclosing

theorem notifies_start {req : Req} (hs : StartStep s req s') {i : Nat}
    (hi : (s'.calls i).notifies = true)
    : (s.calls i).notifies = true := by
  cases hs <;>
  . simp only [Sys.startCall, Sys.setCall, update_apply] at hi
    split at hi
    . cases hi
    . exact hi

theorem qAppend_of_ne_success {q q' : Q} {w : Nat} {rc : Rc} (h : q.qAppend w = (rc, q'))
    (hrc : rc ≠ .poolSuccess)
    : q' = q := by
  unfold Q.qAppend at h
  split at h
  . cases h
    rfl
  . cases h
    exact absurd rfl hrc

theorem overloadedBy_of_doWorkSection {g w : Nat} {tg : TGroup}
    (h : s.doWorkSection k g w tg = some s') (hk : (s'.calls k).notifies = true)
    : tg.overloadedBy w = true := by
  simp only [TGroup.overloadedBy, Bool.and_eq_true, Bool.not_eq_true', beq_iff_eq, bne_iff_ne, and_assoc]
  unfold Sys.doWorkSection at h
  split at h
  . cases h
    simp [CallPc.notifies] at hk
  . next hclose =>
    simp only [Bool.not_eq_true] at hclose
    split at h
    . next hpop =>
      refine ⟨hclose, (LL.listPop_eq_none hpop).1, ?_⟩
      split at h
      . next q hq =>
        cases h
        rw [hq]
        intro hwell
        simp [hwell, CallPc.notifies] at hk
      . next rc q hrc hq =>
        cases h
        rw [hq, qAppend_of_ne_success hq hrc]
        intro hwell
        simp [hwell, CallPc.notifies] at hk
    . cases h
    . cases h
      simp [CallPc.notifies] at hk

theorem overloads_of_notifies (hs : s.callStep k = some s') (hk : (s'.calls k).notifies = true)
    (hk' : (s.calls k).notifies = false)
    : s.overloads k = true := by
  cases callStep_of_callStep hs with
  | queue g w tg pc hpc hg hlock | full g w tg pc hpc hg hlock =>
    simp only [Sys.callStep, hpc, hg, hlock, Option.isNone_none, if_true] at hs
    simp only [Sys.overloads, hpc, hg]
    apply overloadedBy_of_doWorkSection hs hk
  | _ => simp_all [CallPc.notifies]

theorem settles_caller (hf : Fresh s) (hs : CallStep s k s') (i : Nat)
    : settles (s'.thrds i) = settles (s.thrds i) := by
  cases hs with
  | spawn g n max tg hpc hg => exact thrds_setThrd rfl (by rw [hf.nextThrd_eq_none]; rfl) i
  | wake g ts by_ tg t rest tt hpc hg hlen hitems htt => exact thrds_setThrd rfl (by rw [htt]; rfl) i
  | hand g t w tt hpc htt => exact thrds_setThrd rfl (by rw [htt]; rfl) i
  | _ => rfl

theorem settles_manager {m : Nat} (hf : Fresh s) (hs : ManagerStep s m s') (i : Nat)
    : settles (s'.thrds i) = settles (s.thrds i) := by
  cases hs with
  | spawnTask g n gs tg w rest hpc hg | spawnNone g n gs tg hpc hg =>
    exact thrds_setThrd rfl (by rw [hf.nextThrd_eq_none]; rfl) i
  | _ => rfl

theorem settles_worker (hs : WorkerStep s t s') {i : Nat} (hi : settles (s'.thrds i) = true)
    : settles (s.thrds i) = true ∨ s.clearsWait t = true := by
  by_cases hit : i = t
  . subst hit
    cases hs with
    | goIdle tt tg wait htt hpc hg hlock hlen hkill hrun hwait =>
      right
      cases hw : wait with
      | false => simp [settles, hw] at hi
      | true =>
        simp only [hw, Bool.true_eq, Bool.and_eq_true, beq_iff_eq] at hwait
        simp [Sys.clearsWait, htt, hg, hpc, hlen, hkill, hwait]
    | _ => simp [settles] at hi
  . rw [hs.thrds_of_ne hit] at hi
    exact .inl hi

theorem overloads_of_locksPool (h : s.locksPool k = true) : s.overloads k = false := by
  unfold Sys.locksPool at h
  split at h
  . next hpc => simp [Sys.overloads, hpc]
  . next hpc => simp [Sys.overloads, hpc]
  . cases h

end

structure SelfInv (x : Nest) : Prop where
  nest : NestInv x
  alone : ∀ k i, (x.sys.calls k).byPool = true → i ≠ k → x.sys.calls i ≠ .returned → x.inside i ≠ none
  notifies : x.sys.closing = true → ∀ k, (x.sys.calls k).notifies = false
  settles : x.sys.closing = true → ∀ t, settles (x.sys.thrds t) = false

namespace SelfInv

variable {x x' : Nest}

theorem init {maxThrds : Nat} {tp : TPool} (h : TPool.initPool maxThrds = some tp)
    : SelfInv (.init tp) :=
  ⟨.init h, nofun, fun _ _ => rfl, fun _ _ => rfl⟩

theorem inside_of_byPool {k : Nat} (h : SelfInv x) (hk : (x.sys.calls k).byPool = true)
    : x.inside k = none := by
  cases hinside : x.inside k with
  | none => rfl
  | some t =>
    have hne : x.sys.calls k ≠ .returned := by
      intro hpc
      rw [hpc] at hk
      cases hk
    have hwork := (h.nest.inner k t hinside hne).1
    unfold CallPc.doesWork at hwork
    split at hwork <;> simp_all [CallPc.byPool]

theorem lt_of_byPool {k : Nat} (h : SelfInv x) (hk : (x.sys.calls k).byPool = true)
    : k < x.sys.nextCall := by
  apply h.nest.group.fresh.calls k
  intro hpc
  rw [hpc] at hk
  cases hk

theorem alone_start {s' : Sys} {req : Req} (h : SelfInv x) (ha : x.Alone (.outer (.call req)))
    (hs : StartStep x.sys req s')
    : ∀ k i, (s'.calls k).byPool = true → i ≠ k → s'.calls i ≠ .returned → x.inside i ≠ none := by
  intro k i hk hne hi
  by_cases hreq : req = .destroyPool
  . subst hreq
    have hold : ∀ j, x.inside j = none → x.sys.calls j = .returned := by
      intro j hj
      by_contra hret
      exact hret (ha j (h.nest.group.fresh.calls j hret) hj)
    have hnew : k = x.sys.nextCall := by
      by_contra hne
      rw [hs.calls_of_ne hne] at hk
      rw [hold k (h.inside_of_byPool hk)] at hk
      cases hk
    subst hnew
    rw [hs.calls_of_ne hne] at hi
    intro hinside
    exact hi (hold i hinside)
  . have hk' := byPool_start hs hreq hk
    have hnone : (x.sys.calls k).byPool = false := by
      cases req with
      | destroyPool => exact absurd rfl hreq
      | _ => exact ha k (h.lt_of_byPool hk')
    rw [hk'] at hnone
    cases hnone

theorem alone_step {a : NestAction} (h : SelfInv x) (ha : x.Alone a) (hs : x.step a = some x')
    : ∀ k i, (x'.sys.calls k).byPool = true → i ≠ k → x'.sys.calls i ≠ .returned →
        x'.inside i ≠ none := by
  obtain ⟨_, ⟨b, s', rfl, hs', rfl⟩ | ⟨t, g, w, s', rfl, hs', rfl⟩⟩ := Nest.step_cases hs
  . intro k i hk hne hi
    cases step_of_step hs' with
    | start req s' hs' => exact h.alone_start ha hs' k i hk hne hi
    | caller j s' hs' =>
      apply h.alone k i (byPool_caller hs' k hk) hne
      by_cases hij : i = j
      . subst hij
        exact hs'.ne_returned
      . rw [← hs'.calls_of_ne hij]
        exact hi
    | worker t s' hs' =>
      rw [hs'.calls_eq] at hk hi
      exact h.alone k i hk hne hi
    | manager m timedOut s' hs' =>
      rw [hs'.calls_eq] at hk hi
      exact h.alone k i hk hne hi
  . have hstart := startStep_of_callStart hs'
    intro k i hk hne hi
    by_cases hnew : i = x.sys.nextCall
    . simp [hnew]
    . rw [hstart.calls_of_ne hnew] at hi
      dsimp only
      rw [update_of_ne hnew]
      exact h.alone k i (byPool_start hstart (by nofun) hk) hne hi

theorem notifies_settles_step {s' : Sys} {a : Action} (h : SelfInv x) (ha : x.Clear (.outer a))
    (hs : x.sys.step a = some s') (hclosing : s'.closing = true)
    : (∀ k, (s'.calls k).notifies = false) ∧ ∀ t, Pool.settles (s'.thrds t) = false := by
  have hf := h.nest.group.fresh
  cases step_of_step hs with
  | start req s' hs' =>
    have hbefore := closing_start h.nest.held hf hs' hclosing
    obtain ⟨_, _, _, hthrds, _⟩ := start_calls hs'
    constructor
    . intro k
      by_contra hk
      rw [Bool.not_eq_false] at hk
      have hk' := notifies_start hs' hk
      rw [h.notifies hbefore k] at hk'
      cases hk'
    . rw [hthrds]
      exact h.settles hbefore
  | caller j s' hs' =>
    obtain ⟨hlocks, hwork⟩ := ha
    -- either way nobody wants the mutex before the step, and the step does not offer too much
    have hbefore : (∀ k, (x.sys.calls k).notifies = false) ∧
        (∀ t, Pool.settles (x.sys.thrds t) = false) ∧ x.sys.overloads j = false := by
      rcases closing_caller hs' hclosing with hb | hb
      . exact ⟨h.notifies hb, h.settles hb, hwork hb⟩
      . refine ⟨?_, ?_, overloads_of_locksPool hb⟩
        . intro k
          by_cases hk : x.sys.calls k = .returned
          . rw [hk]
            rfl
          . exact (hlocks hb).1 k (hf.calls k hk)
        . intro t
          by_cases ht : x.sys.thrds t = none
          . rw [ht]
            rfl
          . exact (hlocks hb).2 t (hf.thrds t ht)
    obtain ⟨hnotifies, hsettles, hover⟩ := hbefore
    constructor
    . intro k
      by_cases hkj : k = j
      . subst hkj
        by_contra hk
        rw [Bool.not_eq_false] at hk
        have hover' := overloads_of_notifies hs hk (hnotifies k)
        rw [hover] at hover'
        cases hover'
      . rw [hs'.calls_of_ne hkj]
        exact hnotifies k
    . intro t
      rw [settles_caller hf hs']
      exact hsettles t
  | worker j s' hs' =>
    have hbefore := closing_worker hs' hclosing
    constructor
    . rw [hs'.calls_eq]
      exact h.notifies hbefore
    . intro t
      by_contra ht
      rw [Bool.not_eq_false] at ht
      rcases settles_worker hs' ht with ht' | hsettles
      . rw [h.settles hbefore t] at ht'
        cases ht'
      . rw [ha hbefore] at hsettles
        cases hsettles
  | manager m timedOut s' hs' =>
    have hbefore := closing_manager hs' hclosing
    constructor
    . rw [hs'.calls_eq]
      exact h.notifies hbefore
    . intro t
      rw [settles_manager hf hs']
      exact h.settles hbefore t

theorem step {a : NestAction} (h : SelfInv x) (ha : x.Alone a) (hc : x.Clear a)
    (hs : x.step a = some x')
    : SelfInv x' := by
  have hclear : x'.sys.closing = true → (∀ k, (x'.sys.calls k).notifies = false) ∧
      ∀ t, Pool.settles (x'.sys.thrds t) = false := by
    obtain ⟨_, ⟨b, s', rfl, hs', rfl⟩ | ⟨t, g, w, s', rfl, hs', rfl⟩⟩ := Nest.step_cases hs
    . exact h.notifies_settles_step hc hs'
    . exact h.notifies_settles_step (a := .call (.doWork g w)) trivial hs'
  exact ⟨h.nest.step hs, h.alone_step ha hs, fun hx => (hclear hx).1, fun hx => (hclear hx).2⟩

theorem not_selfBlocked (h : SelfInv x) (k t : Nat) : ¬ x.SelfBlocked k t := by
  rintro ⟨⟨⟨g, ts, hpc⟩, _⟩, _, q, hpath, hwants⟩
  have hpool : (x.sys.calls k).byPool = true := by
    rw [hpc]
    rfl
  have hclosing : x.sys.closing = true :=
    closing_iff.mpr ⟨k, h.nest.group.lock.call k (by rw [hpc]; rfl), hpool⟩
  rcases wants_cases hwants with ⟨i, hq, hi⟩ | ⟨i, rfl, hi⟩ | ⟨m, rfl, hm⟩
  . have hne : i ≠ k := by
      rintro rfl
      simp [Sys.callWants, hpc] at hi
    have hret : x.sys.calls i ≠ .returned := by
      intro hret
      simp [Sys.callWants, hret] at hi
    obtain ⟨t', hinside⟩ := Option.ne_none_iff_exists'.mp (h.alone k i hpool hne hret)
    have hwork := (h.nest.inner i t' hinside hret).1
    have hnotify := h.notifies hclosing i
    unfold CallPc.doesWork at hwork
    split at hwork <;> simp_all [Sys.callWants, CallPc.notifies]
  . have hdecr := h.settles hclosing i
    simp only [Sys.workerWants] at hi
    split at hi
    . cases hi
    . next tt htt =>
      rw [htt] at hdecr
      split at hi <;> simp_all [Pool.settles]
  . have hwait : x.sys.managers m = .wait := by
      unfold Sys.managerWants at hm
      split at hm
      . next hwait => exact hwait
      . cases hm
      . cases hm
    rcases Relation.ReflTransGen.cases_tail hpath with heq | ⟨p, _, l, _, hholds⟩
    . cases heq
    . cases h.nest.held_of_holds hholds with
      | poolManager _ hm' => simp [hwait, ManagerPc.holdsPool] at hm'
      | grpManager _ g' hm' => simp [hwait, ManagerPc.holdsGroup] at hm'

end SelfInv

theorem not_selfBlocked_of_clear {maxThrds : Nat} {tp : TPool} {as : List NestAction} {x : Nest}
    (hinit : TPool.initPool maxThrds = some tp)
    (hclear : Lts.Along Nest.step (fun x a => x.Alone a ∧ x.Clear a) (.init tp) as)
    (hrun : Lts.run Nest.step (.init tp) as = some x)
    : ∀ k t, ¬ x.SelfBlocked k t := by
  have hinv : SelfInv x := by
    refine Lts.invariant_along ?_ (.init hinit) hclear hrun
    intro x a x' h ⟨ha, hc⟩ hs
    exact h.step ha hc hs
  exact hinv.not_selfBlocked

/--
Two groups of one thread each; the pool is destroyed while the first thread calls its task.
-/
def joinRun : List NestAction := .outer (.call (.addGroup 1 1 0)) ::
    List.replicate 5 (.outer (.caller 0)) ++ .outer (.call (.addGroup 1 1 0)) ::
    List.replicate 5 (.outer (.caller 1)) ++ .outer (.call (.doWork 0 7)) ::
    List.replicate 3 (.outer (.caller 2)) ++ List.replicate 3 (.outer (.worker 0)) ++
    [.outer (.call .destroyPool), .outer (.caller 3), .outer (.caller 3),
      .outer (.manager 0 false)] ++ List.replicate 5 (.outer (.caller 3))

theorem not_selfBlocked_join
    : ∃ tp x, TPool.initPool 4 = some tp ∧
        Lts.run Nest.step (.init tp) (.outer (.call (.addGroup 1 1 0)) ::
          List.replicate 5 (.outer (.caller 0)) ++ .outer (.call (.addGroup 1 1 0)) ::
          List.replicate 5 (.outer (.caller 1)) ++ .outer (.call (.doWork 0 7)) ::
          List.replicate 3 (.outer (.caller 2)) ++ List.replicate 3 (.outer (.worker 0)) ++
          [.outer (.call .destroyPool), .outer (.caller 3), .outer (.caller 3),
            .outer (.manager 0 false)] ++ List.replicate 5 (.outer (.caller 3))) = some x ∧
        x.Joins 3 0 ∧ ∀ k t, ¬ x.SelfBlocked k t := by
  refine ⟨_, _, rfl, rfl, ⟨⟨0, [], rfl⟩, by nofun⟩, ?_⟩
  exact @not_selfBlocked_of_clear 4 _ joinRun _ rfl (by decide) rfl

/--
The task of the joined thread calls `do_work` for the second group, which has no idle thread.
-/
theorem selfBlocked_inner_call
    : ¬ ∀ maxThrds tp as x, TPool.initPool maxThrds = some tp →
        Lts.Along Nest.step Nest.Alone (.init tp) as →
        Lts.run Nest.step (.init tp) as = some x → ∀ k t, ¬ x.SelfBlocked k t := by
  intro h
  refine h 4 _ (joinRun ++ [.inner 0 1 8, .outer (.caller 4)]) _ rfl (by decide) rfl 3 0 ?_
  exact ⟨⟨⟨0, [], rfl⟩, by nofun⟩, .poolCall 3 rfl, .worker 0, .refl, .call 4 .pool rfl⟩

end Pool
