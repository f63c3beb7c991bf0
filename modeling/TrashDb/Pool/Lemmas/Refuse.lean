import TrashDb.Pool.Lemmas.Once

/-!
This module contains that the queue of a group never exceeds its capacity, although `q_full` only
tests for equality, and what `do_work` returns: the state of the group when the call has `mutexGrp`
decides it. A call that does not return `POOL_SUCCESS` changes no group and no thread, and its work is
linked nowhere until it returns, so that it can be given to another call afterwards.
-/

namespace Pool

open Function

structure TGroup.Within (tg : TGroup) : Prop where
  exact : tg.q.work.len = tg.q.work.items.length
  bound : tg.q.work.len ≤ tg.q.capacity

def Within (s : Sys) : Prop := ∀ g tg, s.groups g = some tg → tg.Within

namespace Within

variable {s s' : Sys} {k g t : Nat}

theorem init (tp : TPool) : Within (.init tp) := by
  intro g tg hg
  cases hg

theorem frame (h : Within s) (hkeeps : Keeps TGroup.q s s') : Within s' := by
  intro g tg' hg'
  obtain ⟨tg, hg, hq⟩ := hkeeps g tg' hg'
  have hold := h g tg hg
  constructor
  . rw [hq, hold.exact]
  . rw [hq]
    exact hold.bound

theorem replace {tg : TGroup} (h : Within s) (hgroups : s'.groups = update s.groups g (some tg))
    (htg : tg.Within)
    : Within s' := by
  intro i tgi hi
  rcases setGroup_cases hgroups hi with ⟨_, rfl⟩ | ⟨_, hi⟩
  . exact htg
  . exact h i tgi hi

theorem append {tg tg' : TGroup} {w : Nat} (h : tg.Within) (hfull : tg.q.work.len ≠ tg.q.capacity)
    (hq : tg'.q = { tg.q with work := tg.q.work.listAppend w })
    : tg'.Within := by
  have hbound := h.bound
  constructor
  . rw [hq]
    apply LL.Coherent.listAppend h.exact w
  . rw [hq, LL.listAppend_len]
    show tg.q.work.len + 1 ≤ tg.q.capacity
    omega

theorem fetch {tg tg' : TGroup} {w : Nat} {rest : List Nat} (h : tg.Within)
    (hitems : tg.q.work.items = w :: rest)
    (hq : tg'.q = { tg.q with work := ⟨rest, tg.q.work.len - 1⟩ })
    : tg'.Within := by
  have hexact := h.exact
  have hbound := h.bound
  rw [hitems, List.length_cons] at hexact
  constructor
  . rw [hq]
    show tg.q.work.len - 1 = rest.length
    omega
  . rw [hq]
    show tg.q.work.len - 1 ≤ tg.q.capacity
    omega

theorem caller (h : Within s) (hs : CallStep s k s') : Within s' := by
  cases hs with
  | build min max flags hpc => exact h.replace rfl ⟨rfl, Nat.zero_le _⟩
  | spawn g n max tg hpc hg => exact h.frame (keeps_setGroup rfl hg rfl)
  | endSpawn g max tg hpc hg => exact h.frame (keeps_setGroup rfl hg rfl)
  | close g by_ tg hpc hg => exact h.frame (keeps_setGroup rfl hg rfl)
  | wake g ts by_ tg t rest tt hpc hg => exact h.frame (keeps_setGroup rfl hg rfl)
  | endWake g ts by_ tg hpc hg => exact h.frame (keeps_setGroup rfl hg rfl)
  | endJoinPool g tg hpc hg => exact h.frame (keeps_freeGroup rfl)
  | refund g tg hpc hg => exact h.frame (keeps_freeGroup rfl)
  | queue g w tg pc hpc hg hlock hclose hidle hfull =>
    exact h.replace rfl (append (h g tg hg) hfull rfl)
  | reserve g w tg t rest hpc hg => exact h.frame (keeps_setGroup rfl hg rfl)
  | flag g gs before tg hpc hg => exact h.frame (keeps_setGroup rfl hg rfl)
  | _ => exact h.frame (keeps_of_eq rfl)

theorem worker (h : Within s) (hs : WorkerStep s t s') : Within s' := by
  cases hs with
  | fetch tt tg w rest ht hpc hg hlock hlen hitems =>
    exact h.replace rfl (fetch (h tt.tg tg hg) hitems rfl)
  | goIdle tt tg wait ht hpc hg => exact h.frame (keeps_setGroup rfl hg rfl)
  | leave tt tg ht hpc hg => exact h.frame (keeps_setGroup rfl hg rfl)
  | _ => exact h.frame (keeps_of_eq rfl)

theorem manager {m : Nat} (h : Within s) (hs : ManagerStep s m s') : Within s' := by
  cases hs with
  | look g gs tg hpc hg => exact h.frame (keeps_setGroup rfl hg rfl)
  | spawnTask g n gs tg w rest hpc hg hlen hitems => exact h.replace rfl (fetch (h g tg hg) hitems rfl)
  | spawnNone g n gs tg hpc hg => exact h.frame (keeps_setGroup rfl hg rfl)
  | endSpawn g gs tg hpc hg => exact h.frame (keeps_setGroup rfl hg rfl)
  | _ => exact h.frame (keeps_of_eq rfl)

theorem step {a : Action} (h : Within s) (hs : Step s a s') : Within s' := by
  cases hs with
  | start req s' hs => cases hs <;> exact h.frame (keeps_of_eq rfl)
  | caller k s' hs => apply h.caller hs
  | worker t s' hs => apply h.worker hs
  | manager m timedOut s' hs => apply h.manager hs

end Within

/--
What a call of `do_work` that is past its section is going to return, and the work it is about.
-/
def CallPc.answer : CallPc → Option (Nat × Rc)
  | .hand _ _ w => some (w, .poolSuccess)
  | .notify w rc | .done w rc => some (w, rc)
  | _ => none

structure TGroup.Verdict (tg : TGroup) (rc : Rc) : Prop where
  error : rc = .poolError ↔ tg.groupClose = true
  full : rc = .groupFull ↔
    tg.groupClose = false ∧ tg.idleThrds.items = [] ∧ tg.q.work.items.length = tg.q.capacity
  success : rc = .poolSuccess ↔
    tg.groupClose = false ∧ (tg.idleThrds.items ≠ [] ∨ tg.q.work.items.length ≠ tg.q.capacity)

structure Unlinked (s : Sys) (w : Nat) : Prop where
  queue : ∀ g tg, s.groups g = some tg → w ∉ tg.q.work.items
  hand : ∀ k g t, s.calls k ≠ .hand g t w
  task : ∀ t tt, s.thrds t = some tt → tt.currTask ≠ some w
  finished : w ∉ s.finished

/--
The call `k` can only return `rc`. If it cannot take its next step then it waits for `mutexPool`, or for
the mutex of the thread that it has taken from the idle list.
-/
structure Answers (s : Sys) (k w : Nat) (rc : Rc) : Prop where
  answer : (s.calls k).answer = some (w, rc)
  moves : (∃ s', s.step (.caller k) = some s') ∨ s.pool.unlocked = false ∨
    ∃ g t tt, s.calls k = .hand g t w ∧ s.thrds t = some tt ∧ tt.pc.locked = true

/--
The call `k` does not keep the work, and once it has returned every group takes an offer of it.
-/
structure Rejects (s : Sys) (k w : Nat) : Prop where
  unlinked : Unlinked s w
  groups : ∀ s', s.step (.caller k) = some s' → s'.groups = s.groups
  thrds : ∀ s', s.step (.caller k) = some s' → s'.thrds = s.thrds
  reusable : ∀ s', s.step (.caller k) = some s' → s'.calls k = .returned →
    Unlinked s' w ∧ ∀ g ∈ s'.published, ∃ s'', s'.step (.call (.doWork g w)) = some s''

section

variable {s s' : Sys} {k g w : Nat} {rc : Rc}

theorem coherent_iff {list : LL Nat} (h : list.Coherent) : list.len = 0 ↔ list.items = [] := by
  rw [h, List.length_eq_zero_iff]

theorem verdict_error {tg : TGroup} (hclose : tg.groupClose = true) : tg.Verdict .poolError := by
  constructor <;> simp [hclose]

theorem verdict_full {tg : TGroup} (hclose : tg.groupClose = false) (hidle : tg.idleThrds.items = [])
    (hfull : tg.q.work.items.length = tg.q.capacity)
    : tg.Verdict .groupFull := by
  constructor <;> simp [hclose, hidle, hfull]

theorem verdict_success {tg : TGroup} (hclose : tg.groupClose = false)
    (hroom : tg.idleThrds.items ≠ [] ∨ tg.q.work.items.length ≠ tg.q.capacity)
    : tg.Verdict .poolSuccess := by
  constructor
  . simp [hclose]
  . simp only [reduceCtorEq, false_iff]
    rintro ⟨_, hidle, hfull⟩
    exact hroom.elim (fun h => h hidle) (fun h => h hfull)
  . simp [hclose, hroom]

/--
The calls of `do_work` that have room for the work say so, and the others leave the system as it is.
-/
theorem doWorkSection_spec {tg : TGroup} (hwithin : tg.Within) (hcoherent : tg.idleThrds.Coherent)
    : ∃ s' rc, s.doWorkSection k g w tg = some s' ∧ tg.Verdict rc ∧
        (s'.calls k).answer = some (w, rc) ∧
        (rc ≠ .poolSuccess → s'.groups = s.groups ∧ s'.thrds = s.thrds) := by
  by_cases hclose : tg.groupClose = true
  . refine ⟨_, _, if_pos hclose, verdict_error hclose, ?_, fun _ => ⟨rfl, rfl⟩⟩
    simp [CallPc.answer]
  . unfold Sys.doWorkSection
    rw [if_neg hclose]
    rw [Bool.not_eq_true] at hclose
    cases hitems : tg.idleThrds.items with
    | cons t rest =>
      have hlen : tg.idleThrds.len ≠ 0 := by rw [ne_eq, coherent_iff hcoherent, hitems]; nofun
      have hpop : tg.idleThrds.listPop = (some (.item t), ⟨rest, tg.idleThrds.len - 1⟩) := by
        simp [LL.listPop, LL.emptyList, hlen, hitems]
      rw [hpop]
      refine ⟨_, _, rfl, verdict_success hclose (.inl (by rw [hitems]; nofun)), ?_, absurd rfl⟩
      simp [CallPc.answer]
    | nil =>
      have hlen := (coherent_iff hcoherent).mpr hitems
      have hpop : tg.idleThrds.listPop = (none, tg.idleThrds) := by
        simp [LL.listPop, LL.emptyList, hlen]
      rw [hpop]
      by_cases hfull : tg.q.work.len = tg.q.capacity
      . have happend : tg.q.qAppend w = (.poolError, tg.q) := by simp [Q.qAppend, Q.qFull, hfull]
        rw [hwithin.exact] at hfull
        rw [happend]
        refine ⟨_, _, rfl, verdict_full hclose hitems hfull, ?_, fun _ => ⟨rfl, rfl⟩⟩
        simp only [Sys.setCall, update_self]
        split <;> rfl
      . have happend : tg.q.qAppend w =
            (.poolSuccess, { tg.q with work := tg.q.work.listAppend w }) := by
          simp [Q.qAppend, Q.qFull, hfull]
        rw [hwithin.exact] at hfull
        rw [happend]
        refine ⟨_, _, rfl, verdict_success hclose (.inr hfull), ?_, absurd rfl⟩
        simp only [Sys.setCall, update_self]
        split <;> rfl

theorem answered_cases (hanswer : (s.calls k).answer = some (w, rc)) (hs : CallStep s k s')
    : (∃ g t, ∃ tt : TThread, s.calls k = .hand g t w ∧ rc = .poolSuccess ∧
        s' = Sys.setCall (s.setThrd t { tt with currTask := some w, state := .running }) k (.done w rc)) ∨
      s' = Sys.setCall (s.setPool { s.pool with state := .running }) k (.done w rc) ∨
      (s.calls k = .done w rc ∧ rc = .poolSuccess ∧
        s' = Sys.setCall { s with returned := w :: s.returned } k .returned) ∨
      (s.calls k = .done w rc ∧ rc ≠ .poolSuccess ∧
        s' = Sys.setCall { s with given := s.given.erase w } k .returned) := by
  cases hs with
  | hand g t w' tt hpc =>
    rw [hpc] at hanswer
    cases hanswer
    exact .inl ⟨g, t, tt, hpc, rfl, rfl⟩
  | notify w' rc' hpc =>
    rw [hpc] at hanswer
    cases hanswer
    exact .inr (.inl rfl)
  | success w' hpc =>
    rw [hpc] at hanswer
    cases hanswer
    exact .inr (.inr (.inl ⟨hpc, rfl, rfl⟩))
  | failure w' rc' hpc hrc =>
    rw [hpc] at hanswer
    cases hanswer
    exact .inr (.inr (.inr ⟨hpc, hrc, rfl⟩))
  | block before hpc => rcases hpc with hpc | hpc <;> simp [hpc, CallPc.answer] at hanswer
  | endWait before hpc => rcases hpc with hpc | hpc <;> simp [hpc, CallPc.answer] at hanswer
  | _ => simp [*, CallPc.answer] at hanswer

theorem answer_caller (hanswer : (s.calls k).answer = some (w, rc)) (hs : CallStep s k s')
    : (s'.calls k).answer = some (w, rc) ∨ (s'.calls k = .returned ∧ s.calls k = .done w rc) := by
  obtain ⟨g, t, tt, _, _, rfl⟩ | rfl | ⟨hpc, _, rfl⟩ | ⟨hpc, _, rfl⟩ := answered_cases hanswer hs
  . simp [CallPc.answer]
  . simp [CallPc.answer]
  . exact .inr ⟨by simp, hpc⟩
  . exact .inr ⟨by simp, hpc⟩

theorem answers_of_answer (h : PoolInv s) (hanswer : (s.calls k).answer = some (w, rc))
    : Answers s k w rc := by
  refine ⟨hanswer, ?_⟩
  simp only [Sys.step, Sys.callStep]
  cases hpc : s.calls k with
  | hand g t w' =>
    rw [hpc] at hanswer
    cases hanswer
    obtain ⟨tt, ht, _⟩ := h.threads.hand k g t w hpc
    cases hlock : tt.pc.locked with
    | false =>
      left
      simp [ht, hlock]
    | true => exact .inr (.inr ⟨g, t, tt, rfl, ht, hlock⟩)
  | notify w' rc' =>
    cases hlock : s.pool.unlocked with
    | false => exact .inr (.inl rfl)
    | true => exact .inl ⟨_, if_pos rfl⟩
  | done w' rc' =>
    left
    by_cases hrc : rc' = .poolSuccess
    . exact ⟨_, if_pos hrc⟩
    . exact ⟨_, if_neg hrc⟩
  | _ => simp [hpc, CallPc.answer] at hanswer

theorem unlinked_of_deal (h : PoolInv s) (hdeal : (s.calls k).deal = some (w, false))
    : Unlinked s w := by
  have hnot := Handoff.Once.not_at (v := s.handoff) h.dealt hdeal
  constructor
  . intro g tg hg hw
    apply hnot (.queue g)
    simp only [Handoff.State.At, Sys.handoff, hg, queueOf]
    exact hw
  . intro i g t hi
    apply hnot (.flight i)
    simp only [Handoff.State.At, Sys.handoff, hi, CallPc.flight]
  . intro t tt ht hw
    apply hnot (.task t)
    exact ⟨tt.pc.begun, by simp [Sys.handoff, ht, TThread.task, hw]⟩
  . exact hnot .finished

theorem deal_of_answer (hanswer : (s.calls k).answer = some (w, rc)) (hrc : rc ≠ .poolSuccess)
    : (s.calls k).deal = some (w, false) := by
  cases hpc : s.calls k with
  | hand g t w' =>
    rw [hpc] at hanswer
    cases hanswer
    exact absurd rfl hrc
  | notify w' rc' =>
    rw [hpc] at hanswer
    cases hanswer
    simp [CallPc.deal, hrc]
  | done w' rc' =>
    rw [hpc] at hanswer
    cases hanswer
    simp [CallPc.deal, hrc]
  | _ => simp [hpc, CallPc.answer] at hanswer

theorem refuse_caller (hanswer : (s.calls k).answer = some (w, rc)) (hrc : rc ≠ .poolSuccess)
    (hs : CallStep s k s')
    : s'.groups = s.groups ∧ s'.thrds = s.thrds ∧ s'.finished = s.finished ∧
        (s'.calls k = .returned → s'.given = s.given.erase w) := by
  obtain ⟨_, _, _, _, hsuccess, _⟩ | rfl | ⟨_, hsuccess, _⟩ | ⟨_, _, rfl⟩ := answered_cases hanswer hs
  . exact absurd hsuccess hrc
  . exact ⟨rfl, rfl, rfl, by simp⟩
  . exact absurd hsuccess hrc
  . exact ⟨rfl, rfl, rfl, fun _ => rfl⟩

theorem Unlinked.of_eq (h : Unlinked s w) (hgroups : s'.groups = s.groups) (hthrds : s'.thrds = s.thrds)
    (hfinished : s'.finished = s.finished) (hcalls : ∀ i g t, s'.calls i ≠ .hand g t w)
    : Unlinked s' w := by
  constructor
  . rw [hgroups]
    exact h.queue
  . exact hcalls
  . rw [hthrds]
    exact h.task
  . rw [hfinished]
    exact h.finished

theorem rejects_of_answer (h : PoolInv s) (hanswer : (s.calls k).answer = some (w, rc))
    (hrc : rc ≠ .poolSuccess)
    : Rejects s k w := by
  have hdeal := deal_of_answer hanswer hrc
  have hunlinked := unlinked_of_deal h hdeal
  constructor
  . exact hunlinked
  . intro s' hs
    exact (refuse_caller hanswer hrc (callStep_of_callStep hs)).1
  . intro s' hs
    exact (refuse_caller hanswer hrc (callStep_of_callStep hs)).2.1
  . intro s' hs hreturned
    have hs := callStep_of_callStep hs
    obtain ⟨hgroups, hthrds, hfinished, hgiven⟩ := refuse_caller hanswer hrc hs
    refine ⟨hunlinked.of_eq hgroups hthrds hfinished ?_, ?_⟩
    . intro i g t hi
      by_cases hik : i = k
      . rw [hik, hreturned] at hi
        cases hi
      . rw [hs.calls_of_ne hik] at hi
        exact hunlinked.hand i g t hi
    . intro g hg
      have hw : w ∉ s'.given := by
        rw [hgiven hreturned]
        exact h.dealt.nodup.not_mem_erase
      exact ⟨_, if_pos ⟨hg, hw⟩⟩

/--
The call `k` is past its section. Its number is not used again after it has returned.
-/
structure Answered (k w : Nat) (rc : Rc) (s : Sys) : Prop where
  inv : PoolInv s
  used : k < s.nextCall
  answer : s.calls k = .returned ∨ (s.calls k).answer = some (w, rc)

theorem answered_step {a : Action} (h : Answered k w rc s) (hs : Step s a s') : Answered k w rc s' := by
  refine ⟨h.inv.step hs, Nat.lt_of_lt_of_le h.used (nextCall_le hs), ?_⟩
  cases hs with
  | start req s' hs =>
    rw [hs.calls_of_ne (Nat.ne_of_lt h.used)]
    exact h.answer
  | caller i s' hs =>
    by_cases hik : k = i
    . subst hik
      have hanswer := h.answer.resolve_left hs.ne_returned
      exact (answer_caller hanswer hs).elim .inr (fun hreturned => .inl hreturned.1)
    . rw [hs.calls_of_ne hik]
      exact h.answer
  | worker t s' hs =>
    rw [hs.calls_eq]
    exact h.answer
  | manager m timedOut s' hs =>
    rw [hs.calls_eq]
    exact h.answer

theorem answered_run {bs : List Action} (h : Answered k w rc s) (hrun : run s bs = some s')
    : Answered k w rc s' := by
  refine Lts.invariant_run ?_ h hrun
  intro s a s' h hs
  exact answered_step h (step_of_step hs)

/--
The section of a call of `do_work`, and what holds from then on until the call returns.
-/
structure Decides (s : Sys) (k g w : Nat) (tg : TGroup) (s' : Sys) (rc : Rc) : Prop where
  entered : s.step (.caller k) = some s'
  verdict : tg.Verdict rc
  answers : ∀ bs s₂, run s' bs = some s₂ → s₂.calls k = .returned ∨ Answers s₂ k w rc
  unmoved : rc ≠ .poolSuccess → s'.groups = s.groups ∧ s'.thrds = s.thrds
  rejects : rc ≠ .poolSuccess →
    ∀ bs s₂, run s' bs = some s₂ → s₂.calls k = .returned ∨ Rejects s₂ k w

theorem decides_offer {tg : TGroup} (h : PoolInv s) (hwithin : Within s) (hk : s.calls k = .offer g w)
    (hg : s.groups g = some tg) (hlock : tg.mutexGrp = none)
    : ∃ s' rc, Decides s k g w tg s' rc := by
  obtain ⟨s', rc, hsection, hverdict, hanswer, hunmoved⟩ :=
    doWorkSection_spec (s := s) (k := k) (g := g) (w := w) (hwithin g tg hg) (h.threads.coherent g tg hg).1
  have hs : s.step (.caller k) = some s' := by
    simp only [Sys.step, Sys.callStep, hk, hg, hlock, Option.isNone_none, if_true]
    exact hsection
  have hs' := step_of_step hs
  have hused : k < s.nextCall := h.fresh.calls k (by rw [hk]; nofun)
  have hanswered : Answered k w rc s' :=
    ⟨h.step hs', Nat.lt_of_lt_of_le hused (nextCall_le hs'), .inr hanswer⟩
  refine ⟨s', rc, hs, hverdict, ?_, hunmoved, ?_⟩
  . intro bs s₂ hrun
    have h₂ := answered_run hanswered hrun
    exact h₂.answer.imp_right (answers_of_answer h₂.inv)
  . intro hrc bs s₂ hrun
    have h₂ := answered_run hanswered hrun
    exact h₂.answer.imp_right fun hanswer => rejects_of_answer h₂.inv hanswer hrc

theorem Within.of_run {tp : TPool} {as : List Action} (hrun : run (.init tp) as = some s)
    : Within s := by
  refine Lts.invariant_run ?_ (Within.init tp) hrun
  intro s a s' h hs
  exact h.step (step_of_step hs)

end

theorem decides_of_run {maxThrds : Nat} {tp : TPool} {as : List Action} {s : Sys}
    (hinit : TPool.initPool maxThrds = some tp) (hrun : run (.init tp) as = some s)
    : Within s ∧
        ∀ k g w tg, s.calls k = .offer g w → s.groups g = some tg → tg.mutexGrp = none →
          ∃ s' rc, Decides s k g w tg s' rc := by
  have hwithin := Within.of_run hrun
  refine ⟨hwithin, ?_⟩
  intro k g w tg hk hg hlock
  exact decides_offer (PoolInv.of_run hinit hrun) hwithin hk hg hlock

theorem decides_closed_group
    : ∃ tp s tg s' rc, TPool.initPool 4 = some tp ∧
        run (.init tp) (.call (.addGroup 1 1 0) :: List.replicate 5 (.caller 0) ++
          .call (.destroyGroup 0) :: .call (.doWork 0 7) :: List.replicate 3 (.caller 1)) = some s ∧
        Within s ∧ s.groups 0 = some tg ∧ tg.groupClose = true ∧ Decides s 2 0 7 tg s' rc ∧
        rc = .poolError := by
  have hdecides := @decides_of_run 4 _ (.call (.addGroup 1 1 0) :: List.replicate 5 (.caller 0) ++
    .call (.destroyGroup 0) :: .call (.doWork 0 7) :: List.replicate 3 (.caller 1)) _ rfl rfl
  obtain ⟨s', rc, hsection⟩ := hdecides.2 2 0 7 _ rfl rfl rfl
  exact ⟨_, _, _, s', rc, rfl, rfl, hdecides.1, rfl, rfl, hsection, hsection.verdict.error.mpr rfl⟩

end Pool
