import TrashDb.Lib.WaitFor
import TrashDb.Pool.Nest
import TrashDb.Pool.Lemmas.Handshake

/-!
This module contains why the threads of the pool do not wait for each other in a circle. The mutex of a
linked group is only held for longer by a manager, who has locked `mutexPool` before. So whoever goes
through the linked groups with `mutexPool` locked gets their mutexes. A group is unlinked before the
mutexes of its idle threads are locked while its own one is held, and such a thread at most waits for
`mutexPool`.
-/

namespace Pool

open Function

structure PoolHeld (s : Sys) : Prop where
  call : ∀ k, s.pool.mutexPool = some (.call k) → (s.calls k).holdsPool = true
  manager : ∀ m, s.pool.mutexPool = some (.manager m) → (s.managers m).holdsPool = true

namespace PoolHeld

variable {s s' : Sys} {k m : Nat}

theorem init {maxThrds : Nat} {tp : TPool} (h : TPool.initPool maxThrds = some tp)
    : PoolHeld (.init tp) := by
  unfold TPool.initPool at h
  split at h
  . cases h
  . cases h
    constructor <;> simp [Sys.init]

theorem of_free (hlock : s'.pool.mutexPool = none) : PoolHeld s' := by
  constructor <;> simp [hlock]

theorem acquire (hlock : s'.pool.mutexPool = some (.call k)) (hk : (s'.calls k).holdsPool = true)
    : PoolHeld s' := by
  constructor
  . intro i hi
    rw [hlock] at hi
    cases hi
    exact hk
  . intro i hi
    rw [hlock] at hi
    cases hi

theorem setCall {p : CallPc} (h : PoolHeld s) (hcalls : s'.calls = update s.calls k p)
    (hmanagers : s'.managers = s.managers) (hmutex : s'.pool.mutexPool = s.pool.mutexPool)
    (hp : (s.calls k).holdsPool = true → p.holdsPool = true)
    : PoolHeld s' := by
  constructor <;> rw [hmutex]
  . intro i hi
    rw [hcalls, update_apply]
    split
    . next heq =>
      subst heq
      apply hp (h.call i hi)
    . apply h.call i hi
  . rw [hmanagers]
    exact h.manager

theorem setManager {p : ManagerPc} (h : PoolHeld s) (hmanagers : s'.managers = update s.managers m p)
    (hcalls : s'.calls = s.calls) (hmutex : s'.pool.mutexPool = s.pool.mutexPool)
    (hp : (s.managers m).holdsPool = true → p.holdsPool = true)
    : PoolHeld s' := by
  constructor <;> rw [hmutex]
  . rw [hcalls]
    exact h.call
  . intro i hi
    rw [hmanagers, update_apply]
    split
    . next heq =>
      subst heq
      apply hp (h.manager i hi)
    . apply h.manager i hi

theorem caller (h : PoolHeld s) (hs : CallStep s k s') : PoolHeld s' := by
  cases hs with
  | wake g ts by_ tg t rest tt hpc => exact ⟨h.call, h.manager⟩
  | chargeFirst g max hpc hlock | charge g max hpc hlock =>
    apply of_free
    simp [hlock]
  | waitStart before hpc hlock | killDead hpc hlock | relock hpc hlock =>
    exact acquire rfl (by simp [CallPc.holdsPool])
  | block before hpc | endWait before hpc | freePool hpc => exact of_free rfl
  | refund g tg hpc =>
    refine h.setCall rfl rfl (by simp) ?_
    simp [hpc, CallPc.holdsPool]
  | endJoinPool g tg hpc => exact h.setCall rfl rfl (by simp) (fun _ => rfl)
  | queue g w tg pc hpc hg hlock hclose hidle hfull hnext
  | full g w tg pc hpc hg hlock hclose hidle hfull hnext =>
    refine h.setCall (p := pc) rfl rfl rfl ?_
    simp [hpc, CallPc.holdsPool]
  | _ =>
    refine h.setCall rfl rfl rfl ?_
    simp [*, CallPc.holdsPool]

theorem manager_step (h : PoolHeld s) (hs : ManagerStep s m s') : PoolHeld s' := by
  cases hs with
  | stay hpc => exact h
  | pass hpc hlock =>
    constructor <;> intro i hi
    . cases hi
    . cases hi
      simp [ManagerPc.holdsPool]
  | endPass hpc => exact of_free rfl
  | _ =>
    refine h.setManager rfl rfl rfl ?_
    simp [*, ManagerPc.holdsPool]

theorem step {a : Action} (h : PoolHeld s) (hf : Fresh s) (hs : Step s a s') : PoolHeld s' := by
  cases hs with
  | start req s' hs =>
    have hnew := hf.nextCall_eq_returned
    cases hs <;> exact h.setCall rfl rfl rfl (by rw [hnew]; nofun)
  | caller k s' hs => apply h.caller hs
  | worker t s' hs => cases hs <;> exact ⟨h.call, h.manager⟩
  | manager m timedOut s' hs => apply h.manager_step hs

end PoolHeld

def Looking (s : Sys) : Prop := Tally.Listed (Watch.tally ⟨s, fun _ => false, 0⟩)

namespace Looking

variable {s s' : Sys}

theorem init {maxThrds : Nat} {tp : TPool} (h : TPool.initPool maxThrds = some tp)
    : Looking (.init tp) := by
  have heq : Watch.tally ⟨.init tp, fun _ => false, 0⟩ = _ := Watch.tally_init h
  rw [Looking, heq]
  constructor <;> simp

theorem step {a : Action} (h : Looking s) (hi : PoolInv s) (hs : s.step a = some s') : Looking s' := by
  obtain ⟨x', hx', hsys⟩ := Watch.exists_step (x := ⟨s, fun _ => false, 0⟩) hs
  obtain ⟨⟨e, htally, _⟩, _⟩ := Simulates.step (x := ⟨s, fun _ => false, 0⟩) hi hx'
  have hlisted := Tally.Listed.step h htally
  subst hsys
  exact ⟨hlisted.nodup, hlisted.linked⟩

theorem mem_items {k g : Nat} {gs before : List Nat} (h : Looking s) (hlock : PoolLock s)
    (hpc : s.calls k = .waitLook gs before) (hg : g ∈ gs)
    : g ∈ s.pool.groups.items := by
  have hleft : s.left = some gs := by
    rw [left_of_holder (hlock.call k (by rw [hpc]; rfl)), hpc]
    rfl
  have hlinked := h.linked
  simp only [Watch.tally, hleft, Option.getD_some] at hlinked
  apply List.mem_toFinset.mp (hlinked (List.mem_toFinset.mpr hg))

end Looking

def CallPc.doesWork : CallPc → Bool
  | .offer _ _ | .notify _ _ | .hand _ _ _ | .done _ _ => true
  | _ => false

theorem Nest.step_cases {x x' : Nest} {a : NestAction} (hs : x.step a = some x')
    : x.enabled a = true ∧
        ((∃ b s', a = .outer b ∧ x.sys.step b = some s' ∧ x' = { x with sys := s' }) ∨
          ∃ t g w s', a = .inner t g w ∧ x.sys.callStart (.doWork g w) = some s' ∧
            x' = { sys := s', inside := update x.inside x.sys.nextCall (some t) }) := by
  unfold Nest.step at hs
  split at hs
  . next henabled =>
    refine ⟨henabled, ?_⟩
    cases a with
    | outer b =>
      obtain ⟨s', hs', heq⟩ := Option.map_eq_some_iff.mp hs
      exact .inl ⟨b, s', rfl, hs', heq.symm⟩
    | inner t g w =>
      obtain ⟨s', hs', heq⟩ := Option.map_eq_some_iff.mp hs
      exact .inr ⟨t, g, w, s', rfl, hs', heq.symm⟩
  . cases hs

structure NestInv (x : Nest) : Prop where
  group : GroupInv x.sys
  held : PoolHeld x.sys
  looking : Looking x.sys
  fresh : ∀ k, x.sys.nextCall ≤ k → x.inside k = none
  inner : ∀ k t, x.inside k = some t → x.sys.calls k ≠ .returned →
    (x.sys.calls k).doesWork = true ∧ inFunc (x.sys.thrds t) = true

section

variable {s s' : Sys} {k t : Nat}

theorem inFunc_caller (hf : Fresh s) (hs : CallStep s k s') (i : Nat)
    : inFunc (s'.thrds i) = inFunc (s.thrds i) := by
  cases hs with
  | spawn g n max tg hpc hg => exact thrds_setThrd rfl (by rw [hf.nextThrd_eq_none]; rfl) i
  | wake g ts by_ tg t rest tt hpc hg hlen hitems htt => exact thrds_setThrd rfl (by rw [htt]; rfl) i
  | hand g t w tt hpc htt => exact thrds_setThrd rfl (by rw [htt]; rfl) i
  | _ => rfl

theorem inFunc_manager {m : Nat} (hf : Fresh s) (hs : ManagerStep s m s') (i : Nat)
    : inFunc (s'.thrds i) = inFunc (s.thrds i) := by
  cases hs with
  | spawnTask g n gs tg w rest hpc hg | spawnNone g n gs tg hpc hg =>
    exact thrds_setThrd rfl (by rw [hf.nextThrd_eq_none]; rfl) i
  | _ => rfl

theorem doesWork_caller (hs : CallStep s k s') (hk : (s.calls k).doesWork = true)
    (hk' : s'.calls k ≠ .returned)
    : (s'.calls k).doesWork = true := by
  cases hs with
  | queue g w tg pc hpc hg hlock hclose hidle hfull hnext
  | full g w tg pc hpc hg hlock hclose hidle hfull hnext =>
    rcases hnext with rfl | rfl <;> simp [CallPc.doesWork]
  | block before hpc | endWait before hpc =>
    rcases hpc with hpc | hpc <;> simp [hpc, CallPc.doesWork] at hk
  | _ => simp_all [CallPc.doesWork]

theorem start_calls {req : Req} (hs : StartStep s req s')
    : ∃ p, s'.calls = update s.calls s.nextCall p ∧ s'.nextCall = s.nextCall + 1 ∧
        s'.thrds = s.thrds ∧ (∀ g w, req = .doWork g w → p = .offer g w) := by
  cases hs <;> exact ⟨_, rfl, rfl, rfl, by simp⟩

end

namespace NestInv

variable {x x' : Nest}

theorem init {maxThrds : Nat} {tp : TPool} (h : TPool.initPool maxThrds = some tp)
    : NestInv (.init tp) :=
  ⟨.init h, .init h, .init h, fun _ _ => rfl, nofun⟩

theorem not_busy {k t : Nat} (h : NestInv x) (hbusy : x.busy t = false) (hk : x.inside k = some t)
    : x.sys.calls k = .returned := by
  have hlt : k < x.sys.nextCall := by
    by_contra hge
    rw [h.fresh k (by omega)] at hk
    cases hk
  simp only [Nest.busy, List.any_eq_false, List.mem_range, Bool.and_eq_true, beq_iff_eq, bne_iff_ne,
    not_and, not_not] at hbusy
  exact hbusy k hlt hk

theorem ne_nextCall {k t : Nat} (h : NestInv x) (hk : x.inside k = some t) : k ≠ x.sys.nextCall := by
  rintro rfl
  rw [h.fresh _ (Nat.le_refl _)] at hk
  cases hk

theorem inner_of_step {s' : Sys} {a : Action} (h : NestInv x)
    (henabled : x.enabled (.outer a) = true) (hs : Step x.sys a s')
    : ∀ k t, x.inside k = some t → s'.calls k ≠ .returned →
        (s'.calls k).doesWork = true ∧ inFunc (s'.thrds t) = true := by
  intro k t hk hne
  cases hs with
  | start req s' hs =>
    obtain ⟨p, hcalls, _, hthrds, _⟩ := start_calls hs
    rw [hcalls, update_of_ne (h.ne_nextCall hk)] at hne ⊢
    rw [hthrds]
    exact h.inner k t hk hne
  | caller i s' hs =>
    rw [inFunc_caller h.group.fresh hs]
    by_cases hki : k = i
    . subst hki
      obtain ⟨hwork, hfunc⟩ := h.inner k t hk hs.ne_returned
      exact ⟨doesWork_caller hs hwork hne, hfunc⟩
    . rw [hs.calls_of_ne hki] at hne ⊢
      exact h.inner k t hk hne
  | worker i s' hs =>
    rw [hs.calls_eq] at hne ⊢
    have hti : t ≠ i := by
      rintro rfl
      simp only [Nest.enabled, Bool.not_eq_true'] at henabled
      exact hne (h.not_busy henabled hk)
    rw [hs.thrds_of_ne hti]
    exact h.inner k t hk hne
  | manager m timedOut s' hs =>
    rw [hs.calls_eq] at hne ⊢
    rw [inFunc_manager h.group.fresh hs]
    exact h.inner k t hk hne

theorem outer {s' : Sys} {a : Action} (h : NestInv x) (henabled : x.enabled (.outer a) = true)
    (hs : x.sys.step a = some s')
    : NestInv { x with sys := s' } := by
  have hstep := step_of_step hs
  constructor
  . apply h.group.step hstep
  . apply h.held.step h.group.fresh hstep
  . apply h.looking.step h.group.toPoolInv hs
  . intro k hk
    apply h.fresh k
    have := nextCall_le hstep
    dsimp only at hk
    omega
  . apply h.inner_of_step henabled hstep

theorem callInner {s' : Sys} {t g w : Nat} (h : NestInv x) (hfunc : inFunc (x.sys.thrds t) = true)
    (hs : x.sys.callStart (.doWork g w) = some s')
    : NestInv { sys := s', inside := update x.inside x.sys.nextCall (some t) } := by
  have houter := h.outer (a := .call (.doWork g w)) rfl hs
  obtain ⟨p, hcalls, hnext, hthrds, hp⟩ := start_calls (startStep_of_callStart hs)
  refine ⟨houter.group, houter.held, houter.looking, ?_, ?_⟩
  . intro k hk
    dsimp only at hk ⊢
    rw [update_of_ne (by omega)]
    apply h.fresh k
    omega
  . intro k i hk hne
    dsimp only at hk hne ⊢
    rw [update_apply] at hk
    split at hk
    . next heq =>
      cases hk
      rw [hthrds, hcalls, heq, update_self, hp g w rfl]
      exact ⟨rfl, hfunc⟩
    . exact houter.inner k i hk hne

theorem step {a : NestAction} (h : NestInv x) (hs : x.step a = some x') : NestInv x' := by
  obtain ⟨henabled, hcases⟩ := Nest.step_cases hs
  rcases hcases with ⟨b, s', rfl, hs', rfl⟩ | ⟨t, g, w, s', rfl, hs', rfl⟩
  . apply h.outer henabled hs'
  . simp only [Nest.enabled, Bool.and_eq_true] at henabled
    apply h.callInner henabled.1 hs'

end NestInv

section

variable {x : Nest} {p : Party} {l : Lock}

theorem wants_cases (h : x.Wants p l)
    : (∃ k, p = x.thread k ∧ x.sys.callWants k = some l) ∨
        (∃ t, p = .worker t ∧ x.sys.workerWants t = some l) ∨
        ∃ m, p = .manager m ∧ x.sys.managerWants m = some l := by
  cases h with
  | call k l h => exact .inl ⟨k, rfl, h⟩
  | worker t l h => exact .inr (.inl ⟨t, rfl, h⟩)
  | manager m l h => exact .inr (.inr ⟨m, rfl, h⟩)

theorem thread_eq_caller {k k' : Nat} (h : x.thread k' = .caller k) : k' = k ∧ x.inside k = none := by
  unfold Nest.thread at h
  split at h
  . next hinside =>
    cases h
    exact ⟨rfl, hinside⟩
  . cases h

theorem thread_eq_worker {k t : Nat} (h : x.thread k = .worker t) : x.inside k = some t := by
  unfold Nest.thread at h
  split at h
  . cases h
  . next hinside =>
    cases h
    exact hinside

/--
The mutexes that a thread holds by the places it has reached.
-/
inductive Held (x : Nest) : Party → Lock → Prop where
  | poolCall (k : Nat) (hinside : x.inside k = none) (h : (x.sys.calls k).holdsPool = true) :
    Held x (.caller k) .pool
  | grpCall (k g : Nat) (hinside : x.inside k = none) (h : (x.sys.calls k).holdsGroup = some g) :
    Held x (.caller k) (.grp g)
  | poolManager (m : Nat) (h : (x.sys.managers m).holdsPool = true) : Held x (.manager m) .pool
  | grpManager (m g : Nat) (h : (x.sys.managers m).holdsGroup = some g) : Held x (.manager m) (.grp g)
  | thrd (t : Nat) (tt : TThread) (ht : x.sys.thrds t = some tt) (h : tt.pc.locked = true) :
    Held x (.worker t) (.thrd t)

theorem NestInv.inside_eq_none {k : Nat} (h : NestInv x)
    (hk : (x.sys.calls k).holdsPool = true ∨ (x.sys.calls k).holdsGroup ≠ none)
    : x.inside k = none := by
  cases hinside : x.inside k with
  | none => rfl
  | some t =>
    have hne : x.sys.calls k ≠ .returned := by
      intro heq
      simp [heq, CallPc.holdsPool, CallPc.holdsGroup] at hk
    have hwork := (h.inner k t hinside hne).1
    unfold CallPc.doesWork at hwork
    split at hwork <;> simp_all [CallPc.holdsPool, CallPc.holdsGroup]

theorem NestInv.held_of_holds (h : NestInv x) (hh : x.Holds p l) : Held x p l := by
  cases hh with
  | poolCall k hk =>
    have hpool := h.held.call k hk
    have hinside := h.inside_eq_none (.inl hpool)
    rw [Nest.thread, hinside]
    exact .poolCall k hinside hpool
  | grpCall k g tg hg hk =>
    have hgroup : (x.sys.calls k).holdsGroup = some g :=
      (h.group.groupLock.owner g tg (.call k) hg).mp hk
    have hinside := h.inside_eq_none (k := k) (.inr (by rw [hgroup]; nofun))
    rw [Nest.thread, hinside]
    exact .grpCall k g hinside hgroup
  | poolManager m hm => exact .poolManager m (h.held.manager m hm)
  | grpManager m g tg hg hm =>
    exact .grpManager m g ((h.group.groupLock.owner g tg (.manager m) hg).mp hm)
  | thrd t tt ht hlock => exact .thrd t tt ht hlock

/--
The places where a thread locks a mutex while it holds another one.
-/
inductive Nested (x : Nest) : Party → Lock → Prop where
  | look (k g : Nat) (gs before : List Nat) (h : x.sys.calls k = .waitLook (g :: gs) before) :
    Nested x (.caller k) (.grp g)
  | close (k g : Nat) (h : x.sys.calls k = .close g .destroyPool) : Nested x (.caller k) (.grp g)
  | wake (k g : Nat) (ts : List Nat) (by_ : Destroyer) (tg : TGroup) (t : Nat)
    (h : x.sys.calls k = .wake g ts by_) (hg : x.sys.groups g = some tg)
    (ht : t ∈ tg.idleThrds.items) : Nested x (.caller k) (.thrd t)
  | pass (m g : Nat) (gs : List Nat) (h : x.sys.managers m = .pass (g :: gs)) :
    Nested x (.manager m) (.grp g)
  | grp (t : Nat) (tt : TThread) (ht : x.sys.thrds t = some tt) (h : tt.pc = .grp) :
    Nested x (.worker t) (.grp tt.tg)
  | decr (t : Nat) (tt : TThread) (ht : x.sys.thrds t = some tt) (h : tt.pc = .decr) :
    Nested x (.worker t) .pool

theorem nested_call {k : Nat}
    (hk : (x.sys.calls k).holdsPool = true ∨ (x.sys.calls k).holdsGroup ≠ none)
    (hwants : x.sys.callWants k = some l)
    : Nested x (.caller k) l := by
  cases hpc : x.sys.calls k with
  | waitLook gs before =>
    cases gs with
    | nil => simp [Sys.callWants, hpc] at hwants
    | cons g gs =>
      simp only [Sys.callWants, hpc, Option.some.injEq] at hwants
      rw [← hwants]
      exact .look k g gs before hpc
  | close g by_ =>
    cases by_ with
    | destroyGroup => simp [hpc, CallPc.holdsPool, CallPc.holdsGroup] at hk
    | destroyPool =>
      simp only [Sys.callWants, hpc, Option.some.injEq] at hwants
      rw [← hwants]
      exact .close k g hpc
  | wake g ts by_ =>
    simp only [Sys.callWants, hpc] at hwants
    split at hwants
    . cases hwants
    . next tg hg =>
      obtain ⟨t, ht, rfl⟩ := Option.map_eq_some_iff.mp hwants
      exact .wake k g ts by_ tg t hpc hg (List.mem_of_mem_head? ht)
  | _ => simp_all [CallPc.holdsPool, CallPc.holdsGroup, Sys.callWants]

theorem nested_worker {t : Nat} {tt : TThread} (ht : x.sys.thrds t = some tt)
    (hlock : tt.pc.locked = true) (hwants : x.sys.workerWants t = some l)
    : Nested x (.worker t) l := by
  simp only [Sys.workerWants, ht] at hwants
  cases hpc : tt.pc with
  | grp =>
    simp only [hpc, Option.some.injEq] at hwants
    rw [← hwants]
    exact .grp t tt ht hpc
  | decr =>
    simp only [hpc, Option.some.injEq] at hwants
    rw [← hwants]
    exact .decr t tt ht hpc
  | _ => simp_all [WorkerPc.locked]

theorem nested_manager {m : Nat}
    (hm : (x.sys.managers m).holdsPool = true ∨ (x.sys.managers m).holdsGroup ≠ none)
    (hwants : x.sys.managerWants m = some l)
    : Nested x (.manager m) l := by
  cases hpc : x.sys.managers m with
  | pass gs =>
    cases gs with
    | nil => simp [Sys.managerWants, hpc] at hwants
    | cons g gs =>
      simp only [Sys.managerWants, hpc, Option.some.injEq] at hwants
      rw [← hwants]
      exact .pass m g gs hpc
  | _ => simp_all [ManagerPc.holdsPool, ManagerPc.holdsGroup, Sys.managerWants]

theorem NestInv.not_locked {k t : Nat} {tt : TThread} (h : NestInv x) (hk : x.inside k = some t)
    (hne : x.sys.calls k ≠ .returned) (ht : x.sys.thrds t = some tt)
    : tt.pc.locked = false := by
  have hfunc := (h.inner k t hk hne).2
  rw [ht, inFunc] at hfunc
  split at hfunc
  . next hpc =>
    rw [hpc]
    rfl
  . cases hfunc

theorem NestInv.nested {l₀ : Lock} (h : NestInv x) (hheld : Held x p l₀) (hwants : x.Wants p l)
    : Nested x p l := by
  rcases wants_cases hwants with ⟨k, hp, hl⟩ | ⟨t, rfl, hl⟩ | ⟨m, rfl, hl⟩
  . have hne : x.sys.calls k ≠ .returned := by
      intro hpc
      simp [Sys.callWants, hpc] at hl
    cases hheld with
    | poolCall i hinside hi =>
      obtain ⟨rfl, _⟩ := thread_eq_caller hp.symm
      exact nested_call (.inl hi) hl
    | grpCall i g hinside hi =>
      obtain ⟨rfl, _⟩ := thread_eq_caller hp.symm
      exact nested_call (.inr (by rw [hi]; nofun)) hl
    | poolManager m hm | grpManager m g hm =>
      unfold Nest.thread at hp
      split at hp <;> cases hp
    | thrd t tt ht hlock =>
      rw [h.not_locked (thread_eq_worker hp.symm) hne ht] at hlock
      cases hlock
  . cases hheld with
    | thrd _ tt ht hlock => exact nested_worker ht hlock hl
  . cases hheld with
    | poolManager _ hm => exact nested_manager (.inl hm) hl
    | grpManager _ g hm => exact nested_manager (.inr (by rw [hm]; nofun)) hl

end

def CallPc.byPool : CallPc → Bool
  | .killManager | .readManager | .joinManager _ | .relock | .popGroups => true
  | .close _ by_ | .wake _ _ by_ | .join _ _ by_ => by_ == .destroyPool
  | _ => false

def CallPc.rank : CallPc → Nat
  | .wake _ _ _ => 2
  | _ => 0

def Nest.rank (x : Nest) : Party → Nat
  | .caller k => (x.sys.calls k).rank
  | .worker t =>
    match x.sys.thrds t with
    | some tt => if tt.pc = .grp then 3 else 1
    | none => 1
  | .manager _ => 0

section

variable {x : Nest} {p q : Party} {g t : Nat}

/--
Nobody holds the mutex of a linked group if the holder of `mutexPool` wants to lock it.
-/
theorem NestInv.not_held_linked (h : NestInv x) (hg : g ∈ x.sys.pool.groups.items)
    (hspawn : ∀ m, (x.sys.managers m).holdsGroup ≠ some g)
    : ¬ Held x q (.grp g) := by
  intro hheld
  cases hheld with
  | grpCall k _ hinside hk =>
    have howned : (x.sys.ledger.phase k).owned = some g := by
      unfold CallPc.holdsGroup at hk
      simp only [Sys.ledger]
      split at hk
      . next hpc =>
        cases hk
        rw [hpc]
        rfl
      . next hpc =>
        cases hk
        rw [hpc]
        rfl
      . cases hk
    exact (h.group.owned.owned k g howned).2 hg
  | grpManager m _ hm => exact hspawn m hm

theorem NestInv.mutexPool_of_spawn {m : Nat} (h : NestInv x)
    (hm : (x.sys.managers m).holdsGroup = some g)
    : x.sys.pool.mutexPool = some (.manager m) := by
  apply h.group.lock.manager m
  unfold ManagerPc.holdsGroup at hm
  split at hm
  . next hpc =>
    rw [hpc]
    rfl
  . cases hm

/--
A thread in the list of idle threads that holds its mutex wants nothing but `mutexPool`.
-/
theorem NestInv.rank_idle {tg : TGroup} {l : Lock} (h : NestInv x) (hg : x.sys.groups g = some tg)
    (ht : t ∈ tg.idleThrds.items) (hnested : Nested x (.worker t) l)
    : x.rank (.worker t) = 1 := by
  obtain ⟨tt, htt, _, hidle⟩ := h.group.threads.idle g tg t hg ht
  cases hnested with
  | grp _ tt' htt' hpc =>
    rw [htt] at htt'
    cases htt'
    have hok := h.group.threads.ok t tt htt
    rw [TThread.Ok, hpc] at hok
    rw [hok.1] at hidle
    cases hidle
  | decr _ tt' htt' hpc => simp [Nest.rank, htt', hpc]

theorem CallPc.rank_le (pc : CallPc) : pc.rank ≤ 2 := by
  unfold CallPc.rank
  split <;> omega

theorem NestInv.rank_lt {l l' : Lock} (h : NestInv x) (hpool : ∀ k, (x.sys.calls k).byPool = false)
    (hp : Nested x p l) (hq : Held x q l) (hq' : Nested x q l')
    : x.rank q < x.rank p := by
  cases hp with
  | look k g gs before hpc =>
    have hg := h.looking.mem_items h.group.lock hpc List.mem_cons_self
    refine absurd hq (h.not_held_linked hg ?_)
    intro m hm
    have hlock := h.group.lock.call k (by rw [hpc]; rfl)
    rw [h.mutexPool_of_spawn hm] at hlock
    cases hlock
  | close k g hpc =>
    have hk := hpool k
    rw [hpc] at hk
    cases hk
  | wake k g ts by_ tg t hpc hg ht =>
    cases hq with
    | thrd _ tt htt hlock =>
      rw [h.rank_idle hg ht hq', Nest.rank, hpc, CallPc.rank]
      omega
  | pass m g gs hpc =>
    have hg : g ∈ x.sys.pool.groups.items := by
      apply h.group.managing m g
      rw [hpc]
      exact List.mem_cons_self
    refine absurd hq (h.not_held_linked hg ?_)
    intro m' hm'
    have hlock := h.group.lock.manager m (by rw [hpc]; rfl)
    rw [h.mutexPool_of_spawn hm'] at hlock
    cases hlock
    rw [hpc] at hm'
    cases hm'
  | grp t tt htt hpc =>
    have hrank : x.rank (.worker t) = 3 := by simp [Nest.rank, htt, hpc]
    cases hq with
    | grpCall k _ hinside hk =>
      have := (x.sys.calls k).rank_le
      rw [hrank, Nest.rank]
      omega
    | grpManager m _ hm =>
      rw [hrank, Nest.rank]
      omega
  | decr t tt htt hpc =>
    have hrank : x.rank (.worker t) = 1 := by simp [Nest.rank, htt, hpc]
    rw [hrank]
    cases hq with
    | poolCall k hinside hk =>
      have hk' := hpool k
      rw [Nest.rank, CallPc.rank.eq_def]
      split
      . next hpc' =>
        rw [hpc'] at hk hk'
        simp only [CallPc.holdsPool, CallPc.byPool] at hk hk'
        rw [hk] at hk'
        cases hk'
      . omega
    | poolManager m hm =>
      rw [Nest.rank]
      omega

theorem NestInv.not_cycle (h : NestInv x) (hpool : ∀ k, (x.sys.calls k).byPool = false)
    : ∀ p, ¬ Relation.TransGen x.Waits p p := by
  apply WaitFor.not_cycle x.rank
  rintro p q ⟨_, l₀, _, hp⟩ ⟨l, hwants, hq⟩ ⟨_, l', hwants', _⟩
  have hheld := h.held_of_holds hq
  exact h.rank_lt hpool (h.nested (h.held_of_holds hp) hwants) hheld (h.nested hheld hwants')

end

def NoDestroyPool : NestAction → Prop
  | .outer (.call .destroyPool) => False
  | _ => True

instance : (a : NestAction) → Decidable (NoDestroyPool a)
  | .outer (.call .destroyPool) => isFalse id
  | .outer (.call (.addGroup _ _ _)) | .outer (.call (.destroyGroup _)) => isTrue trivial
  | .outer (.call (.doWork _ _)) | .outer (.call .waitPool) => isTrue trivial
  | .outer (.caller _) | .outer (.worker _) | .outer (.manager _ _) => isTrue trivial
  | .inner _ _ _ => isTrue trivial

theorem byPool_caller {s s' : Sys} {k : Nat} (hs : CallStep s k s') (i : Nat)
    (hi : (s'.calls i).byPool = true)
    : (s.calls i).byPool = true := by
  by_cases hik : i = k
  . subst hik
    cases hs with
    | wake => exact hi
    | close g by_ tg hpc | endWake g ts by_ tg hpc | join g t ts by_ hpc =>
      simpa [hpc, CallPc.byPool] using hi
    | queue g w tg pc hpc hg hlock hclose hidle hfull hnext
    | full g w tg pc hpc hg hlock hclose hidle hfull hnext =>
      rcases hnext with rfl | rfl <;> simp [CallPc.byPool] at hi
    | _ => simp_all [CallPc.byPool]
  . rw [hs.calls_of_ne hik] at hi
    exact hi

def NestAction.action : NestAction → Action
  | .outer a => a
  | .inner _ g w => .call (.doWork g w)

theorem Nest.step_of_step {x x' : Nest} {a : NestAction} (hs : x.step a = some x')
    : Step x.sys a.action x'.sys := by
  obtain ⟨_, ⟨b, s', rfl, hs', rfl⟩ | ⟨t, g, w, s', rfl, hs', rfl⟩⟩ := Nest.step_cases hs
  . exact Pool.step_of_step hs'
  . exact .start _ s' (startStep_of_callStart hs')

theorem byPool_start {s s' : Sys} {req : Req} (hs : StartStep s req s') (hreq : req ≠ .destroyPool)
    {i : Nat} (hi : (s'.calls i).byPool = true)
    : (s.calls i).byPool = true := by
  cases hs with
  | destroyPool => exact absurd rfl hreq
  | _ =>
    simp only [Sys.startCall, Sys.setCall, update_apply] at hi
    split at hi
    . cases hi
    . exact hi

theorem byPool_step {x x' : Nest} {a : NestAction} (ha : NoDestroyPool a)
    (hpool : ∀ k, (x.sys.calls k).byPool = false) (hs : x.step a = some x')
    : ∀ k, (x'.sys.calls k).byPool = false := by
  have hstep := Nest.step_of_step hs
  intro i
  by_contra hi
  rw [Bool.not_eq_false] at hi
  have hbefore : (x.sys.calls i).byPool = true := by
    generalize hb : a.action = b at hstep
    cases hstep with
    | start req s' hs =>
      refine byPool_start hs ?_ hi
      rintro rfl
      cases a with
      | outer a =>
        cases hb
        exact ha
      | inner t g w => cases hb
    | caller k s' hs => exact byPool_caller hs i hi
    | worker t s' hs =>
      rw [hs.calls_eq] at hi
      exact hi
    | manager m timedOut s' hs =>
      rw [hs.calls_eq] at hi
      exact hi
  rw [hpool i] at hbefore
  cases hbefore

theorem noDeadlock_of_run {maxThrds : Nat} {tp : TPool} {as : List NestAction} {x : Nest}
    (hinit : TPool.initPool maxThrds = some tp)
    (hpool : Lts.Along Nest.step (fun _ a => NoDestroyPool a) (.init tp) as)
    (hrun : Lts.run Nest.step (.init tp) as = some x)
    : ∀ p, ¬ Relation.TransGen x.Waits p p := by
  have hinv : NestInv x ∧ ∀ k, (x.sys.calls k).byPool = false := by
    refine Lts.invariant_along (I := fun x => NestInv x ∧ ∀ k, (x.sys.calls k).byPool = false) ?_
      ⟨.init hinit, fun _ => rfl⟩ hpool hrun
    intro x a x' ⟨h, hk⟩ ha hs
    exact ⟨h.step hs, byPool_step ha hk hs⟩
  exact hinv.1.not_cycle hinv.2

theorem noDeadlock_inner_call
    : ∃ tp x, TPool.initPool 4 = some tp ∧
        Lts.run Nest.step (.init tp) (.outer (.call (.addGroup 1 1 0)) ::
          List.replicate 5 (.outer (.caller 0)) ++ .outer (.call (.doWork 0 7)) ::
          List.replicate 3 (.outer (.caller 1)) ++ List.replicate 3 (.outer (.worker 0)) ++
          [.inner 0 0 8, .outer (.caller 2), .outer (.call .waitPool), .outer (.caller 3)]) = some x ∧
        x.Waits (.worker 0) (.caller 3) ∧ ∀ p, ¬ Relation.TransGen x.Waits p p := by
  refine ⟨_, _, rfl, rfl, ⟨.pool, .call 2 .pool rfl, .poolCall 3 rfl⟩, ?_⟩
  exact @noDeadlock_of_run 4 _ (.outer (.call (.addGroup 1 1 0)) ::
    List.replicate 5 (.outer (.caller 0)) ++ .outer (.call (.doWork 0 7)) ::
    List.replicate 3 (.outer (.caller 1)) ++ List.replicate 3 (.outer (.worker 0)) ++
    [.inner 0 0 8, .outer (.caller 2), .outer (.call .waitPool), .outer (.caller 3)]) _ rfl
    (by decide) rfl

end Pool
