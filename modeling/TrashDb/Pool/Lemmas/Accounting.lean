import TrashDb.Pool.Lemmas.Handshake

/-!
This module contains that the counter of the handshake is exact if there is one caller of `wait_pool` at
a time and nothing is destroyed while it waits. Nobody has a flag when it starts then, since the counter
was 0 when the last one left.
-/

namespace Pool

open Function

/--
One `wait_pool` at a time, and none together with a call that destroys something.
-/
def Apart (s : Sys) : Action → Prop
  | .call .waitPool =>
    ∀ k < s.nextCall, (s.calls k).waits = false ∧ (s.calls k).destroys = false
  | .call (.destroyGroup _) | .call .destroyPool => ∀ k < s.nextCall, (s.calls k).waits = false
  | _ => True

instance (s : Sys) : (a : Action) → Decidable (Apart s a)
  | .call .waitPool | .call (.destroyGroup _) | .call .destroyPool =>
    inferInstanceAs (Decidable (∀ k < s.nextCall, _))
  | .call (.addGroup _ _ _) | .call (.doWork _ _) => isTrue trivial
  | .caller _ | .worker _ | .manager _ _ => isTrue trivial

structure ApartInv (s : Sys) : Prop where
  one : ∀ k k', (s.calls k).waits = true → (s.calls k').waits = true → k = k'
  apart : ∀ k k', (s.calls k).waits = true → (s.calls k').destroys = false
  rest : (∀ k, (s.calls k).remaining = none) → s.pool.groupsWaiting = 0

namespace ApartInv

variable {s s' : Sys} {x : Watch} {k : Nat}

theorem init {maxThrds : Nat} {tp : TPool} (h : TPool.initPool maxThrds = some tp)
    : ApartInv (.init tp) := by
  unfold TPool.initPool at h
  split at h
  . cases h
  . cases h
    constructor <;> simp [Sys.init, CallPc.waits]

theorem kind_caller (hs : CallStep s k s') (i : Nat)
    : ((s'.calls i).waits = true → (s.calls i).waits = true) ∧
        ((s'.calls i).destroys = true → (s.calls i).destroys = true) := by
  by_cases hi : i = k
  . subst hi
    cases hs with
    | wake => exact ⟨id, id⟩
    | queue g w tg pc hpc hg hlock hclose hidle hfull hnext
    | full g w tg pc hpc hg hlock hclose hidle hfull hnext =>
      rcases hnext with rfl | rfl <;> simp [CallPc.waits, CallPc.destroys]
    | block before hpc | endWait before hpc =>
      rcases hpc with hpc | hpc <;> simp [hpc, CallPc.waits, CallPc.destroys]
    | _ => simp [*, CallPc.waits, CallPc.destroys]
  . rw [hs.calls_of_ne hi]
    exact ⟨id, id⟩

theorem left_eq_none (h : ∀ k, (s.calls k).remaining = none) : s.left = none := by
  unfold Sys.left
  split
  . next k _ =>
    have hk := h k
    cases hpc : s.calls k with
    | waitLook gs before =>
      rw [hpc] at hk
      cases hk
    | _ => rfl
  . rfl

theorem quiet (h : ApartInv x.sys) (he : Tally.Exact x.tally)
    (hrest : ∀ k, (x.sys.calls k).remaining = none)
    : x.sys.pool.groupsWaiting = 0 ∧ x.sys.flagged = ∅ ∧ x.sys.due = ∅ :=
  ⟨h.rest hrest, he.eq_empty (left_eq_none hrest) (h.rest hrest)⟩

theorem remaining_of_others (h : ApartInv s) (hk : (s.calls k).waits = true)
    (hnone : (s.calls k).remaining = none)
    : ∀ i, (s.calls i).remaining = none := by
  intro i
  by_cases hi : i = k
  . rw [hi]
    exact hnone
  . apply WaitInv.remaining_of_not_waits
    rw [← Bool.not_eq_true]
    intro hwaits
    exact hi (h.one i k hwaits hk)

theorem undisturbed (h : ApartInv x.sys) (he : Tally.Exact x.tally) (hf : Fresh x.sys)
    (hl : LinkedInv x.sys) (a : Action)
    : x.sys.Undisturbed a := by
  cases a with
  | caller k =>
    refine ⟨?_, ?_⟩
    . intro hstarts
      cases hpc : x.sys.calls k with
      | waitStart before =>
        have hwaits : (x.sys.calls k).waits = true := by rw [hpc]; rfl
        have hnone := h.remaining_of_others hwaits (by rw [hpc]; rfl)
        refine ⟨?_, h.rest hnone⟩
        refine ((hl.groupsExact_iff hf).mpr ?_).len
        intro i
        have hdestroys := h.apart k i hwaits
        cases hi : x.sys.calls i <;> simp_all [CallPc.uncounted, CallPc.destroys]
      | _ =>
        rw [hpc] at hstarts
        cases hstarts
    . intro hdestroys g
      have hnone : ∀ i, (x.sys.calls i).remaining = none := by
        intro i
        apply WaitInv.remaining_of_not_waits
        rw [← Bool.not_eq_true]
        intro hwaits
        rw [h.apart i k hwaits] at hdestroys
        cases hdestroys
      have hflagged := (h.quiet he hnone).2.1
      rw [← Bool.not_eq_true, ← mem_flagged hf, hflagged]
      apply Finset.notMem_empty
  | call req => trivial
  | worker t => trivial
  | manager m timedOut => trivial

theorem startCall {p : CallPc} (h : ApartInv s) (hf : Fresh s)
    (hcalls : s'.calls = update s.calls s.nextCall p) (hpool : s'.pool = s.pool)
    (hwaits : p.waits = true →
      ∀ k < s.nextCall, (s.calls k).waits = false ∧ (s.calls k).destroys = false)
    (hdestroys : p.destroys = true → ∀ k < s.nextCall, (s.calls k).waits = false)
    (hp : p.waits = true → p.destroys = false)
    : ApartInv s' := by
  have hnew := hf.nextCall_eq_returned
  have hlt : ∀ i, (s.calls i).waits = true ∨ (s.calls i).destroys = true → i < s.nextCall := by
    intro i hi
    apply hf.calls
    rintro heq
    simp [heq, CallPc.waits, CallPc.destroys] at hi
  constructor
  . intro i j hi hj
    rw [hcalls, update_apply] at hi hj
    split at hi <;> split at hj
    . next heq heq' => rw [heq, heq']
    . have := (hwaits hi j (hlt j (.inl hj))).1
      simp [this] at hj
    . have := (hwaits hj i (hlt i (.inl hi))).1
      simp [this] at hi
    . apply h.one i j hi hj
  . intro i j hi
    rw [hcalls, update_apply] at hi ⊢
    split at hi <;> split
    . exact hp hi
    . rw [← Bool.not_eq_true]
      intro hj
      have := (hwaits hi j (hlt j (.inr hj))).2
      simp [this] at hj
    . rw [← Bool.not_eq_true]
      intro hd
      have := hdestroys hd i (hlt i (.inl hi))
      simp [this] at hi
    . apply h.apart i j hi
  . intro hnone
    rw [hpool]
    apply h.rest
    intro i
    by_cases hi : i = s.nextCall
    . rw [hi, hnew]
      rfl
    . have hi' := hnone i
      rw [hcalls, update_of_ne hi] at hi'
      exact hi'

theorem start {req : Req} (h : ApartInv s) (hf : Fresh s) (ha : Apart s (.call req))
    (hs : StartStep s req s')
    : ApartInv s' := by
  cases hs with
  | waitPool => exact h.startCall hf rfl rfl (fun _ => ha) nofun (fun _ => rfl)
  | destroyGroup g hg => exact h.startCall hf rfl rfl nofun (fun _ => ha) nofun
  | destroyPool => exact h.startCall hf rfl rfl nofun (fun _ => ha) nofun
  | addGroup min max flags => exact h.startCall hf rfl rfl nofun nofun nofun
  | doWork g w hg hw => exact h.startCall hf rfl rfl nofun nofun nofun

theorem rest_caller (h : ApartInv x.sys) (he : Tally.Exact x.tally) (hs : CallStep x.sys k s')
    (hnone : ∀ i, (s'.calls i).remaining = none)
    : s'.pool.groupsWaiting = 0 := by
  have hothers : ∀ i, i ≠ k → (x.sys.calls i).remaining = none := by
    intro i hne
    rw [← hs.calls_of_ne hne]
    apply hnone
  have hrest : (x.sys.calls k).remaining = none → x.sys.pool.groupsWaiting = 0 := by
    intro hk
    apply h.rest
    intro i
    by_cases hne : i = k
    . rw [hne]
      exact hk
    . apply hothers i hne
  have hself := hnone k
  cases hs with
  | waitStart before hpc | skip g gs before tg hpc | flag g gs before tg hpc | block before hpc =>
    simp [CallPc.remaining] at hself
  | endWait before hpc hwait =>
    have hcount : x.sys.pool.groupsWaiting = x.tally.owed := he.count
    simp only [Sys.setCall, Sys.setPool]
    omega
  | chargeFirst g max hpc | charge g max hpc =>
    simp only [Sys.setCall, Sys.setManager, Sys.setPool, TPool.addGroupCharge_groupsWaiting]
    exact hrest (by rw [hpc]; rfl)
  | _ => exact hrest (by simp [*, CallPc.remaining])

theorem caller (h : ApartInv x.sys) (he : Tally.Exact x.tally) (hs : CallStep x.sys k s')
    : ApartInv s' := by
  refine ⟨?_, ?_, h.rest_caller he hs⟩
  . intro i j hi hj
    apply h.one i j ((kind_caller hs i).1 hi) ((kind_caller hs j).1 hj)
  . intro i j hi
    rw [← Bool.not_eq_true]
    intro hj
    have hnot := h.apart i j ((kind_caller hs i).1 hi)
    rw [(kind_caller hs j).2 hj] at hnot
    cases hnot

theorem frame (h : ApartInv s) (hcalls : s'.calls = s.calls)
    (hcount : s'.pool.groupsWaiting = s.pool.groupsWaiting)
    : ApartInv s' := by
  constructor <;> rw [hcalls]
  . exact h.one
  . exact h.apart
  . rw [hcount]
    exact h.rest

theorem decr {t : Nat} {tt : TThread} (h : ApartInv x.sys) (he : Tally.Exact x.tally)
    (hf : Fresh x.sys) (htt : x.sys.thrds t = some tt) (hpc : tt.pc = .decr)
    (hcalls : s'.calls = x.sys.calls)
    : ApartInv s' := by
  constructor <;> rw [hcalls]
  . exact h.one
  . exact h.apart
  . intro hnone
    have hdue := (h.quiet he hnone).2.2
    have hmem : t ∈ x.sys.due := by
      rw [mem_due hf, htt, settles, hpc]
      rfl
    rw [hdue] at hmem
    cases hmem

theorem step {a : Action} (h : ApartInv x.sys) (he : Tally.Exact x.tally) (hf : Fresh x.sys)
    (ha : Apart x.sys a) (hs : Step x.sys a s')
    : ApartInv s' := by
  cases hs with
  | start req s' hs => apply h.start hf ha hs
  | caller k s' hs => apply h.caller he hs
  | worker t s' hs =>
    cases hs with
    | decr tt htt hpc => exact h.decr he hf htt hpc rfl
    | _ => exact h.frame rfl rfl
  | manager m timedOut s' hs => cases hs <;> exact h.frame rfl rfl

end ApartInv

section

variable {s s' : Sys} {g k t : Nat}

theorem finished_of_last {tt : TThread} {tg : TGroup} (h : GroupInv s) (ha : AcceptedInv s)
    (htt : s.thrds t = some tt) (hpc : tt.pc = .grp) (hg : s.groups tt.tg = some tg)
    (hlen : tg.q.work.len = 0) (hlast : tg.activeThrds.len = 1)
    : ∀ w, w ∈ s.accepted tt.tg → w ∈ s.finished := by
  have hok := h.threads.ok t tt htt
  rw [TThread.Ok, hpc] at hok
  have hactive := h.threads.active t tt tg htt hok.1 hg
  have honly : ∀ i, i ∈ tg.activeThrds.items → i = t := by
    have hlength := (h.threads.coherent tt.tg tg hg).2
    rw [LL.Coherent, hlast] at hlength
    obtain ⟨i, hi⟩ := List.length_eq_one_iff.mp hlength.symm
    simp only [hi, List.mem_singleton] at hactive ⊢
    intro j hj
    rw [hj, hactive]
  intro w hw
  rcases ha tt.tg w hw with (hq | ⟨i, htask⟩) | ⟨k, i, hhand⟩ | hfin
  . have hcoherent := (h.drain.sound tt.tg tg hg).coherent
    rw [LL.Coherent, hlen] at hcoherent
    rw [hg, queueOf, List.length_eq_zero_iff.mp hcoherent.symm] at hq
    cases hq
  . unfold taskIn at htask
    split at htask
    . cases htask
    . next tti hi =>
      obtain ⟨w', hw', heq⟩ := Option.map_eq_some_iff.mp htask
      rw [Prod.mk.injEq] at heq
      have hrun := (h.threads.ok i tti hi).running_of_currTask hw'
      have hit := honly i (h.threads.active i tti tg hi hrun (by rw [heq.2]; exact hg))
      rw [hit, htt] at hi
      cases hi
      rw [hok.2] at hw'
      cases hw'
  . have hit := honly i (h.threads.apart k tt.tg i w tg hhand hg).2
    obtain ⟨tti, hi, _, hidle⟩ := h.threads.hand k tt.tg i w hhand
    rw [hit, htt] at hi
    cases hi
    rw [hok.1] at hidle
    cases hidle
  . exact hfin

theorem finished_of_cleared {a : Action} (h : GroupInv s) (ha : AcceptedInv s) (hs : Step s a s')
    (hflag : flagOf (s.groups g) = true) (hflag' : flagOf (s'.groups g) = false)
    : ∀ w, w ∈ s.accepted g → w ∈ s.finished := by
  have hsame : (∀ i, flagOf (s'.groups i) = flagOf (s.groups i)) →
      ∀ w, w ∈ s.accepted g → w ∈ s.finished := by
    intro heq
    rw [heq g, hflag] at hflag'
    cases hflag'
  -- a step that replaces another group keeps the flag
  have hother : ∀ i o, i ≠ g → s'.groups = update s.groups i o →
      ∀ w, w ∈ s.accepted g → w ∈ s.finished := by
    intro i o hne hgroups
    rw [hgroups, update_of_ne hne.symm, hflag] at hflag'
    cases hflag'
  cases hs with
  | start req s' hs => cases hs <;> exact hsame (fun _ => rfl)
  | caller k s' hs =>
    cases hs with
    | build min max flags hpc =>
      refine hother s.nextGroup _ ?_ rfl
      rintro rfl
      rw [h.fresh.nextGroup_eq_none] at hflag
      cases hflag
    | spawn i n max tg hpc hg | endSpawn i max tg hpc hg | close i by_ tg hpc hg
    | endWake i ts by_ tg hpc hg | wake i ts by_ tg t rest tt hpc hg | queue i w tg pc hpc hg
    | reserve i w tg t rest hpc hg =>
      exact hsame (flagOf_setGroup hg rfl rfl)
    | flag i gs before tg hpc hg =>
      by_cases hi : i = g
      . simp [hi, flagOf] at hflag'
      . exact hother i _ hi rfl
    | endJoinPool i tg hpc hg | refund i tg hpc hg =>
      by_cases hi : i = g
      . subst hi
        obtain ⟨tg', _, hshut⟩ := shut_of_emptied h ha (k := k) (g := i) (by rw [hpc]; rfl)
        intro w hw
        exact (hshut.works w hw).1
      . exact hother i _ hi rfl
    | _ => exact hsame (fun _ => rfl)
  | worker t s' hs =>
    cases hs with
    | fetch tt tg w rest htt hpc hg | leave tt tg htt hpc hg => exact hsame (flagOf_setGroup hg rfl rfl)
    | goIdle tt tg wait htt hpc hg hlock hlen hkill hrun hwait =>
      by_cases hi : tt.tg = g
      . subst hi
        cases wait with
        | true =>
          simp only [Bool.true_eq, Bool.and_eq_true, beq_iff_eq] at hwait
          exact finished_of_last h ha htt hpc hg hlen hwait.2
        | false => exact hsame (flagOf_setGroup hg rfl (by simp))
      . exact hother tt.tg _ hi rfl
    | _ => exact hsame (fun _ => rfl)
  | manager m timedOut s' hs =>
    cases hs with
    | look i gs tg hpc hg | endSpawn i gs tg hpc hg | spawnTask i n gs tg w rest hpc hg
    | spawnNone i n gs tg hpc hg =>
      exact hsame (flagOf_setGroup hg rfl rfl)
    | _ => exact hsame (fun _ => rfl)

theorem finished_subset {a : Action} (hs : Step s a s') : s.finished ⊆ s'.finished := by
  cases hs with
  | start req s' hs => cases hs <;> exact List.Subset.refl _
  | caller k s' hs => cases hs <;> exact List.Subset.refl _
  | worker t s' hs =>
    cases hs with
    | ret tt w => apply List.subset_append_left
    | _ => exact List.Subset.refl _
  | manager m timedOut s' hs => cases hs <;> exact List.Subset.refl _

structure Awaits (g : Nat) (works : List Nat) (s : Sys) : Prop where
  accepted : works ⊆ s.accepted g
  finished : flagOf (s.groups g) = true ∨ works ⊆ s.finished

theorem Awaits.step {a : Action} {works : List Nat} (h : Awaits g works s) (hi : GroupInv s)
    (ha : AcceptedInv s) (hs : Step s a s')
    : Awaits g works s' := by
  refine ⟨List.Subset.trans h.accepted (extends_of_step hs g).1.subset, ?_⟩
  rcases h.finished with hflag | hfinished
  . cases hflag' : flagOf (s'.groups g) with
    | true => exact .inl rfl
    | false =>
      right
      intro w hw
      apply finished_subset hs
      exact finished_of_cleared hi ha hs hflag hflag' w (h.accepted hw)
  . exact .inr (List.Subset.trans hfinished (finished_subset hs))

end

structure AccountInv (x : Watch) : Prop where
  group : GroupInv x.sys
  accepted : AcceptedInv x.sys
  linked : LinkedInv x.sys
  apart : ApartInv x.sys
  listed : Tally.Listed x.tally
  exact : Tally.Exact x.tally

namespace AccountInv

variable {x x' : Watch}

theorem init {maxThrds : Nat} {tp : TPool} (h : TPool.initPool maxThrds = some tp)
    : AccountInv (.init tp) := by
  refine ⟨.init h, .init tp, .init h, .init h, ?_, ?_⟩ <;> rw [Watch.tally_init h] <;> constructor <;>
    simp [Tally.State.owed, Tally.State.raised]

theorem step {a : Action} (h : AccountInv x) (ha : Apart x.sys a) (hs : x.step a = some x')
    : AccountInv x' := by
  obtain ⟨⟨e, htally, _, horderly⟩, hstep⟩ := Simulates.step h.group.toPoolInv hs
  have hundisturbed := h.apart.undisturbed h.exact h.group.fresh h.linked a
  constructor
  . apply h.group.step hstep
  . apply h.accepted.step h.group.toPoolInv hstep
  . apply h.linked.step h.group.fresh hstep
  . apply h.apart.step h.exact h.group.fresh ha hstep
  . apply h.listed.step htally
  . apply h.exact.step h.listed (horderly hundisturbed) htally

end AccountInv

/--
The counter, the flags and what is left of them when `wait_pool` returns.
-/
structure Handshake (x : Watch) : Prop where
  count : x.sys.pool.mutexPool = none →
    x.sys.pool.groupsWaiting = x.sys.flagged.card + x.sys.due.card
  nonneg : 0 ≤ x.sys.pool.groupsWaiting
  done : ∀ k before, x.sys.calls k = .waitDone before → ∀ g, flagOf (x.sys.groups g) = false

/--
The decrement of a worker wakes up everybody who sleeps iff it brings the counter to 0.
-/
def BroadcastsAtZero (x : Watch) : Prop :=
  ∀ t x', x.step (.worker t) = some x' → settles (x.sys.thrds t) = true →
    x'.sys.pool.groupsWaiting = x.sys.pool.groupsWaiting - 1 ∧
    x'.broadcasts = (if x'.sys.pool.groupsWaiting = 0 then x.broadcasts + 1 else x.broadcasts) ∧
    (x'.sys.pool.groupsWaiting = 0 → ∀ k, (x'.sys.calls k).blocked = true → x'.woken k = true)

theorem broadcastsAtZero (x : Watch) : BroadcastsAtZero x := by
  intro t x' hs hsettles
  unfold Watch.step at hs
  split at hs
  . cases hs
  . next s' hstep =>
    have hcount : s'.pool.groupsWaiting = x.sys.pool.groupsWaiting - 1 := by
      unfold settles at hsettles
      split at hsettles
      . cases hsettles
      . next tt htt =>
        simp only [Sys.step, Sys.workerStep, htt, beq_iff_eq.mp hsettles] at hstep
        split at hstep <;> cases hstep
        rfl
    dsimp only at hs
    split at hs
    . next hzero =>
      cases hs
      refine ⟨hcount, (if_pos hzero.2).symm, ?_⟩
      intro _ k hblocked
      simp only [Watch.broadcast, Bool.or_eq_true]
      exact .inr hblocked
    . next hzero =>
      cases hs
      have hne : s'.pool.groupsWaiting ≠ 0 := fun h => hzero ⟨hsettles, h⟩
      exact ⟨hcount, (if_neg hne).symm, fun h => absurd h hne⟩

theorem AccountInv.handshake {x : Watch} (h : AccountInv x) : Handshake x := by
  have hcount : x.sys.pool.groupsWaiting = x.tally.owed := h.exact.count
  refine ⟨?_, ?_, ?_⟩
  . intro hlock
    have hlinked : x.sys.flagged ⊆ x.tally.linked := h.exact.linked
    rw [hcount, Tally.owed_of_none (left_of_free hlock)]
    simp only [Watch.tally] at hlinked ⊢
    rw [Finset.inter_eq_left.mpr hlinked]
    rfl
  . omega
  . intro k before hpc g
    have hnone := h.apart.remaining_of_others (k := k) (by rw [hpc]; rfl) (by rw [hpc]; rfl)
    rw [← Bool.not_eq_true, ← mem_flagged h.group.fresh, (h.apart.quiet h.exact hnone).2.1]
    apply Finset.notMem_empty

theorem awaits_of_flag {x x' : Watch} {k g : Nat} {gs before : List Nat} {tg : TGroup}
    (hpc : x.sys.calls k = .waitLook (g :: gs) before) (hg : x.sys.groups g = some tg)
    (hqueue : tg.q.qEmpty = false) (hs : x.step (.caller k) = some x')
    : Awaits g (x.sys.accepted g) x'.sys := by
  unfold Watch.step at hs
  split at hs
  . cases hs
  . next s' hstep =>
    cases hs
    simp only [Sys.step, Sys.callStep, hpc, hg, hqueue] at hstep
    split at hstep
    . cases hstep
      refine ⟨List.Subset.refl _, .inl ?_⟩
      simp [flagOf]
    . cases hstep

theorem handshake_of_apart {maxThrds : Nat} {tp : TPool} {as bs : List Action} {x y : Watch}
    (hinit : TPool.initPool maxThrds = some tp)
    (has : Lts.Along Watch.step (fun x a => Apart x.sys a) (.init tp) as)
    (hx : Lts.run Watch.step (.init tp) as = some x)
    (hbs : Lts.Along Watch.step (fun x a => Apart x.sys a) x bs)
    (hy : Lts.run Watch.step x bs = some y)
    : Handshake y ∧ BroadcastsAtZero y ∧
        ∀ k g gs before before' tg cs, bs = .caller k :: cs →
          x.sys.calls k = .waitLook (g :: gs) before → x.sys.groups g = some tg →
          tg.q.qEmpty = false → y.sys.calls k = .waitDone before' →
          ∀ w, w ∈ x.sys.accepted g → w ∈ y.sys.finished := by
  have hinvx := Lts.invariant_along (fun _ _ _ h => h.step) (AccountInv.init hinit) has hx
  have hinvy := Lts.invariant_along (fun _ _ _ h => h.step) hinvx hbs hy
  refine ⟨hinvy.handshake, broadcastsAtZero y, ?_⟩
  rintro k g gs before before' tg cs rfl hpc hg hqueue hdone w hw
  obtain ⟨x₁, hs, hcs⟩ := Option.bind_eq_some_iff.mp hy
  have hawaits := awaits_of_flag hpc hg hqueue hs
  have hinv : AccountInv y ∧ Awaits g (x.sys.accepted g) y.sys := by
    refine Lts.invariant_along (I := fun x₁ => AccountInv x₁ ∧ Awaits g (x.sys.accepted g) x₁.sys)
      ?_ ⟨hinvx.step hbs.1 hs, hawaits⟩ (hbs.2 x₁ hs) hcs
    intro x₂ a x₃ ⟨hi, ha⟩ hapart hs
    have hstep := (Simulates.step hi.group.toPoolInv hs).2
    exact ⟨hi.step hapart hs, ha.step hi.group hi.accepted hstep⟩
  rcases hinv.2.finished with hflag | hfinished
  . rw [hinvy.handshake.done k before' hdone g] at hflag
    cases hflag
  . exact hfinished hw

theorem handshake_queued_work
    : ∃ tp x y, TPool.initPool 4 = some tp ∧
        Lts.run Watch.step (.init tp) (.call (.addGroup 1 1 0) :: List.replicate 5 (.caller 0) ++
          .call (.doWork 0 7) :: List.replicate 3 (.caller 1) ++
          [.call .waitPool, .caller 2]) = some x ∧
        Lts.run Watch.step x (List.replicate 2 (.caller 2) ++ List.replicate 7 (.worker 0) ++
          [.caller 2]) = some y ∧
        Handshake y ∧ y.sys.calls 2 = .waitDone [7] ∧ x.sys.accepted 0 = [7] ∧ 7 ∈ y.sys.finished := by
  refine ⟨_, _, _, rfl, rfl, rfl, ?_⟩
  have h := @handshake_of_apart 4 _ (.call (.addGroup 1 1 0) :: List.replicate 5 (.caller 0) ++
    .call (.doWork 0 7) :: List.replicate 3 (.caller 1) ++ [.call .waitPool, .caller 2])
    (List.replicate 2 (.caller 2) ++ List.replicate 7 (.worker 0) ++ [.caller 2]) _ _ rfl
    (by decide) rfl (by decide) rfl
  exact ⟨h.1, rfl, rfl, h.2.2 2 0 _ _ _ _ _ rfl rfl rfl rfl rfl 7 (by decide)⟩

end Pool
