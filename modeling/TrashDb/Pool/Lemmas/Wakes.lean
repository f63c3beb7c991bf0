import TrashDb.Pool.Lemmas.Joins

/-!
This module contains who wakes up a thread that is idle. A thread is reserved by a `do_work` that has taken
it out of the list of idle threads and has not locked its mutex yet. The ones that are still in the list
belong to the call that is destroying the group, if there is one. So there is at most one party that is about
to wake up a thread, and there is one for each idle thread that is not in the list.
-/

namespace Pool

open Function

def Sys.Reserves (s : Sys) (k t : Nat) : Prop := ∃ g w, s.calls k = .hand g t w

def Sys.Wakes (s : Sys) (k t : Nat) : Prop :=
  s.Reserves k t ∨
    ∃ g ts by_ tg, s.calls k = .wake g ts by_ ∧ s.groups g = some tg ∧ t ∈ tg.idleThrds.items

inductive ThrdStep (s s' : Sys) (a : Action) (t : Nat) (tt tt' : TThread) : Prop where
  | same (heq : tt' = tt)
  | own (ha : a = .worker t) (hs : WorkerStep s t s')
  | woken (k : Nat) (ha : a = .caller k) (hk : s.Wakes k t) (hrun : tt'.state = .running)
    (hpc : tt'.pc = tt.pc)

section

variable {s s' : Sys} {a : Action} {g k t : Nat} {tt tt' : TThread}

theorem thrd_cases (hs : Step s a s') (ht' : s'.thrds t = some tt')
    : (t = s.nextThrd ∧ tt'.state = .running ∧ ∃ tg, s'.groups tt'.tg = some tg) ∨
      ∃ tt, s.thrds t = some tt ∧ tt'.tg = tt.tg ∧ ThrdStep s s' a t tt tt' := by
  have hsame : s.thrds t = some tt' →
      ∃ tt, s.thrds t = some tt ∧ tt'.tg = tt.tg ∧ ThrdStep s s' a t tt tt' :=
    fun ht => ⟨tt', ht, rfl, .same rfl⟩
  have hset : ∀ {i tti tti'}, s.thrds i = some tti → s'.thrds = update s.thrds i (some tti') →
      tti'.tg = tti.tg → ThrdStep s s' a i tti tti' →
      ∃ tt, s.thrds t = some tt ∧ tt'.tg = tt.tg ∧ ThrdStep s s' a t tt tt' := by
    intro i tti tti' hi hthrds htg hstep
    rcases setThrd_cases hthrds ht' with ⟨rfl, ho⟩ | ⟨_, ht⟩
    . cases ho
      exact ⟨tti, hi, htg, hstep⟩
    . exact hsame ht
  have hnew : ∀ {i tgi work}, s'.groups = (s.spawn i tgi work).groups →
      s'.thrds = (s.spawn i tgi work).thrds →
      (t = s.nextThrd ∧ tt'.state = .running ∧ ∃ tg, s'.groups tt'.tg = some tg) ∨
      s.thrds t = some tt' := by
    intro i tgi work hgroups hthrds
    rcases setThrd_cases hthrds ht' with ⟨heq, ho⟩ | ⟨_, ht⟩
    . cases ho
      refine .inl ⟨heq, rfl, ?_⟩
      rw [hgroups]
      exact ⟨_, update_self _ _ _⟩
    . exact .inr ht
  cases hs with
  | start req s' hs => cases hs <;> exact .inr (hsame ht')
  | caller k s' hs =>
    cases hs with
    | spawn g n max tg hpc hg => exact (hnew rfl rfl).imp_right hsame
    | wake g ts by_ tg t' rest tt hpc hg hlen hitems htt =>
      have hwakes : s.Wakes k t' := by
        refine .inr ⟨g, ts, by_, tg, hpc, hg, ?_⟩
        rw [hitems]
        apply List.mem_cons_self
      exact .inr (hset htt rfl rfl (.woken k rfl hwakes rfl rfl))
    | hand g t' w tt hpc htt => exact .inr (hset htt rfl rfl (.woken k rfl (.inl ⟨g, w, hpc⟩) rfl rfl))
    | _ => exact .inr (hsame ht')
  | worker i s' hs =>
    have hstep := hs
    cases hs with
    | leave tt tg htt =>
      rcases setThrd_cases rfl ht' with ⟨_, ho⟩ | ⟨_, ht⟩
      . cases ho
      . exact .inr (hsame ht)
    | topTask tt w htt | topNone tt htt | call tt w htt | inFunc tt w htt | ret tt w htt
    | hardKill tt tg htt | fetch tt tg w rest htt | softKill tt tg htt | goIdle tt tg wait htt
    | decr tt htt | block tt htt | awake tt htt =>
      exact .inr (hset htt rfl rfl (.own rfl hstep))
  | manager m timedOut s' hs =>
    cases hs with
    | spawnTask g n gs tg w rest hpc hg => exact (hnew rfl rfl).imp_right hsame
    | spawnNone g n gs tg hpc hg => exact (hnew rfl rfl).imp_right hsame
    | _ => exact .inr (hsame ht')

/--
A thread that is idle does not wake up by itself.
-/
theorem WorkerStep.idle_of_idle (hs : WorkerStep s t s') (ht : s.thrds t = some tt)
    (hidle : tt.state = .idle) (ht' : s'.thrds t = some tt')
    : tt'.state = .idle ∧ (tt.pc = .blocked → tt'.pc = .blocked) := by
  have hset : ∀ {tti}, s'.thrds = update s.thrds t (some tti) → tti = tt' := by
    intro tti hthrds
    rw [hthrds, update_self] at ht'
    exact Option.some.inj ht'
  cases hs with
  | leave tt₀ tg htt hpc hg hlock hstate =>
    cases ht.symm.trans htt
    exact absurd hidle hstate
  | awake tt₀ htt hpc hstate =>
    cases ht.symm.trans htt
    exact absurd hidle hstate
  | block tt₀ htt hpc hstate =>
    cases ht.symm.trans htt
    cases hset rfl
    exact ⟨hidle, fun _ => rfl⟩
  | goIdle tt₀ tg wait htt hpc hg hlock hlen hkill hrun =>
    cases ht.symm.trans htt
    rw [hrun] at hidle
    cases hidle
  | topTask tt₀ w htt hpc | topNone tt₀ htt hpc | call tt₀ w htt hpc | inFunc tt₀ w htt hpc
  | ret tt₀ w htt hpc | hardKill tt₀ tg htt hpc | fetch tt₀ tg w rest htt hpc | softKill tt₀ tg htt hpc
  | decr tt₀ htt hpc =>
    cases ht.symm.trans htt
    cases hset rfl
    refine ⟨hidle, ?_⟩
    rw [hpc]
    simp

theorem exists_of_step (hs : Step s a s') (ht : s.thrds t = some tt) (hpc : tt.pc ≠ .leave)
    : ∃ tt', s'.thrds t = some tt' := by
  have hset : ∀ {i tti}, s'.thrds = update s.thrds i (some tti) → ∃ tt', s'.thrds t = some tt' := by
    intro i tti hthrds
    rw [hthrds, update_apply]
    split
    . exact ⟨tti, rfl⟩
    . exact ⟨tt, ht⟩
  cases hs with
  | start req s' hs => cases hs <;> exact ⟨tt, ht⟩
  | caller k s' hs =>
    cases hs with
    | spawn | wake | hand => exact hset rfl
    | _ => exact ⟨tt, ht⟩
  | worker i s' hs =>
    cases hs with
    | leave tti tg hi hleave =>
      by_cases hti : t = i
      . subst hti
        cases ht.symm.trans hi
        exact absurd hleave hpc
      . simp only [Sys.freeThrd, Sys.setGroup, update_of_ne hti]
        exact ⟨tt, ht⟩
    | _ => exact hset rfl
  | manager m timedOut s' hs =>
    cases hs with
    | spawnTask | spawnNone => exact hset rfl
    | _ => exact ⟨tt, ht⟩

theorem woken_of_step (hs : Step s a s') (ht : s.thrds t = some tt) (hidle : tt.state = .idle)
    (hnew : t < s.nextThrd) (ht' : s'.thrds t = some tt') (hawake : tt'.state ≠ .idle)
    : ∃ k, a = .caller k ∧ s.Wakes k t := by
  rcases thrd_cases hs ht' with ⟨rfl, _⟩ | ⟨tt₀, ht₀, _, hstep⟩
  . omega
  . cases ht.symm.trans ht₀
    cases hstep with
    | same heq => exact absurd (heq ▸ hidle) hawake
    | own ha hs => exact absurd (hs.idle_of_idle ht hidle ht').1 hawake
    | woken k ha hk hrun hpc => exact ⟨k, ha, hk⟩

def Housed (s : Sys) : Prop := ∀ t tt, s.thrds t = some tt → ∃ tg, s.groups tt.tg = some tg

theorem Housed.step (h : Housed s) (hi : GroupInv s) (hs : Step s a s') : Housed s' := by
  intro t tt' ht'
  rcases thrd_cases hs ht' with ⟨_, _, hg'⟩ | ⟨tt, ht, htg, _⟩
  . exact hg'
  . obtain ⟨tg, hg⟩ := h t tt ht
    rw [htg]
    cases hg' : s'.groups tt.tg with
    | some tg' => exact ⟨tg', rfl⟩
    | none =>
      -- The group is freed in this step, so all of its threads have returned before.
      obtain ⟨k, hk⟩ := freed_of_step hs hg hg'
      have hmem : t ∈ tg.members := by
        rw [hi.lists.members tt.tg tg t hg, ht]
        rfl
      have hnamed := hi.lists.named tt.tg tg t hg hmem
      have hnone := (hi.drain.unjoined k tt.tg [] tg t hk hg hnamed).resolve_left (by simp)
      rw [ht] at hnone
      cases hnone

theorem WorkerStep.mem_idle {tg' : TGroup} (hs : WorkerStep s t s') (ht : s.thrds t = some tt)
    (hawake : tt.state ≠ .idle) (ht' : s'.thrds t = some tt') (hidle : tt'.state = .idle)
    (hg' : s'.groups tt.tg = some tg')
    : t ∈ tg'.idleThrds.items := by
  have hset : ∀ {tti}, s'.thrds = update s.thrds t (some tti) → tti = tt' := by
    intro tti hthrds
    rw [hthrds, update_self] at ht'
    exact Option.some.inj ht'
  cases hs with
  | leave tt₀ tg htt =>
    simp only [Sys.freeThrd, update_self] at ht'
    cases ht'
  | goIdle tt₀ tg wait htt hpc hg =>
    cases ht.symm.trans htt
    rcases setGroup_cases rfl hg' with ⟨_, rfl⟩ | ⟨hne, _⟩
    . simp
    . exact absurd rfl hne
  | topTask tt₀ w htt | topNone tt₀ htt | call tt₀ w htt | inFunc tt₀ w htt | ret tt₀ w htt
  | hardKill tt₀ tg htt | fetch tt₀ tg w rest htt | softKill tt₀ tg htt | decr tt₀ htt | block tt₀ htt
  | awake tt₀ htt =>
    cases ht.symm.trans htt
    cases hset rfl
    exact absurd hidle hawake

/--
Whoever takes an idle thread out of the list reserves it or wakes it up.
-/
theorem idle_kept {tg tg' : TGroup} (hf : Fresh s) (hs : Step s a s') (hg : s.groups g = some tg)
    (hg' : s'.groups g = some tg') (hmem : t ∈ tg.idleThrds.items) (ht' : s'.thrds t = some tt')
    (hidle : tt'.state = .idle)
    : t ∈ tg'.idleThrds.items ∨ ∃ k, s'.Reserves k t := by
  have hkeep : Keeps TGroup.idleThrds s s' → t ∈ tg'.idleThrds.items ∨ ∃ k, s'.Reserves k t := by
    intro hkeeps
    obtain ⟨tg₀, hg₀, heq⟩ := hkeeps g tg' hg'
    cases hg.symm.trans hg₀
    rw [heq]
    exact .inl hmem
  -- Only the list of the group that the step writes can differ.
  have hset : ∀ {i : Nat} {tgi tgn : TGroup}, s.groups i = some tgi →
      s'.groups = update s.groups i (some tgn) →
      (t ∈ tgi.idleThrds.items → t ∈ tgn.idleThrds.items ∨ ∃ k, s'.Reserves k t) →
      t ∈ tg'.idleThrds.items ∨ ∃ k, s'.Reserves k t := by
    intro i tgi tgn hi hgroups hlist
    rcases setGroup_cases hgroups hg' with ⟨rfl, rfl⟩ | ⟨_, hg'⟩
    . cases hg.symm.trans hi
      exact hlist hmem
    . cases hg.symm.trans hg'
      exact .inl hmem
  cases hs with
  | start req s' hs => cases hs <;> exact hkeep (keeps_of_eq rfl)
  | caller k s' hs =>
    cases hs with
    | build min max flags hpc =>
      rcases setGroup_cases rfl hg' with ⟨rfl, _⟩ | ⟨_, hg'⟩
      . rw [hf.nextGroup_eq_none] at hg
        cases hg
      . cases hg.symm.trans hg'
        exact .inl hmem
    | wake i ts by_ tgi t₀ rest tt hpc hi hlen hitems htt =>
      refine hset hi rfl ?_
      intro hmem
      rw [hitems, List.mem_cons] at hmem
      rcases hmem with rfl | hmem
      . simp only [Sys.setThrd, update_self, Option.some.injEq] at ht'
        rw [← ht'] at hidle
        cases hidle
      . exact .inl hmem
    | reserve i w tgi t₀ rest hpc hi hlock hclose hlen hitems =>
      refine hset hi rfl ?_
      intro hmem
      rw [hitems, List.mem_cons] at hmem
      rcases hmem with rfl | hmem
      . refine .inr ⟨k, i, w, ?_⟩
        simp only [Sys.setCall, update_self]
      . exact .inl hmem
    | spawn i n max tgi hpc hi | endSpawn i max tgi hpc hi | close i by_ tgi hpc hi
    | endWake i ts by_ tgi hpc hi | queue i w tgi pc hpc hi | flag i gs before tgi hpc hi =>
      exact hkeep (keeps_setGroup rfl hi rfl)
    | endJoinPool i tgi hpc hi | refund i tgi hpc hi => exact hkeep (keeps_freeGroup rfl)
    | _ => exact hkeep (keeps_of_eq rfl)
  | worker i s' hs =>
    cases hs with
    | fetch tt tgi w rest htt hpc hi => exact hkeep (keeps_setGroup rfl hi rfl)
    | goIdle tt tgi wait htt hpc hi =>
      refine hset hi rfl ?_
      intro hmem
      left
      rw [LL.listAppend_items, List.mem_append, List.mem_singleton, LL.itemRemove_items]
      by_cases hti : t = i
      . exact .inr hti
      . exact .inl ((List.mem_erase_of_ne hti).mpr hmem)
    | leave tt tgi htt hpc hi =>
      refine hset hi rfl ?_
      intro hmem
      left
      have hti : t ≠ i := by
        rintro rfl
        simp only [Sys.freeThrd, update_self] at ht'
        cases ht'
      rw [LL.itemRemove_items]
      exact (List.mem_erase_of_ne hti).mpr hmem
    | _ => exact hkeep (keeps_of_eq rfl)
  | manager m timedOut s' hs =>
    cases hs with
    | look i gs tgi hpc hi | spawnTask i n gs tgi w rest hpc hi | spawnNone i n gs tgi hpc hi
    | endSpawn i gs tgi hpc hi =>
      exact hkeep (keeps_setGroup rfl hi rfl)
    | _ => exact hkeep (keeps_of_eq rfl)

theorem reserves_kept (hf : Fresh s) (hs : Step s a s') (hk : s.Reserves k t) (ht' : s'.thrds t = some tt')
    (hidle : tt'.state = .idle)
    : s'.Reserves k t := by
  obtain ⟨g, w, hpc⟩ := hk
  refine ⟨g, w, ?_⟩
  rw [← hpc]
  cases hs with
  | start req s' hs =>
    apply hs.calls_of_ne
    rintro rfl
    rw [hf.nextCall_eq_returned] at hpc
    cases hpc
  | caller i s' hs =>
    by_cases hik : k = i
    . subst hik
      cases hs with
      | hand g' t' w' tt hpc' htt =>
        cases hpc.symm.trans hpc'
        simp only [Sys.setCall, Sys.setThrd, update_self, Option.some.injEq] at ht'
        rw [← ht'] at hidle
        cases hidle
      | block before hpc' | endWait before hpc' => rcases hpc' with hpc' | ⟨hpc', _⟩ <;> simp [hpc] at hpc'
      | _ => simp_all
    . exact hs.calls_of_ne hik
  | worker i s' hs => rw [hs.calls_eq]
  | manager m timedOut s' hs => rw [hs.calls_eq]

end

/--
An idle thread is in the list of its group, or a `do_work` has reserved it.
-/
def Reserved (s : Sys) : Prop :=
  ∀ t tt tg, s.thrds t = some tt → tt.state = .idle → s.groups tt.tg = some tg →
    t ∈ tg.idleThrds.items ∨ ∃ k, s.Reserves k t

theorem Reserved.step {s s' : Sys} {a : Action} (h : Reserved s) (hhoused : Housed s) (hf : Fresh s)
    (hs : Step s a s')
    : Reserved s' := by
  intro t tt' tg' ht' hidle hg'
  rcases thrd_cases hs ht' with ⟨_, hrun, _⟩ | ⟨tt, ht, htg, hstep⟩
  . rw [hrun] at hidle
    cases hidle
  . rw [htg] at hg'
    by_cases hold : tt.state = .idle
    . obtain ⟨tg, hg⟩ := hhoused t tt ht
      rcases h t tt tg ht hold hg with hmem | ⟨k, hk⟩
      . exact idle_kept hf hs hg hg' hmem ht' hidle
      . exact .inr ⟨k, reserves_kept hf hs hk ht' hidle⟩
    . cases hstep with
      | same heq => exact absurd (heq ▸ hidle) hold
      | own ha hs => exact .inl (hs.mem_idle ht hold ht' hidle hg')
      | woken k ha hk hrun hpc =>
        rw [hrun] at hidle
        cases hidle

structure WakeInv (s : Sys) : Prop extends GroupInv s where
  housed : Housed s
  reserved : Reserved s

namespace WakeInv

variable {s s' : Sys} {a : Action} {g k k' t w : Nat} {tg : TGroup} {tt : TThread}

theorem init {maxThrds : Nat} {tp : TPool} (h : TPool.initPool maxThrds = some tp) : WakeInv (.init tp) := by
  refine ⟨GroupInv.init h, ?_, ?_⟩
  . intro t tt ht
    cases ht
  . intro t tt tg ht
    cases ht

theorem step (h : WakeInv s) (hs : Step s a s') : WakeInv s' :=
  ⟨h.toGroupInv.step hs, h.housed.step h.toGroupInv hs, h.reserved.step h.housed h.fresh hs⟩

theorem of_run {maxThrds : Nat} {tp : TPool} {as : List Action} {s : Sys}
    (hinit : TPool.initPool maxThrds = some tp) (hrun : run (.init tp) as = some s)
    : WakeInv s := by
  refine Lts.invariant_run ?_ (WakeInv.init hinit) hrun
  intro s a s' h hs
  exact h.step (step_of_step hs)

theorem asleep_of_parked (h : WakeInv s) (hp : Parked s g t)
    : ∃ tt, s.thrds t = some tt ∧ tt.state = .idle ∧ tt.currTask = none := by
  obtain ⟨tt, ht, _, hidle⟩ := hp
  exact ⟨tt, ht, hidle, (h.threads.ok t tt ht).currTask_of_idle hidle⟩

theorem not_reserved (h : WakeInv s) (hg : s.groups g = some tg) (hmem : t ∈ tg.idleThrds.items)
    : ¬ s.Reserves k t := by
  rintro ⟨g', w, hpc⟩
  have heq := (h.threads.hand k g' t w hpc).group_unique (h.threads.idle g tg t hg hmem)
  rw [heq] at hpc
  exact (h.threads.apart k g t w tg hpc hg).1 hmem

theorem wakes_unique (h : WakeInv s) (hk : s.Wakes k t) (hk' : s.Wakes k' t) : k = k' := by
  rcases hk with hk | ⟨g, ts, by_, tg, hpc, hg, hmem⟩ <;>
    rcases hk' with hk' | ⟨g', ts', by', tg', hpc', hg', hmem'⟩
  . obtain ⟨g, w, hpc⟩ := hk
    obtain ⟨g', w', hpc'⟩ := hk'
    exact h.threads.unique k k' g g' t w w' hpc hpc'
  . exact absurd hk (h.not_reserved hg' hmem')
  . exact absurd hk' (h.not_reserved hg hmem)
  . cases (h.threads.idle g tg t hg hmem).group_unique (h.threads.idle g' tg' t hg' hmem')
    have hholds : s.holdsGroup (.call k) = some g := by
      rw [Sys.holdsGroup, hpc]
      rfl
    have hholds' : s.holdsGroup (.call k') = some g := by
      rw [Sys.holdsGroup, hpc']
      rfl
    cases TableInv.holder_unique h.groupLock hg hholds hholds'
    rfl

theorem existsUnique_reserves (h : WakeInv s) (ht : s.thrds t = some tt) (hidle : tt.state = .idle)
    (hg : s.groups tt.tg = some tg) (hnot : t ∉ tg.idleThrds.items)
    : ∃! k, s.Reserves k t := by
  obtain ⟨k, hk⟩ := (h.reserved t tt tg ht hidle hg).resolve_left hnot
  exact ⟨k, hk, fun k' hk' => h.wakes_unique (.inl hk') (.inl hk)⟩

def Pending (k g t w : Nat) (s : Sys) : Prop :=
  s.calls k = .hand g t w ∧ ∃ tt, s.thrds t = some tt ∧ tt.pc = .blocked

theorem pending_step (h : WakeInv s) (hs : Step s a s') (ha : a ≠ .caller k) (hp : Pending k g t w s)
    : Pending k g t w s' := by
  obtain ⟨hpc, tt, ht, hblocked⟩ := hp
  obtain ⟨tt₀, ht₀, _, hidle⟩ := h.threads.hand k g t w hpc
  cases ht.symm.trans ht₀
  have hcall : s'.calls k = s.calls k := by
    cases hs with
    | start req s' hs =>
      apply hs.calls_of_ne
      rintro rfl
      rw [h.fresh.nextCall_eq_returned] at hpc
      cases hpc
    | caller i s' hs =>
      apply hs.calls_of_ne
      rintro rfl
      exact ha rfl
    | worker i s' hs => rw [hs.calls_eq]
    | manager m timedOut s' hs => rw [hs.calls_eq]
  obtain ⟨tt', ht'⟩ := exists_of_step hs ht (by rw [hblocked]; simp)
  refine ⟨hcall.trans hpc, tt', ht', ?_⟩
  rcases thrd_cases hs ht' with ⟨rfl, _⟩ | ⟨tt₀, ht₀, _, hstep⟩
  . rw [h.fresh.nextThrd_eq_none] at ht
    cases ht
  . cases ht.symm.trans ht₀
    cases hstep with
    | same heq => rw [heq, hblocked]
    | own _ hs => exact (hs.idle_of_idle ht hidle ht').2 hblocked
    | woken k' hk' hwakes hrun hpc' => rw [hpc', hblocked]

theorem pending_run {as : List Action} (h : WakeInv s) (hrun : run s as = some s')
    (has : ∀ a ∈ as, a ≠ .caller k) (hp : Pending k g t w s)
    : Pending k g t w s' := by
  have hstep : ∀ s a s', WakeInv s ∧ Pending k g t w s → a ≠ .caller k → s.step a = some s' →
      WakeInv s' ∧ Pending k g t w s' := by
    rintro s a s' ⟨h, hp⟩ ha hs
    have hs := step_of_step hs
    exact ⟨h.step hs, h.pending_step hs ha hp⟩
  exact (Lts.invariant_along hstep ⟨h, hp⟩ (Lts.along_of_forall has) hrun).2

theorem enabled_of_pending (hp : Pending k g t w s)
    : ∃ s' tt', s.step (.caller k) = some s' ∧ s'.thrds t = some tt' ∧ tt'.state = .running ∧
        tt'.currTask = some w := by
  obtain ⟨hpc, tt, ht, hblocked⟩ := hp
  have hlock : tt.pc.locked = false := by
    rw [hblocked]
    rfl
  refine ⟨(s.setThrd t { tt with currTask := some w, state := .running }).setCall k (.done w .poolSuccess),
    { tt with currTask := some w, state := .running }, ?_, ?_, rfl, rfl⟩
  . simp only [Sys.step, Sys.callStep, hpc, ht, hlock]
    rfl
  . simp only [Sys.setCall, Sys.setThrd, update_self]

end WakeInv

structure TGroup.Matched (s : Sys) (tg : TGroup) : Prop where
  idle : ∀ t ∈ tg.idleThrds.items,
    (∃ tt, s.thrds t = some tt ∧ tt.state = .idle ∧ tt.currTask = none) ∧ ∀ k, ¬ s.Reserves k t
  active : ∀ t ∈ tg.activeThrds.items, ∃ tt, s.thrds t = some tt ∧
    (tt.state = .idle → ∃! k, s.Reserves k t) ∧ (tt.state ≠ .idle → ∀ k, ¬ s.Reserves k t)

structure Woken (s : Sys) : Prop where
  hand : ∀ k t, s.Reserves k t → ∃ tt, s.thrds t = some tt ∧ tt.state = .idle ∧ tt.currTask = none
  once : ∀ k k' t, s.Wakes k t → s.Wakes k' t → k = k'
  onlyBy : ∀ a s' t tt tt', s.step a = some s' → s.thrds t = some tt → tt.state = .idle →
    s'.thrds t = some tt' → tt'.state ≠ .idle → ∃ k, a = .caller k ∧ s.Wakes k t
  asleep : ∀ t tt, s.thrds t = some tt → tt.state = .idle → ∃ tg, s.groups tt.tg = some tg ∧
    (t ∈ tg.idleThrds.items ∨ ∃ k, s.Reserves k t)
  pending : ∀ as s' k g t w tt, run s as = some s' → (∀ a ∈ as, a ≠ .caller k) →
    s.calls k = .hand g t w → s.thrds t = some tt → tt.pc = .blocked →
    ∃ s'' tt', s'.step (.caller k) = some s'' ∧ s''.thrds t = some tt' ∧ tt'.state = .running ∧
      tt'.currTask = some w

namespace WakeInv

variable {s : Sys} {g : Nat} {tg : TGroup}

theorem matched (h : WakeInv s) (hg : s.groups g = some tg) : tg.Matched s := by
  constructor
  . intro t hmem
    exact ⟨h.asleep_of_parked (h.threads.idle g tg t hg hmem), fun k => h.not_reserved hg hmem⟩
  . intro t hmem
    have hhome := (h.lists.members g tg t hg).mp (List.mem_append_right _ hmem)
    obtain ⟨tt, ht, htg⟩ := Option.map_eq_some_iff.mp hhome
    have hdisjoint := (List.nodup_append.mp (h.lists.nodup g tg hg)).2.2
    refine ⟨tt, ht, ?_, ?_⟩
    . intro hidle
      refine h.existsUnique_reserves ht hidle (htg ▸ hg) ?_
      exact fun hidle => hdisjoint t hidle t hmem rfl
    . rintro hawake k ⟨g', w, hpc⟩
      obtain ⟨tt₀, ht₀, _, hidle⟩ := h.threads.hand k g' t w hpc
      cases ht.symm.trans ht₀
      exact hawake hidle

theorem woken (h : WakeInv s) : Woken s := by
  constructor
  . rintro k t ⟨g, w, hpc⟩
    exact h.asleep_of_parked (h.threads.hand k g t w hpc)
  . exact fun k k' t => h.wakes_unique
  . intro a s' t tt tt' hs ht hidle ht' hawake
    have hnew : t < s.nextThrd := by
      apply h.fresh.thrds t
      rw [ht]
      simp
    exact woken_of_step (step_of_step hs) ht hidle hnew ht' hawake
  . intro t tt ht hidle
    obtain ⟨tg, hg⟩ := h.housed t tt ht
    exact ⟨tg, hg, h.reserved t tt tg ht hidle hg⟩
  . intro as s' k g t w tt hrun has hpc ht hblocked
    exact enabled_of_pending (h.pending_run hrun has ⟨hpc, tt, ht, hblocked⟩)

end WakeInv

theorem woken_of_run {maxThrds : Nat} {tp : TPool} {as : List Action} {s : Sys}
    (hinit : TPool.initPool maxThrds = some tp) (hrun : run (.init tp) as = some s)
    : (∀ g tg, s.groups g = some tg → tg.mutexGrp = none → tg.Matched s) ∧ Woken s := by
  have h := WakeInv.of_run hinit hrun
  exact ⟨fun g tg hg _ => h.matched hg, h.woken⟩

theorem woken_reserved_thread
    : ∃ tp s, TPool.initPool 4 = some tp ∧
        run (.init tp) (.call (.addGroup 1 1 0) :: List.replicate 5 (.caller 0) ++
          List.replicate 3 (.worker 0) ++ [.call (.doWork 0 7), .caller 1]) = some s ∧
        ((∀ g tg, s.groups g = some tg → tg.mutexGrp = none → tg.Matched s) ∧ Woken s) ∧
        s.calls 1 = .hand 0 0 7 := by
  refine ⟨_, _, rfl, rfl, ?_, rfl⟩
  exact @woken_of_run 4 _ (.call (.addGroup 1 1 0) :: List.replicate 5 (.caller 0) ++
    List.replicate 3 (.worker 0) ++ [.call (.doWork 0 7), .caller 1]) _ rfl rfl

end Pool
