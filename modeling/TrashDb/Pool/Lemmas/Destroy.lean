import TrashDb.Pool.Lemmas.Progress

/-!
This module contains that `destroy_group` can always return. Once the group has been closed its threads go
idle no more, and none of them is left in the list of idle threads when the call begins to join them. So each
of them can take the works that are left in the queue, find the queue empty and leave the group.
-/

namespace Pool

open Function Reach

structure ClosingInv (s : Sys) : Prop where
  joined : ∃ joined, JoinInv s joined
  soft : ∀ k g ts tg, (s.calls k).unjoined = some (g, ts) → s.groups g = some tg → tg.softKill = true
  idle : ∀ k g ts by_ tg, s.calls k = .join g ts by_ → s.groups g = some tg → tg.idleThrds.items = []

section

variable {s s' : Sys} {a : Action} {k g t w : Nat} {tg tg' : TGroup}

theorem softKill_of_step (hf : Fresh s) (hs : Step s a s') (hg : s.groups g = some tg)
    (hsoft : tg.softKill = true) (hg' : s'.groups g = some tg')
    : tg'.softKill = true ∧ (tg.idleThrds.items = [] → tg'.idleThrds.items = []) := by
  have hkeep : Keeps (fun tg => (tg.softKill, tg.idleThrds)) s s' →
      tg'.softKill = true ∧ (tg.idleThrds.items = [] → tg'.idleThrds.items = []) := by
    intro hkeeps
    obtain ⟨tg₀, hg₀, heq⟩ := hkeeps g tg' hg'
    cases hg.symm.trans hg₀
    rw [Prod.mk.injEq] at heq
    rw [heq.1, heq.2]
    exact ⟨hsoft, id⟩
  -- Only the group that the step writes can differ.
  have hset : ∀ {i : Nat} {tgi tgn : TGroup}, s.groups i = some tgi →
      s'.groups = update s.groups i (some tgn) →
      (tgi.softKill = true →
        tgn.softKill = true ∧ (tgi.idleThrds.items = [] → tgn.idleThrds.items = [])) →
      tg'.softKill = true ∧ (tg.idleThrds.items = [] → tg'.idleThrds.items = []) := by
    intro i tgi tgn hi hgroups hlist
    rcases setGroup_cases hgroups hg' with ⟨rfl, rfl⟩ | ⟨_, hg'⟩
    . cases hg.symm.trans hi
      exact hlist hsoft
    . cases hg.symm.trans hg'
      exact ⟨hsoft, id⟩
  cases hs with
  | start req s' hs => cases hs <;> exact hkeep (keeps_of_eq rfl)
  | caller k s' hs =>
    cases hs with
    | build min max flags hpc =>
      rcases setGroup_cases rfl hg' with ⟨rfl, _⟩ | ⟨_, hg'⟩
      . rw [hf.nextGroup_eq_none] at hg
        cases hg
      . cases hg.symm.trans hg'
        exact ⟨hsoft, id⟩
    | close i by_ tgi hpc hi => exact hset hi rfl fun _ => ⟨rfl, id⟩
    | wake i ts by_ tgi t rest tt hpc hi hlen hitems htt =>
      refine hset hi rfl fun hsoft => ⟨hsoft, ?_⟩
      simp [hitems]
    | reserve i w tgi t rest hpc hi hlock hclose hlen hitems =>
      refine hset hi rfl fun hsoft => ⟨hsoft, ?_⟩
      simp [hitems]
    | spawn i n max tgi hpc hi | endSpawn i max tgi hpc hi | endWake i ts by_ tgi hpc hi
    | queue i w tgi pc hpc hi | flag i gs before tgi hpc hi =>
      exact hkeep (keeps_setGroup rfl hi rfl)
    | endJoinPool i tgi hpc hi | refund i tgi hpc hi => exact hkeep (keeps_freeGroup rfl)
    | _ => exact hkeep (keeps_of_eq rfl)
  | worker t s' hs =>
    cases hs with
    | fetch tt tgi w rest htt hpc hi => exact hkeep (keeps_setGroup rfl hi rfl)
    | goIdle tt tgi wait htt hpc hi hlock hlen hkill =>
      refine hset hi rfl ?_
      simp [hkill]
    | leave tt tgi htt hpc hi =>
      refine hset hi rfl fun hsoft => ⟨hsoft, ?_⟩
      intro hnil
      simp [hnil]
    | _ => exact hkeep (keeps_of_eq rfl)
  | manager m timedOut s' hs =>
    cases hs with
    | look i gs tgi hpc hi | endSpawn i gs tgi hpc hi | spawnTask i n gs tgi w rest hpc hi
    | spawnNone i n gs tgi hpc hi =>
      exact hkeep (keeps_setGroup rfl hi rfl)
    | _ => exact hkeep (keeps_of_eq rfl)

theorem unjoined_cases {ts : List Nat} (hs : Step s a s') (hk : (s'.calls k).unjoined = some (g, ts))
    : (∃ ts', (s.calls k).unjoined = some (g, ts')) ∨ ∃ tg, s'.groups g = some tg ∧ tg.softKill = true := by
  cases hs with
  | start req s' hs =>
    by_cases hnext : k = s.nextCall
    . subst hnext
      cases hs <;> simp [CallPc.unjoined] at hk
    . rw [hs.calls_of_ne hnext] at hk
      exact .inl ⟨ts, hk⟩
  | caller i s' hs =>
    by_cases hki : k = i
    . subst hki
      cases hs with
      | close i by_ tgi hpc hi =>
        simp only [Sys.setCall, update_self, CallPc.unjoined, Option.some.injEq, Prod.mk.injEq] at hk
        obtain ⟨rfl, _⟩ := hk
        exact .inr ⟨_, update_self _ _ _, rfl⟩
      | wake i ts by_ tgi t rest tt hpc => exact .inl ⟨_, hk⟩
      | endWake i ts' by_ tgi hpc | join i t ts' by_ hpc | endJoinGroup i hpc =>
        simp only [Sys.setCall, update_self, CallPc.unjoined, Option.some.injEq, Prod.mk.injEq] at hk
        obtain ⟨rfl, _⟩ := hk
        exact .inl ⟨_, by rw [hpc]; rfl⟩
      | queue i w tgi pc hpc hi hlock hclose hidle hfull hnext
      | full i w tgi pc hpc hi hlock hclose hidle hfull hnext =>
        rcases hnext with rfl | rfl <;> simp [CallPc.unjoined] at hk
      | _ => simp [CallPc.unjoined] at hk
    . rw [hs.calls_of_ne hki] at hk
      exact .inl ⟨ts, hk⟩
  | worker i s' hs =>
    rw [hs.calls_eq] at hk
    exact .inl ⟨ts, hk⟩
  | manager m timedOut s' hs =>
    rw [hs.calls_eq] at hk
    exact .inl ⟨ts, hk⟩

theorem join_cases {ts : List Nat} {by_ : Destroyer} (hc : tg'.idleThrds.Coherent) (hs : Step s a s')
    (hk : s'.calls k = .join g ts by_) (hg' : s'.groups g = some tg')
    : (∃ ts', s.calls k = .join g ts' by_) ∨ tg'.idleThrds.items = [] := by
  cases hs with
  | start req s' hs =>
    by_cases hnext : k = s.nextCall
    . subst hnext
      cases hs <;> simp at hk
    . rw [hs.calls_of_ne hnext] at hk
      exact .inl ⟨ts, hk⟩
  | caller i s' hs =>
    by_cases hki : k = i
    . subst hki
      cases hs with
      | wake i ts' by' tgi t rest tt hpc => exact .inl ⟨ts, hk⟩
      | endWake i ts' by' tgi hpc hi hlen =>
        simp only [Sys.setCall, update_self, CallPc.join.injEq] at hk
        obtain ⟨rfl, _, _⟩ := hk
        rcases setGroup_cases rfl hg' with ⟨_, rfl⟩ | ⟨hne, _⟩
        . rw [LL.Coherent, hlen] at hc
          exact .inr (List.eq_nil_of_length_eq_zero hc.symm)
        . exact absurd rfl hne
      | join i t ts' by' hpc =>
        simp only [Sys.setCall, update_self, CallPc.join.injEq] at hk
        obtain ⟨rfl, _, rfl⟩ := hk
        exact .inl ⟨_, hpc⟩
      | queue i w tgi pc hpc hi hlock hclose hidle hfull hnext
      | full i w tgi pc hpc hi hlock hclose hidle hfull hnext =>
        rcases hnext with rfl | rfl <;> simp at hk
      | _ => simp at hk
    . rw [hs.calls_of_ne hki] at hk
      exact .inl ⟨ts, hk⟩
  | worker i s' hs =>
    rw [hs.calls_eq] at hk
    exact .inl ⟨ts, hk⟩
  | manager m timedOut s' hs =>
    rw [hs.calls_eq] at hk
    exact .inl ⟨ts, hk⟩

end

namespace ClosingInv

variable {s s' : Sys} {a : Action} {k g t : Nat} {tg : TGroup} {tt : TThread} {ts : List Nat} {by_ : Destroyer}

theorem init (tp : TPool) : ClosingInv (.init tp) := by
  refine ⟨⟨[], JoinInv.init tp⟩, ?_, ?_⟩
  . intro k g ts tg hk
    cases hk
  . intro k g ts by_ tg hk
    cases hk

theorem step (h : ClosingInv s) (hi : LiveInv s) (hi' : LiveInv s') (hs : Step s a s') : ClosingInv s' := by
  obtain ⟨joined, hjoined⟩ := h.joined
  refine ⟨⟨_, hjoined.step hi.toPoolInv hi.table hs⟩, ?_, ?_⟩
  . intro k g ts tg' hk hg'
    rcases unjoined_cases hs hk with ⟨ts', hk⟩ | ⟨tg, hg, hsoft⟩
    . obtain ⟨tg, hg⟩ := hi.allocated_of_owned (DrainInv.unjoined_owned hk)
      exact (softKill_of_step hi.fresh hs hg (h.soft k g ts' tg hk hg) hg').1
    . cases hg.symm.trans hg'
      exact hsoft
  . intro k g ts by_ tg' hk hg'
    rcases join_cases (hi'.threads.coherent g tg' hg').1 hs hk hg' with ⟨ts', hk⟩ | hnil
    . have hunjoined : (s.calls k).unjoined = some (g, ts') := by rw [hk, CallPc.unjoined]
      obtain ⟨tg, hg⟩ := hi.allocated_of_owned (DrainInv.unjoined_owned hunjoined)
      have hsoft := h.soft k g ts' tg hunjoined hg
      exact (softKill_of_step hi.fresh hs hg hsoft hg').2 (h.idle k g ts' by_ tg hk hg)
    . exact hnil

end ClosingInv

structure DestroyInv (s : Sys) : Prop extends LiveInv s where
  closing : ClosingInv s

namespace DestroyInv

variable {s s' : Sys} {a : Action} {k g t : Nat} {tg : TGroup} {tt : TThread} {ts : List Nat}

theorem init {maxThrds : Nat} {tp : TPool} (h : TPool.initPool maxThrds = some tp) : DestroyInv (.init tp) :=
  ⟨LiveInv.init h, ClosingInv.init tp⟩

theorem step (h : DestroyInv s) (ha : a ≠ .call .destroyPool) (hs : s.step a = some s') : DestroyInv s' := by
  have h' := h.toLiveInv.step ha hs
  exact ⟨h', h.closing.step h.toLiveInv h' (step_of_step hs)⟩

theorem drives (h : DestroyInv s) (hd : Drives s s') : DestroyInv s' := by
  obtain ⟨a, ha, hs⟩ := hd.step
  exact h.step (own_ne_call ha _) hs

theorem reached {P : Sys → Prop} (h : DestroyInv s) (hr : Reaches Moves P s)
    : Reaches Moves (fun s' => DestroyInv s' ∧ Onward s s' ∧ P s') s := by
  obtain ⟨s', hs, hP⟩ := hr
  exact ⟨s', hs, invariant (fun _ _ h hm => h.drives hm.toDrives) h hs, frame (fun _ _ hm => hm.onward) hs, hP⟩

theorem unlocked (h : DestroyInv s) (ht : s.thrds t = some tt) (hrun : tt.state = .running)
    (hg : s.groups tt.tg = some tg)
    : Reaches Moves (fun s' => DestroyInv s' ∧ Onward s s' ∧ s'.thrds t = some tt ∧
        ∃ tg', s'.groups tt.tg = some tg' ∧ tg'.mutexGrp = none) s := by
  refine (h.reached (Under.moves (h.toLiveInv.reached (h.unlock_group hg)))).imp ?_
  rintro s' ⟨h', honward, _, hspares, hfree⟩
  exact ⟨h', honward, hspares t tt ht hrun, hfree⟩

theorem leaves (h : DestroyInv s) (ht : s.thrds t = some tt) (hpc : tt.pc = .leave)
    (hg : s.groups tt.tg = some tg) (hfree : tg.mutexGrp = none)
    : Reaches Moves (fun s' => s'.thrds t = none) s := by
  have hok := h.threads.ok t tt ht
  rw [TThread.Ok, hpc] at hok
  have hsection : s.leaveSection t tt tg = some
      ((s.setGroup tt.tg
        {
          tg with
          activeThrds := ⟨tg.activeThrds.items.erase t, tg.activeThrds.len - 1⟩
          idleThrds := tg.idleThrds.itemRemove t
        }).freeThrd t) := by
    simp only [Sys.leaveSection, hok.1, reduceCtorEq, if_false]
    rfl
  have hs : s.step (.worker t) = s.leaveSection t tt tg := by
    simp only [Sys.step, Sys.workerStep, ht, hpc, hg, hfree, Option.isNone_none, if_true]
  exact LiveInv.own (hs.trans hsection) rfl (.of_self (update_self _ _ _))

theorem names_of_join {ts : List Nat} {by_ : Destroyer} (h : DestroyInv s) (hk : s.calls k = .join g (t :: ts) by_)
    : ∃ tg, s.groups g = some tg ∧ tg.softKill = true ∧ tg.idleThrds.items = [] ∧
        ∀ tt, s.thrds t = some tt → tt.tg = g := by
  have hunjoined : (s.calls k).unjoined = some (g, t :: ts) := by rw [hk, CallPc.unjoined]
  obtain ⟨tg, hg⟩ := h.allocated_of_owned (DrainInv.unjoined_owned hunjoined)
  obtain ⟨joined, hjoined⟩ := h.closing.joined
  obtain ⟨done, hthrds, _⟩ := hjoined.rest k g (t :: ts) tg hunjoined hg
  refine ⟨tg, hg, h.closing.soft k g _ tg hunjoined hg, h.closing.idle k g _ by_ tg hk hg, ?_⟩
  apply (h.drain.names g tg t hg _).2
  rw [hthrds]
  exact List.mem_append_right _ List.mem_cons_self

theorem exits {ts : List Nat} {by_ : Destroyer} (h : DestroyInv s) (hk : s.calls k = .join g (t :: ts) by_)
    : Reaches Moves (fun s' => s'.thrds t = none) s := by
  refine Reaches.of_measure (I := fun s => DestroyInv s ∧ s.calls k = .join g (t :: ts) by_)
    (fun s => (s.accepted g).length - (s.assigned g).length) ?_ s ⟨h, hk⟩
  rintro s ⟨h, hk⟩
  obtain ⟨tg, hg, _, hidle, hnames⟩ := h.names_of_join hk
  cases ht : s.thrds t with
  | none => exact .of_self (.inl ht)
  | some tt =>
    have htg := hnames tt ht
    subst htg
    by_cases hpc : tt.pc = .leave
    . have hok := h.threads.ok t tt ht
      rw [TThread.Ok, hpc] at hok
      refine (h.unlocked ht hok.1 hg).bind ?_
      rintro s' _ ⟨h', _, ht', tg', hg', hfree⟩
      exact (h'.leaves ht' hpc hg' hfree).imp fun _ hnone => .inl hnone
    . have hlooks := h.looks_of_unlisted ht hpc hg (by rw [hidle]; exact List.not_mem_nil)
      refine (h.reached hlooks).bind ?_
      rintro s₁ _ ⟨h₁, honward₁, tt₁, ht₁, htg₁, hpc₁⟩
      rw [← htg₁] at hg hk ⊢
      obtain ⟨tg₁, hg₁⟩ := h₁.housed t tt₁ ht₁
      have hok := h₁.threads.ok t tt₁ ht₁
      rw [TThread.Ok, hpc₁] at hok
      refine (h₁.unlocked ht₁ hok.1 hg₁).bind ?_
      rintro s₂ _ ⟨h₂, honward₂, ht₂, tg₂, hg₂, hfree⟩
      have honward : Onward s s₂ := IsTrans.trans s s₁ s₂ honward₁ honward₂
      have hk₂ := honward.calls_eq hk rfl
      cases hitems : tg₂.q.work.items with
      | cons w rest =>
        refine (h₂.reached (h₂.fetch ht₂ hpc₁ hg₂ hfree hitems)).imp ?_
        rintro s₃ ⟨h₃, honward₃, heq⟩
        have hlength := h₂.length_accepted tt₁.tg
        rw [hg₂, queueOf, hitems, List.length_cons, honward.accepted] at hlength
        have := honward.assigned tt₁.tg
        refine .inr ⟨⟨h₃, honward₃.calls_eq hk₂ rfl⟩, ?_⟩
        rw [honward₃.accepted, honward.accepted]
        omega
      | nil =>
        have hsound := h₂.drain.sound tt₁.tg tg₂ hg₂
        have hsoft := h₂.closing.soft k tt₁.tg (t :: ts) tg₂ (by rw [hk₂, CallPc.unjoined]) hg₂
        have hs : s₂.step (.worker t) = some (s₂.setThrd t { tt₁ with currTask := none, pc := .leave }) := by
          simp only [Sys.step, Sys.workerStep, ht₂, hpc₁, hg₂, hfree, Option.isNone_none, if_true,
            Sys.workerSection, hsound.hardKill, h₂.clean tt₁.tg tg₂ hg₂, Bool.false_eq_true, if_false,
            Worker.qFetch_of_nil hsound.coherent hitems, hsoft]
        refine LiveInv.own hs rfl ?_
        exact ((h₂.step (by simp) hs).leaves (update_self _ _ _) rfl hg₂ hfree).imp fun _ hnone => .inl hnone

theorem refunds (h : DestroyInv s) (hk : s.calls k = .refund g)
    : Reaches Drives (fun s' => s'.calls k = .returned ∧ s'.groups g = none) s := by
  refine (drives_of_moves (h.reached (Under.moves h.unlock_pool))).bind ?_
  rintro s' _ ⟨h', honward, hfree⟩
  have hk' := honward.calls_eq hk rfl
  obtain ⟨tg, hg⟩ := h'.allocated_of_owned (k := k) (by rw [hk']; rfl)
  have hs : s'.step (.caller k) = some
      (((s'.setPool ({ s'.pool with
        groups := { s'.pool.groups with len := s'.pool.groups.len - 1 } }.refund
          tg.thrdMax)).freeGroup g).setCall k .returned) := by
    simp only [Sys.step, Sys.callStep, hk', hg, TPool.unlocked, hfree, h'.unfreed, Option.isNone_none,
      Bool.not_false, Bool.and_self, if_true]
  exact .of_step (drives_caller hs rfl (by rw [hk']; rfl)) (.of_self ⟨update_self _ _ _, update_self _ _ _⟩)

theorem joins (ts : List Nat) : ∀ s, DestroyInv s → s.calls k = .join g ts .destroyGroup →
    Reaches Drives (fun s' => s'.calls k = .returned ∧ s'.groups g = none) s := by
  induction ts with
  | nil =>
    intro s h hk
    have hs : s.step (.caller k) = some (s.setCall k (.refund g)) := by
      simp only [Sys.step, Sys.callStep, hk]
    exact .of_step (drives_caller hs rfl (by rw [hk]; rfl)) ((h.step (by simp) hs).refunds (update_self _ _ _))
  | cons t ts ih =>
    intro s h hk
    refine (drives_of_moves (h.reached (h.exits hk))).bind ?_
    rintro s' _ ⟨h', honward, hnone⟩
    have hk' := honward.calls_eq hk rfl
    have hs : s'.step (.caller k) = some (s'.setCall k (.join g ts .destroyGroup)) := by
      simp only [Sys.step, Sys.callStep, hk', hnone, Option.isNone_none, if_true]
    exact .of_step (drives_caller hs rfl (by rw [hk']; rfl)) (ih _ (h'.step (by simp) hs) (update_self _ _ _))

theorem wakes {by_ : Destroyer} (h : DestroyInv s) (hk : s.calls k = .wake g ts by_)
    : Reaches Drives (fun s' => s'.calls k = .returned ∧ s'.groups g = none) s := by
  have hgroup := h.byGroup k
  rw [hk] at hgroup
  obtain ⟨tg, hg⟩ := h.allocated_of_owned (k := k) (by rw [hk]; rfl)
  refine (drives_of_moves (h.reached (Under.moves (LiveInv.woken _ s tg h.toLiveInv hk hg rfl)))).bind ?_
  rintro s' _ ⟨h', _, hk', _⟩
  cases by_ with
  | destroyGroup => exact joins ts s' h' hk'
  | destroyPool => cases hgroup

theorem closes {by_ : Destroyer} (h : DestroyInv s) (hk : s.calls k = .close g by_)
    : Reaches Drives (fun s' => s'.calls k = .returned ∧ s'.groups g = none) s := by
  obtain ⟨tg, hg⟩ := h.allocated_of_owned (k := k) (by rw [hk]; rfl)
  refine (drives_of_moves (h.reached (Under.moves (h.unlock_group hg)))).bind ?_
  rintro s' _ ⟨h', honward, tg', hg', hfree⟩
  have hk' := honward.calls_eq hk rfl
  have hs : s'.step (.caller k) = some
      ((s'.setGroup g
        { tg' with groupClose := true, softKill := true, mutexGrp := some (.call k) }).setCall k
        (.wake g tg'.thrds by_)) := by
    simp only [Sys.step, Sys.callStep, hk', hg', hfree, Option.isNone_none, if_true]
  exact .of_step (drives_caller hs rfl (by rw [hk']; rfl)) ((h'.step (by simp) hs).wakes (update_self _ _ _))

theorem unlinks (h : DestroyInv s) (hk : s.calls k = .unlink g) (hg : g ∈ s.pool.groups.items)
    : Reaches Drives (fun s' => s'.calls k = .returned ∧ s'.groups g = none) s := by
  have hreached := h.toLiveInv.reached h.unlock_pool
  refine (drives_of_moves (h.reached (Under.moves hreached))).bind ?_
  rintro s' _ ⟨h', honward, _, hyields, hfree⟩
  have hk' := honward.calls_eq hk rfl
  have hg' : g ∈ s'.pool.groups.items := by
    rw [hyields.linked]
    exact hg
  have hs : s'.step (.caller k) = some
      ((s'.setPool { s'.pool with groups := s'.pool.groups.itemRemove g }).setCall k
        (.close g .destroyGroup)) := by
    simp [Sys.step, Sys.callStep, hk', TPool.unlocked, hfree, h'.unfreed, hg']
  exact .of_step (drives_caller hs rfl (by rw [hk']; rfl)) ((h'.step (by simp) hs).closes (update_self _ _ _))

end DestroyInv

/--
The call is a `destroy_group` of the group, which is still linked or has been unlinked by it.
-/
inductive Destroys (s : Sys) (k g : Nat) : Prop where
  | unlink (hk : s.calls k = .unlink g) (hg : g ∈ s.pool.groups.items)
  | close (by_ : Destroyer) (hk : s.calls k = .close g by_)
  | wake (ts : List Nat) (by_ : Destroyer) (hk : s.calls k = .wake g ts by_)
  | join (ts : List Nat) (by_ : Destroyer) (hk : s.calls k = .join g ts by_)
  | refund (hk : s.calls k = .refund g)

/--
The call returns if the threads that are there are scheduled as is told, and it leaves no work behind.
-/
def Returns (s : Sys) (k g : Nat) : Prop :=
  ∃ as s', (∀ a ∈ as, ∀ req, a ≠ .call req) ∧ run s as = some s' ∧ s'.calls k = .returned ∧
    s'.groups g = none ∧ s'.accepted g = s.accepted g ∧ ∀ w, w ∈ s'.accepted g → w ∈ s'.finished ∧ s'.called w = 1

theorem DestroyInv.returns {s : Sys} {k g : Nat} (h : DestroyInv s) (hk : Destroys s k g) : Returns s k g := by
  have hreaches : Reaches Drives (fun s' => s'.calls k = .returned ∧ s'.groups g = none) s := by
    cases hk with
    | unlink hk hg => exact h.unlinks hk hg
    | close by_ hk => exact h.closes hk
    | wake ts by_ hk => exact h.wakes hk
    | join ts by_ hk =>
      have hgroup := h.byGroup k
      rw [hk] at hgroup
      cases by_ with
      | destroyGroup => exact joins ts s h hk
      | destroyPool => cases hgroup
    | refund hk => exact h.refunds hk
  obtain ⟨s', hdrives, hreturned, hnone⟩ := hreaches
  have h' : DestroyInv s' := invariant (fun _ _ h hd => h.drives hd) h hdrives
  have haccepted : s'.accepted = s.accepted :=
    invariant (I := fun b => b.accepted = s.accepted) (fun _ _ heq hd => hd.accepted.trans heq) rfl hdrives
  obtain ⟨as, has, hrun⟩ := run_of_drives hdrives
  refine ⟨as, s', has, hrun, hreturned, hnone, congrFun haccepted g, ?_⟩
  intro w hw
  rw [h'.ordered.order g, hnone, queueOf, List.append_nil] at hw
  -- A group that has been freed has no work that is not finished.
  have hfinished : w ∈ s'.finished := by
    by_contra hne
    have hmem : w ∈ s'.running g := List.mem_filter.mpr ⟨hw, by simpa using hne⟩
    rw [h'.running_eq_nil hnone] at hmem
    cases hmem
  exact ⟨hfinished, h'.once.calledFinished w hfinished⟩

theorem returns_of_run {maxThrds : Nat} {tp : TPool} {as : List Action} {s : Sys}
    (hinit : TPool.initPool maxThrds = some tp) (hdestroy : ∀ a ∈ as, a ≠ .call .destroyPool)
    (hrun : run (.init tp) as = some s)
    : ∀ k g, Destroys s k g → Returns s k g := by
  have halong : Lts.Along Sys.step (fun _ a => a ≠ .call .destroyPool) (.init tp) as :=
    Lts.along_of_forall hdestroy
  have h : DestroyInv s := by
    refine Lts.invariant_along (I := DestroyInv) ?_ (.init hinit) halong hrun
    intro s a s' h ha hs
    exact h.step ha hs
  intro k g hk
  exact h.returns hk

theorem returns_queued_work
    : ∃ tp s, TPool.initPool 4 = some tp ∧
        run (.init tp) (.call (.addGroup 1 1 0) :: List.replicate 5 (.caller 0) ++
          .call (.doWork 0 7) :: List.replicate 3 (.caller 1) ++
          .call (.destroyGroup 0) :: List.replicate 3 (.caller 2)) = some s ∧
        Returns s 2 0 ∧ s.calls 2 = .join 0 [0] .destroyGroup ∧ s.accepted 0 = [7] ∧ s.finished = [] := by
  refine ⟨_, _, rfl, rfl, ?_, rfl, rfl, rfl⟩
  exact @returns_of_run 4 _ (.call (.addGroup 1 1 0) :: List.replicate 5 (.caller 0) ++
    .call (.doWork 0 7) :: List.replicate 3 (.caller 1) ++
    .call (.destroyGroup 0) :: List.replicate 3 (.caller 2)) _ rfl (by decide) rfl 2 0 (.join [0] .destroyGroup rfl)

end Pool
