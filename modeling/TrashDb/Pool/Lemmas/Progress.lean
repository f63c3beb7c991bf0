import TrashDb.Lib.Reach
import TrashDb.Pool.Lemmas.Accounting
import TrashDb.Pool.Lemmas.Deadlock
import TrashDb.Pool.Lemmas.Loop
import TrashDb.Pool.Lemmas.Running

/-!
This module contains that the pool never gets stuck with a work that it has accepted. As long as nobody
destroys the pool, the threads that are there can finish all of these works, whatever state the calls are
in. Whoever holds `mutexPool` gets the mutexes it still needs and unlocks it, so the threads that are about
to lock it can go to sleep. Then the mutex of a group can be unlocked too, and an active thread of the group
can go on to the next work.
-/

namespace Pool

open Function Reach

/--
The call is about to lock `mutexPool` or the mutex of a group, or it waits for threads or for the counter.
-/
def CallPc.waiting : CallPc → Bool
  | .addCheck _ _ _ | .addCharge _ _ | .unlink _ | .close _ _ | .join _ _ _ | .refund _ => true
  | .offer _ _ | .notify _ _ | .waitStart _ | .waitBlock _ => true
  | _ => false

/--
A step of a thread that is there. Nobody who sleeps in `wait_pool` wakes up.
-/
def Sys.own (s : Sys) : Action → Prop
  | .call _ => False
  | .caller k => (s.calls k).blocked = false
  | .worker _ | .manager _ _ => True

/--
No work is accepted in the step.
-/
structure Drives (s s' : Sys) : Prop where
  step : ∃ a, s.own a ∧ s.step a = some s'
  accepted : s'.accepted = s.accepted

structure Moves (s s' : Sys) : Prop extends Drives s s' where
  calls : ∀ k, (s.calls k).waiting = true → s'.calls k = s.calls k

/--
The threads that are running, the calls that do not hold `mutexPool` and the lists of idle threads are left alone.
-/
structure Parks (s s' : Sys) : Prop where
  running : ∀ t tt, s.thrds t = some tt → tt.state = .running → s'.thrds t = some tt
  calls : ∀ k, (s.calls k).holdsPool = false → s'.calls k = s.calls k
  idle : ∀ g tg, s.groups g = some tg → ∃ tg', s'.groups g = some tg' ∧ tg'.idleThrds = tg.idleThrds

structure Yields (s s' : Sys) : Prop extends Parks s s' where
  thrds : ∀ t tt, s.thrds t = some tt → s'.thrds t = some tt
  linked : s'.pool.groups = s.pool.groups

def Spares (s s' : Sys) : Prop :=
  ∀ t tt, s.thrds t = some tt → tt.state = .running → s'.thrds t = some tt

def Under (R : Sys → Sys → Prop) (s s' : Sys) : Prop := Moves s s' ∧ R s s'

/--
What a sequence of steps of the threads that are there leaves alone.
-/
structure Onward (s s' : Sys) : Prop where
  accepted : s'.accepted = s.accepted
  assigned : ∀ g, (s.assigned g).length ≤ (s'.assigned g).length
  calls : ∀ k, (s.calls k).waiting = true → s'.calls k = s.calls k

structure LiveInv (s : Sys) : Prop extends RunningInv s where
  held : PoolHeld s
  looking : Looking s
  clean : ∀ g tg, s.groups g = some tg → tg.groupClean = false
  byGroup : ∀ k, (s.calls k).byPool = false
  unfreed : s.pool.freed = false

instance : Std.Refl Parks where
  refl _ := ⟨fun _ _ ht _ => ht, fun _ _ => rfl, fun _ tg hg => ⟨tg, hg, rfl⟩⟩

instance : IsTrans Sys Parks := by
  constructor
  intro s s' s'' h h'
  constructor
  . intro t tt ht hrun
    exact h'.running t tt (h.running t tt ht hrun) hrun
  . intro k hk
    have hsame := h.calls k hk
    rw [h'.calls k (hsame ▸ hk), hsame]
  . intro g tg hg
    obtain ⟨tg', hg', heq⟩ := h.idle g tg hg
    obtain ⟨tg'', hg'', heq'⟩ := h'.idle g tg' hg'
    exact ⟨tg'', hg'', heq'.trans heq⟩

instance : Std.Refl Yields := ⟨fun s => ⟨Std.Refl.refl s, fun _ _ ht => ht, rfl⟩⟩

instance : IsTrans Sys Yields where
  trans s s' s'' h h' :=
    ⟨IsTrans.trans s s' s'' h.toParks h'.toParks, fun t tt ht => h'.thrds t tt (h.thrds t tt ht),
      h'.linked.trans h.linked⟩

instance : Std.Refl Onward := ⟨fun _ => ⟨rfl, fun _ => Nat.le_refl _, fun _ _ => rfl⟩⟩

instance : IsTrans Sys Onward := by
  constructor
  intro s s' s'' h h'
  refine ⟨h'.accepted.trans h.accepted, fun g => (h.assigned g).trans (h'.assigned g), ?_⟩
  intro k hk
  have hsame := h.calls k hk
  rw [h'.calls k (hsame ▸ hk), hsame]

instance : Std.Refl Spares := ⟨fun _ _ _ ht _ => ht⟩

instance : IsTrans Sys Spares where
  trans _ _ _ h h' t tt ht hrun := h' t tt (h t tt ht hrun) hrun

section

variable {s s' : Sys} {k g t w m n : Nat} {tg : TGroup} {tt : TThread}

theorem idle_setGroup {tg' : TGroup} (hg : s.groups g = some tg)
    (hgroups : s'.groups = update s.groups g (some tg')) (hidle : tg'.idleThrds = tg.idleThrds)
    : ∀ i tgi, s.groups i = some tgi → ∃ tgi', s'.groups i = some tgi' ∧ tgi'.idleThrds = tgi.idleThrds := by
  intro i tgi hi
  rw [hgroups, update_apply]
  split
  . next heq =>
    subst heq
    cases hg.symm.trans hi
    exact ⟨tg', rfl, hidle⟩
  . exact ⟨tgi, hi, rfl⟩

theorem yields_of_eq (hthrds : ∀ t tt, s.thrds t = some tt → s'.thrds t = some tt)
    (hcalls : ∀ k, (s.calls k).holdsPool = false → s'.calls k = s.calls k)
    (hidle : ∀ g tg, s.groups g = some tg → ∃ tg', s'.groups g = some tg' ∧ tg'.idleThrds = tg.idleThrds)
    (hlinked : s'.pool.groups = s.pool.groups)
    : Yields s s' :=
  ⟨⟨fun t tt ht _ => hthrds t tt ht, hcalls, hidle⟩, hthrds, hlinked⟩

theorem calls_holder {p : CallPc} (hk : (s.calls k).holdsPool = true)
    (hcalls : s'.calls = update s.calls k p)
    : ∀ i, (s.calls i).holdsPool = false → s'.calls i = s.calls i := by
  intro i hi
  rw [hcalls, update_of_ne]
  rintro rfl
  rw [hk] at hi
  cases hi

theorem own_ne_call {a : Action} (ha : s.own a) : ∀ req, a ≠ .call req := by
  rintro req rfl
  exact ha

theorem not_blocked {p : CallPc} (h : p.waiting = false) : p.blocked = false := by
  cases p <;> first | rfl | cases h

theorem moves_caller (hs : s.step (.caller k) = some s') (haccepted : s'.accepted = s.accepted)
    (hk : (s.calls k).waiting = false)
    : Moves s s' := by
  refine ⟨⟨⟨.caller k, not_blocked hk, hs⟩, haccepted⟩, ?_⟩
  intro i hi
  apply (callStep_of_callStep hs).calls_of_ne
  rintro rfl
  rw [hk] at hi
  cases hi

theorem moves_worker (hs : s.step (.worker t) = some s') (haccepted : s'.accepted = s.accepted)
    : Moves s s' := by
  refine ⟨⟨⟨.worker t, trivial, hs⟩, haccepted⟩, ?_⟩
  intro i _
  rw [(workerStep_of_workerStep hs).calls_eq]

theorem moves_manager {timedOut : Bool} (hs : s.step (.manager m timedOut) = some s')
    (haccepted : s'.accepted = s.accepted)
    : Moves s s' := by
  refine ⟨⟨⟨.manager m timedOut, trivial, hs⟩, haccepted⟩, ?_⟩
  intro i _
  rw [(managerStep_of_managerStep hs).calls_eq]

theorem Moves.onward (h : Moves s s') : Onward s s' := by
  obtain ⟨a, _, hs⟩ := h.step
  exact ⟨h.accepted, fun g => (extends_of_step (step_of_step hs) g).2.length_le, h.calls⟩

theorem Onward.calls_eq {p : CallPc} (h : Onward s s') (hk : s.calls k = p) (hp : p.waiting = true)
    : s'.calls k = p := by
  rw [h.calls k (hk ▸ hp), hk]

theorem drives_of_moves {P : Sys → Prop} (h : Reaches Moves P s) : Reaches Drives P s :=
  h.mono fun _ _ hm => hm.toDrives

theorem drives_caller (hs : s.step (.caller k) = some s') (haccepted : s'.accepted = s.accepted)
    (hk : (s.calls k).blocked = false)
    : Drives s s' :=
  ⟨⟨.caller k, hk, hs⟩, haccepted⟩

theorem Under.mono {R R' : Sys → Sys → Prop} {P : Sys → Prop} (hR : ∀ s s', R s s' → R' s s')
    (h : Reaches (Under R) P s)
    : Reaches (Under R') P s :=
  Reaches.mono h fun a b hstep => ⟨hstep.1, hR a b hstep.2⟩

theorem Under.moves {R : Sys → Sys → Prop} {P : Sys → Prop} (h : Reaches (Under R) P s)
    : Reaches Moves P s :=
  Reaches.mono h fun _ _ hstep => hstep.1

end

namespace LiveInv

variable {s s' : Sys} {k g t w m n : Nat} {tg : TGroup} {tt : TThread} {R : Sys → Sys → Prop}

theorem init {maxThrds : Nat} {tp : TPool} (h : TPool.initPool maxThrds = some tp) : LiveInv (.init tp) := by
  refine ⟨RunningInv.init h, PoolHeld.init h, Looking.init h, by simp [Sys.init], fun _ => rfl, ?_⟩
  unfold TPool.initPool at h
  split at h
  . cases h
  . cases h
    rfl

theorem unfreed_of_step {a : Action} (h : LiveInv s) (hs : Step s a s') : s'.pool.freed = false := by
  have hunfreed := h.unfreed
  cases hs with
  | start req s' hs => cases hs <;> exact hunfreed
  | caller k s' hs =>
    cases hs with
    | freePool hpc =>
      have hk := h.byGroup k
      rw [hpc] at hk
      cases hk
    | chargeFirst g max hpc | charge g max hpc => simpa using hunfreed
    | _ => exact hunfreed
  | worker t s' hs => cases hs <;> exact hunfreed
  | manager m timedOut s' hs => cases hs <;> exact hunfreed

theorem byGroup_of_step {a : Action} (h : LiveInv s) (ha : a ≠ .call .destroyPool) (hs : Step s a s')
    : ∀ k, (s'.calls k).byPool = false := by
  intro i
  by_contra hi
  rw [Bool.not_eq_false] at hi
  have hbefore : (s.calls i).byPool = true := by
    cases hs with
    | start req s' hs =>
      refine byPool_start hs ?_ hi
      rintro rfl
      exact ha rfl
    | caller k s' hs => exact byPool_caller hs i hi
    | worker t s' hs =>
      rw [hs.calls_eq] at hi
      exact hi
    | manager m timedOut s' hs =>
      rw [hs.calls_eq] at hi
      exact hi
  rw [h.byGroup i] at hbefore
  cases hbefore

theorem step {a : Action} (h : LiveInv s) (ha : a ≠ .call .destroyPool) (hs : s.step a = some s')
    : LiveInv s' := by
  have hstep := step_of_step hs
  refine ⟨h.toRunningInv.step hstep, ?_, ?_, ?_, ?_, ?_⟩
  . apply h.held.step h.fresh hstep
  . apply h.looking.step h.toPoolInv hs
  . apply clean_step h.clean hstep
  . apply h.byGroup_of_step ha hstep
  . apply h.unfreed_of_step hstep

theorem drives (h : LiveInv s) (hd : Drives s s') : LiveInv s' := by
  obtain ⟨a, ha, hs⟩ := hd.step
  exact h.step (own_ne_call ha _) hs

theorem under (h : LiveInv s) (hs : Relation.ReflTransGen (Under R) s s') : LiveInv s' :=
  invariant (fun _ _ h hstep => h.drives hstep.1.toDrives) h hs

theorem reached [Std.Refl R] [IsTrans Sys R] {P : Sys → Prop} (h : LiveInv s) (hr : Reaches (Under R) P s)
    : Reaches (Under R) (fun s' => LiveInv s' ∧ R s s' ∧ P s') s := by
  obtain ⟨s', hs, hP⟩ := hr
  exact ⟨s', hs, h.under hs, frame (fun _ _ hstep => hstep.2) hs, hP⟩

theorem nest (h : LiveInv s) : NestInv ⟨s, fun _ => none⟩ :=
  ⟨h.toGroupInv, h.held, h.looking, fun _ _ => rfl, by simp⟩

theorem allocated_of_linked (h : LiveInv s) (hg : g ∈ s.pool.groups.items) : ∃ tg, s.groups g = some tg := by
  have hsize := h.owned.linked g hg
  simp only [Sys.ledger, ne_eq, Option.map_eq_none_iff] at hsize
  exact Option.ne_none_iff_exists'.mp hsize

theorem allocated_of_owned (h : LiveInv s) (hk : (s.calls k).phase.owned = some g)
    : ∃ tg, s.groups g = some tg := by
  have hsize := (h.owned.owned k g hk).1
  simp only [Sys.ledger, ne_eq, Option.map_eq_none_iff] at hsize
  exact Option.ne_none_iff_exists'.mp hsize

theorem linked_free (h : LiveInv s) (hg : g ∈ s.pool.groups.items)
    (hspawn : ∀ m, (s.managers m).holdsGroup ≠ some g)
    : ∃ tg, s.groups g = some tg ∧ tg.mutexGrp = none := by
  obtain ⟨tg, htg⟩ := h.allocated_of_linked hg
  refine ⟨tg, htg, ?_⟩
  cases hmutex : tg.mutexGrp with
  | none => rfl
  | some o =>
    have ho := (h.groupLock.owner g tg o htg).mp hmutex
    cases o with
    | call k => exact absurd (.grpCall k g rfl ho) (h.nest.not_held_linked (q := .caller k) hg hspawn)
    | manager m => exact absurd ho (hspawn m)

theorem manager_under {timedOut : Bool} (hs : s.step (.manager m timedOut) = some s')
    (haccepted : s'.accepted = s.accepted)
    (hthrds : ∀ t tt, s.thrds t = some tt → s'.thrds t = some tt)
    (hidle : ∀ g tg, s.groups g = some tg → ∃ tg', s'.groups g = some tg' ∧ tg'.idleThrds = tg.idleThrds)
    (hlinked : s'.pool.groups = s.pool.groups)
    : Under Yields s s' := by
  refine ⟨moves_manager hs haccepted, yields_of_eq hthrds ?_ hidle hlinked⟩
  have hcalls := (managerStep_of_managerStep hs).calls_eq
  intro i _
  rw [hcalls]

theorem spawn_under {work : Option Nat} {timedOut : Bool} (h : LiveInv s) (tg' : TGroup)
    (hg : s.groups g = some tg) (hidle : tg'.idleThrds = tg.idleThrds)
    (hs : s.step (.manager m timedOut) = some s') (haccepted : s'.accepted = s.accepted)
    (hthrds : s'.thrds = (s.spawn g tg' work).thrds) (hgroups : s'.groups = (s.spawn g tg' work).groups)
    (hlinked : s'.pool.groups = s.pool.groups)
    : Under Yields s s' := by
  refine manager_under hs haccepted ?_ (idle_setGroup hg hgroups hidle) hlinked
  intro t tt ht
  rw [hthrds]
  simp only [Sys.spawn, Sys.setThrd, update_apply]
  split
  . next heq =>
    rw [heq, h.fresh.nextThrd_eq_none] at ht
    cases ht
  . exact ht

theorem spawned (gs : List Nat) : ∀ n s, LiveInv s → s.managers m = .spawn g n gs →
    Reaches (Under Yields)
      (fun s' => s'.managers m = .pass gs ∧ ∃ tg, s'.groups g = some tg ∧ tg.mutexGrp = none) s := by
  intro n
  induction n with
  | zero =>
    intro s h hpc
    obtain ⟨tg, hg⟩ := h.allocated_of_linked (h.managing m g (by rw [hpc]; exact List.mem_cons_self))
    have hs : s.step (.manager m false) =
        some ((s.setGroup g { tg with mutexGrp := none }).setManager m (.pass gs)) := by
      simp only [Sys.step, Sys.managerStep, hpc, hg]
    refine .of_step (manager_under hs rfl (fun _ _ ht => ht) (idle_setGroup hg rfl rfl) rfl) (.of_self ?_)
    exact ⟨update_self _ _ _, _, update_self _ _ _, rfl⟩
  | succ n ih =>
    intro s h hpc
    obtain ⟨tg, hg⟩ := h.allocated_of_linked (h.managing m g (by rw [hpc]; exact List.mem_cons_self))
    have hcoherent := (h.drain.sound g tg hg).coherent
    cases hitems : tg.q.work.items with
    | nil =>
      have hs : s.step (.manager m false) = some ((s.spawn g tg none).setManager m (.spawn g n gs)) := by
        simp only [Sys.step, Sys.managerStep, hpc, hg, Worker.qFetch_of_nil hcoherent hitems]
      refine .of_step (h.spawn_under tg hg rfl hs rfl rfl rfl rfl) (ih _ (h.step (by simp) hs) ?_)
      exact update_self _ _ _
    | cons w rest =>
      have hs : s.step (.manager m false) =
          some (((s.spawn g { tg with q := { tg.q with work := ⟨rest, tg.q.work.len - 1⟩ } }
            (some w)).assign g w).setManager m (.spawn g n gs)) := by
        simp only [Sys.step, Sys.managerStep, hpc, hg, Worker.qFetch_of_cons hcoherent hitems]
      refine .of_step (h.spawn_under { tg with q := { tg.q with work := ⟨rest, tg.q.work.len - 1⟩ } }
        hg rfl hs rfl rfl rfl rfl) (ih _ (h.step (by simp) hs) ?_)
      exact update_self _ _ _

theorem passed : ∀ gs s, LiveInv s → s.managers m = .pass gs →
    Reaches (Under Yields) (fun s' => s'.pool.mutexPool = none) s := by
  intro gs
  induction gs with
  | nil =>
    intro s h hpc
    have hs : s.step (.manager m false) =
        some ((s.setPool { s.pool with state := .idle, mutexPool := none }).setManager m .wait) := by
      simp only [Sys.step, Sys.managerStep, hpc]
    exact .of_step (manager_under hs rfl (fun _ _ ht => ht) (fun _ tg hg => ⟨tg, hg, rfl⟩) rfl) (.of_self rfl)
  | cons g gs ih =>
    intro s h hpc
    have hlinked : g ∈ s.pool.groups.items := by
      apply h.managing m g
      rw [hpc]
      exact List.mem_cons_self
    have hspawn : ∀ m', (s.managers m').holdsGroup ≠ some g := by
      intro m' hm'
      have hlock := h.lock.manager m (by rw [hpc]; rfl)
      rw [h.nest.mutexPool_of_spawn hm'] at hlock
      cases hlock
      rw [hpc] at hm'
      cases hm'
    obtain ⟨tg, hg, hfree⟩ := h.linked_free hlinked hspawn
    have hs : s.step (.manager m false) =
        some ((s.setGroup g { tg with mutexGrp := some (.manager m) }).setManager m
          (.spawn g tg.addThrds gs)) := by
      simp only [Sys.step, Sys.managerStep, hpc, hg, hfree, Option.isNone_none, if_true]
    refine .of_step (manager_under hs rfl (fun _ _ ht => ht) (idle_setGroup hg rfl rfl) rfl) ?_
    have h' := h.step (by simp) hs
    refine (spawned gs tg.addThrds _ h' (update_self _ _ _)).bind ?_
    rintro s'' hreach ⟨hpc'', _⟩
    exact ih s'' (h'.under hreach) hpc''

theorem looked {before : List Nat} : ∀ gs s, LiveInv s → s.calls k = .waitLook gs before →
    Reaches (Under Yields)
      (fun s' => s'.pool.mutexPool = none ∧
        (s'.calls k = .waitBlock before ∨ s'.calls k = .waitDone before)) s := by
  intro gs
  induction gs with
  | nil =>
    intro s h hpc
    have hs : s.step (.caller k) = some (s.waitTest k before) := by
      simp only [Sys.step, Sys.callStep, hpc]
    refine .of_step ⟨moves_caller hs ?_ (by rw [hpc]; rfl), ?_⟩ (.of_self ?_)
    . unfold Sys.waitTest
      split <;> rfl
    . unfold Sys.waitTest
      split <;> exact yields_of_eq (fun _ _ ht => ht)
        (calls_holder (k := k) (by rw [hpc]; rfl) rfl) (fun _ tg hg => ⟨tg, hg, rfl⟩) rfl
    . unfold Sys.waitTest
      split
      . exact ⟨rfl, .inl (update_self _ _ _)⟩
      . exact ⟨rfl, .inr (update_self _ _ _)⟩
  | cons g gs ih =>
    intro s h hpc
    have hlinked := h.looking.mem_items h.lock hpc List.mem_cons_self
    have hspawn : ∀ m, (s.managers m).holdsGroup ≠ some g := by
      intro m hm
      have hlock := h.lock.call k (by rw [hpc]; rfl)
      rw [h.nest.mutexPool_of_spawn hm] at hlock
      cases hlock
    obtain ⟨tg, hg, hfree⟩ := h.linked_free hlinked hspawn
    have hholds : (s.calls k).holdsPool = true := by
      rw [hpc]
      rfl
    cases hempty : tg.q.qEmpty with
    | true =>
      have hs : s.step (.caller k) =
          some ((s.setPool { s.pool with groupsWaiting := s.pool.groupsWaiting - 1 }).setCall k
            (.waitLook gs before)) := by
        simp only [Sys.step, Sys.callStep, hpc, hg, hfree, Option.isNone_none, hempty, if_true]
      refine .of_step ⟨moves_caller hs rfl (by rw [hpc]; rfl), ?_⟩ (ih _ (h.step (by simp) hs) (update_self _ _ _))
      exact yields_of_eq (fun _ _ ht => ht) (calls_holder hholds rfl) (fun _ tg hg => ⟨tg, hg, rfl⟩) rfl
    | false =>
      have hs : s.step (.caller k) =
          some ((s.setGroup g { tg with groupWait := true }).setCall k (.waitLook gs before)) := by
        simp only [Sys.step, Sys.callStep, hpc, hg, hfree, Option.isNone_none, hempty, if_true,
          Bool.false_eq_true, if_false]
      refine .of_step ⟨moves_caller hs rfl (by rw [hpc]; rfl), ?_⟩ (ih _ (h.step (by simp) hs) (update_self _ _ _))
      exact yields_of_eq (fun _ _ ht => ht) (calls_holder hholds rfl) (idle_setGroup hg rfl rfl) rfl

theorem unlock_pool (h : LiveInv s) : Reaches (Under Yields) (fun s' => s'.pool.mutexPool = none) s := by
  cases hmutex : s.pool.mutexPool with
  | none => exact .of_self hmutex
  | some o =>
    cases o with
    | call k =>
      have hholds := h.held.call k hmutex
      have hgroup := h.byGroup k
      cases hpc : s.calls k with
      | waitLook gs before => exact (looked gs s h hpc).imp fun _ hs => hs.1
      | _ => simp_all [CallPc.holdsPool, CallPc.byPool]
    | manager m =>
      have hholds := h.held.manager m hmutex
      cases hpc : s.managers m with
      | pass gs => exact passed gs s h hpc
      | spawn g n gs =>
        refine (spawned gs n s h hpc).bind ?_
        rintro s' hreach ⟨hpc', _⟩
        exact passed gs s' (h.under hreach) hpc'
      | wait | exited => simp [hpc, ManagerPc.holdsPool] at hholds

theorem worker_under (ht : s.thrds t = some tt) (hidle : tt.state = .idle)
    (hs : s.step (.worker t) = some s') (haccepted : s'.accepted = s.accepted)
    (hgroups : s'.groups = s.groups) {tt' : TThread} (hthrds : s'.thrds = update s.thrds t (some tt'))
    : Under Parks s s' := by
  refine ⟨moves_worker hs haccepted, ?_, ?_, ?_⟩
  . intro i tti hi hrun
    rw [hthrds, update_of_ne]
    . exact hi
    . rintro rfl
      cases ht.symm.trans hi
      rw [hidle] at hrun
      cases hrun
  . intro i _
    rw [(workerStep_of_workerStep hs).calls_eq]
  . intro i tgi hi
    rw [hgroups]
    exact ⟨tgi, hi, rfl⟩

theorem asleep (ht : s.thrds t = some { tt with pc := .sleep }) (hidle : tt.state = .idle)
    : Reaches (Under Parks) (fun s' => s'.thrds t = some { tt with pc := .blocked }) s := by
  have hs : s.step (.worker t) = some (s.setThrd t { tt with pc := .blocked }) := by
    simp only [Sys.step, Sys.workerStep, ht, hidle, if_true]
  exact .of_step (worker_under ht hidle hs rfl rfl rfl) (.of_self (update_self _ _ _))

theorem blocked_of_idle (h : LiveInv s) (ht : s.thrds t = some tt) (hidle : tt.state = .idle)
    : Reaches (Under Parks) (fun s' => s'.thrds t = some { tt with pc := .blocked }) s := by
  have hok := h.threads.ok t tt ht
  cases hpc : tt.pc with
  | blocked =>
    apply Reaches.of_self
    rw [ht, ← hpc]
  | sleep =>
    apply asleep _ hidle
    rw [ht, ← hpc]
  | decr =>
    refine (Under.mono (fun _ _ hy => hy.toParks) (h.reached h.unlock_pool)).bind ?_
    rintro s' _ ⟨h', hyields, hfree⟩
    have ht' := hyields.thrds t tt ht
    have hs : s'.step (.worker t) = some
        ((s'.setPool { s'.pool with groupsWaiting := s'.pool.groupsWaiting - 1 }).setThrd t
          { tt with pc := .sleep }) := by
      simp only [Sys.step, Sys.workerStep, ht', hpc, TPool.unlocked, hfree, h'.unfreed, Option.isNone_none,
        Bool.not_false, Bool.and_self, if_true]
    refine .of_step (worker_under ht' hidle hs rfl rfl rfl) ?_
    exact asleep (update_self _ _ _) hidle
  | _ => simp [TThread.Ok, hpc, hidle] at hok

theorem built {max : Nat} : ∀ n s, LiveInv s → s.calls k = .addSpawn g n max →
    Reaches (Under Spares)
      (fun s' => s'.calls k = .addCharge g max ∧ ∃ tg, s'.groups g = some tg ∧ tg.mutexGrp = none) s := by
  intro n
  induction n with
  | zero =>
    intro s h hpc
    obtain ⟨tg, hg⟩ := h.allocated_of_owned (k := k) (by rw [hpc]; rfl)
    have hs : s.step (.caller k) =
        some ((s.setGroup g { tg with mutexGrp := none }).setCall k (.addCharge g max)) := by
      simp only [Sys.step, Sys.callStep, hpc, hg]
    refine .of_step ⟨moves_caller hs rfl (by rw [hpc]; rfl), fun _ _ ht _ => ht⟩ (.of_self ?_)
    exact ⟨update_self _ _ _, _, update_self _ _ _, rfl⟩
  | succ n ih =>
    intro s h hpc
    obtain ⟨tg, hg⟩ := h.allocated_of_owned (k := k) (by rw [hpc]; rfl)
    have hs : s.step (.caller k) = some ((s.spawn g tg none).setCall k (.addSpawn g n max)) := by
      simp only [Sys.step, Sys.callStep, hpc, hg]
    refine .of_step ⟨moves_caller hs rfl (by rw [hpc]; rfl), ?_⟩ (ih _ (h.step (by simp) hs) (update_self _ _ _))
    intro t tt ht _
    simp only [Sys.setCall, Sys.spawn, Sys.setThrd, update_apply]
    split
    . next heq =>
      rw [heq, h.fresh.nextThrd_eq_none] at ht
      cases ht
    . exact ht

theorem woken {ts : List Nat} {by_ : Destroyer} : ∀ n s tg, LiveInv s → s.calls k = .wake g ts by_ →
    s.groups g = some tg → tg.idleThrds.items.length = n →
    Reaches (Under Spares)
      (fun s' => s'.calls k = .join g ts by_ ∧ ∃ tg, s'.groups g = some tg ∧ tg.mutexGrp = none) s := by
  intro n
  induction n with
  | zero =>
    intro s tg h hpc hg hn
    have hlen : tg.idleThrds.len = 0 := by rw [(h.threads.coherent g tg hg).1, hn]
    have hs : s.step (.caller k) =
        some ((s.setGroup g { tg with mutexGrp := none }).setCall k (.join g ts by_)) := by
      simp [Sys.step, Sys.callStep, hpc, hg, Sys.wakeSection, LL.listPop, LL.emptyList, hlen]
    refine .of_step ⟨moves_caller hs rfl (by rw [hpc]; rfl), fun _ _ ht _ => ht⟩ (.of_self ?_)
    exact ⟨update_self _ _ _, _, update_self _ _ _, rfl⟩
  | succ n ih =>
    intro s tg h hpc hg hn
    obtain ⟨t, rest, hitems⟩ := List.exists_cons_of_length_eq_add_one hn
    obtain ⟨tt, ht, htg, hidle⟩ := h.threads.idle g tg t hg (by rw [hitems]; exact List.mem_cons_self)
    refine (Under.mono (fun _ _ hp => hp.running) (h.reached (h.blocked_of_idle ht hidle))).bind ?_
    rintro s' _ ⟨h', hparks, ht'⟩
    have hpc' : s'.calls k = .wake g ts by_ := by
      rw [hparks.calls k, hpc]
      have hk := h.byGroup k
      rw [hpc] at hk ⊢
      exact hk
    obtain ⟨tg', hg', hlists⟩ := hparks.idle g tg hg
    have hlen : tg'.idleThrds.len = n + 1 := by rw [(h'.threads.coherent g tg' hg').1, hlists, hn]
    have hs : s'.step (.caller k) = some ((s'.setGroup g
        {
          tg' with
          idleThrds := ⟨rest, tg'.idleThrds.len - 1⟩
          activeThrds := tg'.activeThrds.listAppend t
        }).setThrd t { tt with pc := .blocked, state := .running }) := by
      have hitems' : tg'.idleThrds.items = t :: rest := by rw [hlists, hitems]
      simp [Sys.step, Sys.callStep, hpc', hg', Sys.wakeSection, LL.listPop, LL.emptyList, hlen, hitems', ht',
        WorkerPc.locked]
    refine .of_step ⟨moves_caller hs rfl (by rw [hpc']; rfl), ?_⟩
      (ih _ _ (h'.step (by simp) hs) hpc' (update_self _ _ _) ?_)
    . intro i tti hi hrun
      rw [Sys.setThrd]
      simp only [update_apply]
      split
      . next heq =>
        rw [heq, ht'] at hi
        cases hi
        rw [hidle] at hrun
        cases hrun
      . exact hi
    . rw [hitems, List.length_cons] at hn
      exact Nat.succ.inj hn

theorem unlock_group (h : LiveInv s) (hg : s.groups g = some tg)
    : Reaches (Under Spares) (fun s' => ∃ tg', s'.groups g = some tg' ∧ tg'.mutexGrp = none) s := by
  cases hmutex : tg.mutexGrp with
  | none => exact .of_self ⟨tg, hg, hmutex⟩
  | some o =>
    have ho := (h.groupLock.owner g tg o hg).mp hmutex
    cases o with
    | call k =>
      rw [Sys.holdsGroup] at ho
      cases hpc : s.calls k with
      | addSpawn g' n max =>
        rw [hpc] at ho
        cases ho
        exact (built n s h hpc).imp fun _ hs' => hs'.2
      | wake g' ts by_ =>
        rw [hpc] at ho
        cases ho
        exact (woken _ s tg h hpc hg rfl).imp fun _ hs' => hs'.2
      | _ => simp [hpc, CallPc.holdsGroup] at ho
    | manager m =>
      rw [Sys.holdsGroup] at ho
      cases hpc : s.managers m with
      | spawn g' n gs =>
        rw [hpc] at ho
        cases ho
        refine (Under.mono (fun _ _ hy => hy.running) (spawned gs n s h hpc)).imp ?_
        exact fun _ hs' => hs'.2
      | _ => simp [hpc, ManagerPc.holdsGroup] at ho

theorem handed (h : LiveInv s) (hk : s.calls k = .hand g t w)
    : Reaches Moves (fun s' => s'.calls k = .done w .poolSuccess ∧
        ∃ tt, s'.thrds t = some tt ∧ tt.tg = g ∧ tt.currTask = some w) s := by
  obtain ⟨tt, ht, htg, hidle⟩ := h.threads.hand k g t w hk
  refine (Under.moves (h.reached (h.blocked_of_idle ht hidle))).bind ?_
  rintro s' _ ⟨_, hparks, ht'⟩
  have hk' : s'.calls k = .hand g t w := by
    rw [hparks.calls k, hk]
    rw [hk]
    rfl
  have hs : s'.step (.caller k) =
      some ((s'.setThrd t { tt with pc := .blocked, currTask := some w, state := .running }).setCall k
        (.done w .poolSuccess)) := by
    simp [Sys.step, Sys.callStep, hk', ht', WorkerPc.locked]
  refine .of_step (moves_caller hs rfl (by rw [hk']; rfl)) (.of_self ?_)
  exact ⟨update_self _ _ _, _, update_self _ _ _, htg, rfl⟩

def Looks (g t : Nat) (s : Sys) : Prop := ∃ tt, s.thrds t = some tt ∧ tt.tg = g ∧ tt.pc = .grp

theorem own {P : Sys → Prop} (hs : s.step (.worker t) = some s') (haccepted : s'.accepted = s.accepted)
    (h : Reaches Moves P s')
    : Reaches Moves P s :=
  .of_step (moves_worker hs haccepted) h

theorem finishes (h : LiveInv s) (ht : s.thrds t = some tt) (hw : tt.currTask = some w)
    : Reaches Moves (fun s' => Looks tt.tg t s' ∧ w ∈ s'.finished) s := by
  have hret : ∀ s : Sys, s.thrds t = some { tt with pc := .ret w } →
      Reaches Moves (fun s' => Looks tt.tg t s' ∧ w ∈ s'.finished) s := by
    intro s ht
    have hs : s.step (.worker t) = some
        ({ s with finished := s.finished ++ tt.currTask.toList }.setThrd t
          { tt with currTask := none, pc := .grp }) := by
      simp only [Sys.step, Sys.workerStep, ht]
    refine own hs rfl (.of_self ⟨⟨_, update_self _ _ _, rfl, rfl⟩, ?_⟩)
    simp [hw]
  have hinFunc : ∀ s : Sys, s.thrds t = some { tt with pc := .inFunc w } →
      Reaches Moves (fun s' => Looks tt.tg t s' ∧ w ∈ s'.finished) s := by
    intro s ht
    have hs : s.step (.worker t) = some (s.setThrd t { tt with pc := .ret w }) := by
      simp only [Sys.step, Sys.workerStep, ht]
    exact own hs rfl (hret _ (update_self _ _ _))
  have hcall : ∀ s : Sys, s.thrds t = some { tt with pc := .call w } →
      Reaches Moves (fun s' => Looks tt.tg t s' ∧ w ∈ s'.finished) s := by
    intro s ht
    have hs : s.step (.worker t) = some
        ({ s with called := update s.called w (s.called w + 1) }.setThrd t
          { tt with pc := .inFunc w }) := by
      simp only [Sys.step, Sys.workerStep, ht]
    exact own hs rfl (hinFunc _ (update_self _ _ _))
  have htop : ∀ s : Sys, s.thrds t = some { tt with pc := .top } →
      Reaches Moves (fun s' => Looks tt.tg t s' ∧ w ∈ s'.finished) s := by
    intro s ht
    have hs : s.step (.worker t) = some (s.setThrd t { tt with pc := .call w }) := by
      simp only [Sys.step, Sys.workerStep, ht, hw]
    exact own hs rfl (hcall _ (update_self _ _ _))
  have hok := h.threads.ok t tt ht
  cases hpc : tt.pc with
  | top => exact htop s (by rw [ht, ← hpc])
  | call w' =>
    rw [TThread.Ok, hpc, hw] at hok
    cases hok.2
    exact hcall s (by rw [ht, ← hpc])
  | inFunc w' =>
    rw [TThread.Ok, hpc, hw] at hok
    cases hok.2
    exact hinFunc s (by rw [ht, ← hpc])
  | ret w' =>
    rw [TThread.Ok, hpc, hw] at hok
    cases hok.2
    exact hret s (by rw [ht, ← hpc])
  | blocked =>
    have hrun := hok.running_of_currTask hw
    have hs : s.step (.worker t) = some (s.setThrd t { tt with pc := .top }) := by
      simp only [Sys.step, Sys.workerStep, ht, hpc, hrun]
      rfl
    exact own hs rfl (htop _ (update_self _ _ _))
  | _ => simp [TThread.Ok, hpc, hw] at hok

/--
A thread that is running and does not leave its group gets to the section in which it looks for a work.
-/
theorem looks (h : LiveInv s) (ht : s.thrds t = some tt) (hrun : tt.state = .running) (hpc : tt.pc ≠ .leave)
    : Reaches Moves (Looks tt.tg t) s := by
  cases hw : tt.currTask with
  | some w => exact (h.finishes ht hw).imp fun _ hs => hs.1
  | none =>
    have htop : ∀ s : Sys, s.thrds t = some { tt with pc := .top } → Reaches Moves (Looks tt.tg t) s := by
      intro s ht
      have hs : s.step (.worker t) = some (s.setThrd t { tt with pc := .grp }) := by
        simp only [Sys.step, Sys.workerStep, ht, hw]
      exact own hs rfl (.of_self ⟨_, update_self _ _ _, rfl, rfl⟩)
    have hok := h.threads.ok t tt ht
    cases hpc' : tt.pc with
    | top => exact htop s (by rw [ht, ← hpc'])
    | grp => exact .of_self ⟨tt, ht, rfl, hpc'⟩
    | leave => exact absurd hpc' hpc
    | blocked =>
      have hs : s.step (.worker t) = some (s.setThrd t { tt with pc := .top }) := by
        simp only [Sys.step, Sys.workerStep, ht, hpc', hrun]
        rfl
      exact own hs rfl (htop _ (update_self _ _ _))
    | _ => simp [TThread.Ok, hpc', hw, hrun] at hok

theorem onward {P : Sys → Prop} (h : LiveInv s) (hr : Reaches Moves P s)
    : Reaches Moves (fun s' => LiveInv s' ∧ Onward s s' ∧ P s') s := by
  obtain ⟨s', hs, hP⟩ := hr
  exact ⟨s', hs, invariant (fun _ _ h hm => h.drives hm.toDrives) h hs, frame (fun _ _ hm => hm.onward) hs, hP⟩

theorem length_accepted (h : LiveInv s) (g : Nat)
    : (s.accepted g).length = (s.assigned g).length + (queueOf (s.groups g)).length := by
  rw [h.ordered.order g, List.length_append]

theorem fetch {rest : List Nat} (h : LiveInv s) (ht : s.thrds t = some tt) (hpc : tt.pc = .grp)
    (hg : s.groups tt.tg = some tg) (hfree : tg.mutexGrp = none) (hitems : tg.q.work.items = w :: rest)
    : Reaches Moves (fun s' => (s'.assigned tt.tg).length = (s.assigned tt.tg).length + 1) s := by
  have hsound := h.drain.sound tt.tg tg hg
  have hs : s.step (.worker t) = some
      (((s.setGroup tt.tg
        { tg with q := { tg.q with work := ⟨rest, tg.q.work.len - 1⟩ } }).assign tt.tg w).setThrd t
        { tt with currTask := some w, pc := .call w }) := by
    simp only [Sys.step, Sys.workerStep, ht, hpc, hg, hfree, Option.isNone_none, if_true, Sys.workerSection,
      hsound.hardKill, h.clean tt.tg tg hg, Bool.false_eq_true, if_false,
      Worker.qFetch_of_cons hsound.coherent hitems]
  refine own hs rfl (.of_self ?_)
  simp only [Sys.setThrd, Sys.assign, Sys.setGroup, update_self, List.length_append, List.length_singleton]

/--
A thread that looks for a work gets the first one of the queue, unless somebody else has emptied it.
-/
theorem fetches (h : LiveInv s) (hlooks : Looks g t s) (hqueue : queueOf (s.groups g) ≠ [])
    : Reaches Moves (fun s' => (s.assigned g).length < (s'.assigned g).length) s := by
  obtain ⟨tt, ht, rfl, hpc⟩ := hlooks
  obtain ⟨tg, hg⟩ := h.housed t tt ht
  have hok := h.threads.ok t tt ht
  rw [TThread.Ok, hpc] at hok
  refine (h.onward (Under.moves (h.reached (h.unlock_group hg)))).bind ?_
  rintro s' _ ⟨h', honward, _, hspares, tg', hg', hfree⟩
  have ht' := hspares t tt ht hok.1
  cases hitems : tg'.q.work.items with
  | nil =>
    apply Reaches.of_self
    have hlength := h.length_accepted tt.tg
    have hlength' := h'.length_accepted tt.tg
    rw [hg', queueOf, hitems, List.length_nil, honward.accepted] at hlength'
    have := List.length_pos_of_ne_nil hqueue
    omega
  | cons w rest =>
    refine (h'.fetch ht' hpc hg' hfree hitems).imp ?_
    intro s'' heq
    have := honward.assigned tt.tg
    omega

theorem looks_of_unlisted (h : LiveInv s) (ht : s.thrds t = some tt) (hpc : tt.pc ≠ .leave)
    (hg : s.groups tt.tg = some tg) (hunlisted : t ∉ tg.idleThrds.items)
    : Reaches Moves (Looks tt.tg t) s := by
  cases hstate : tt.state with
  | running => exact h.looks ht hstate hpc
  | idle =>
    obtain ⟨k, g, w, hk⟩ := (h.reserved t tt tg ht hstate hg).resolve_left hunlisted
    obtain ⟨tt₀, ht₀, rfl, _⟩ := h.threads.hand k g t w hk
    cases ht.symm.trans ht₀
    refine (h.onward (h.handed hk)).bind ?_
    rintro s' _ ⟨h', _, _, tt', ht', htg', hw⟩
    rw [← htg']
    exact (h'.finishes ht' hw).imp fun _ hs => hs.1
  | dead =>
    have hok := h.threads.ok t tt ht
    rw [TThread.Ok.eq_def] at hok
    split at hok <;> simp [hstate] at hok

/--
A group with a work in its queue has a thread that is going to look for one.
-/
theorem looks_of_queue (h : LiveInv s) (hg : s.groups g = some tg) (hfree : tg.mutexGrp = none)
    (hqueue : tg.q.work.items ≠ [])
    : ∃ t, Reaches Moves (Looks g t) s := by
  have hthrds : tg.thrds ≠ [] := by
    intro hnil
    obtain ⟨k, hk⟩ := h.drain.staffed g tg hg hnil
    apply h.groupLock.not_held hg hfree (.call k)
    unfold CallPc.spawning at hk
    split at hk
    . next hpc =>
      rw [Sys.holdsGroup, hpc]
      exact hk
    . cases hk
  obtain ⟨t, hmem⟩ := List.exists_mem_of_ne_nil _ hthrds
  refine ⟨t, ?_⟩
  cases ht : s.thrds t with
  | none => exact absurd (h.drain.left g tg t hg hmem ht).2 hqueue
  | some tt =>
    have htg := (h.drain.names g tg t hg hmem).2 tt ht
    subst htg
    refine h.looks_of_unlisted ht ?_ hg ?_
    . intro hpc
      exact hqueue (h.drain.leaving t tt tg ht hpc hg).2
    . intro hidle
      exact hqueue (h.ordered.idle tt.tg tg hg (List.ne_nil_of_mem hidle))

theorem shrinks (h : LiveInv s) (hqueue : queueOf (s.groups g) ≠ [])
    : Reaches Moves (fun s' => (s.assigned g).length < (s'.assigned g).length) s := by
  have hlength := h.length_accepted g
  have hpos := List.length_pos_of_ne_nil hqueue
  -- Once the queue is empty all of the works have been assigned.
  have hempty : ∀ s', LiveInv s' → s'.accepted = s.accepted → queueOf (s'.groups g) = [] →
      (s.assigned g).length < (s'.assigned g).length := by
    intro s' h' haccepted hnil
    have hlength' := h'.length_accepted g
    rw [hnil, List.length_nil, haccepted] at hlength'
    omega
  cases hg : s.groups g with
  | none =>
    rw [hg] at hqueue
    exact absurd rfl hqueue
  | some tg =>
    refine (h.onward (Under.moves (h.unlock_group hg))).bind ?_
    rintro s₁ _ ⟨h₁, honward₁, tg₁, hg₁, hfree⟩
    by_cases hqueue₁ : tg₁.q.work.items = []
    . exact .of_self (hempty s₁ h₁ honward₁.accepted (by rw [hg₁]; exact hqueue₁))
    . obtain ⟨t, hlooks⟩ := h₁.looks_of_queue hg₁ hfree hqueue₁
      refine (h₁.onward hlooks).bind ?_
      rintro s₂ _ ⟨h₂, honward₂, hlooks₂⟩
      by_cases hqueue₂ : queueOf (s₂.groups g) = []
      . exact .of_self (hempty s₂ h₂ (honward₂.accepted.trans honward₁.accepted) hqueue₂)
      . refine (h₂.fetches hlooks₂ hqueue₂).imp ?_
        intro s₃ hlt
        have := honward₁.assigned g
        have := honward₂.assigned g
        omega

theorem finishes_of_accepted (h : LiveInv s) (hw : w ∈ s.accepted g)
    : Reaches Moves (fun s' => w ∈ s'.finished) s := by
  refine Reaches.of_measure (I := fun s => LiveInv s ∧ w ∈ s.accepted g)
    (fun s => (s.accepted g).length - (s.assigned g).length) ?_ s ⟨h, hw⟩
  rintro s ⟨h, hw⟩
  rcases h.located g w hw with (hqueue | ⟨t, htask⟩) | ⟨k, t, hk⟩ | hfinished
  . have hne : queueOf (s.groups g) ≠ [] := List.ne_nil_of_mem hqueue
    refine (h.onward (h.shrinks hne)).imp ?_
    rintro s' ⟨h', honward, hlt⟩
    have hlength := h.length_accepted g
    have hpos := List.length_pos_of_ne_nil hne
    refine .inr ⟨⟨h', ?_⟩, ?_⟩
    . rw [honward.accepted]
      exact hw
    . rw [honward.accepted]
      omega
  . cases ht : s.thrds t with
    | none =>
      rw [ht] at htask
      cases htask
    | some tt =>
      simp only [ht, taskIn, Option.map_eq_some_iff, Prod.mk.injEq] at htask
      obtain ⟨w', hcurr, rfl, _⟩ := htask
      exact (h.finishes ht hcurr).imp fun _ hs => .inl hs.2
  . refine (h.onward (h.handed hk)).bind ?_
    rintro s' _ ⟨h', _, _, tt, ht, _, hcurr⟩
    exact (h'.finishes ht hcurr).imp fun _ hs => .inl hs.2
  . exact .of_self (.inl hfinished)

end LiveInv

theorem run_of_drives {s s' : Sys} (h : Relation.ReflTransGen Drives s s')
    : ∃ as, (∀ a ∈ as, ∀ req, a ≠ .call req) ∧ run s as = some s' := by
  obtain ⟨as, has, hrun⟩ := exists_run (Relation.ReflTransGen.mono (fun _ _ hd => hd.step) _ _ h)
  exact ⟨as, Lts.forall_of_along (has.imp fun _ _ => own_ne_call) hrun, hrun⟩

/--
All works that were accepted get finished, if the threads that are there are scheduled as is told.
-/
def Completes (s : Sys) : Prop :=
  ∃ as s', (∀ a ∈ as, ∀ req, a ≠ .call req) ∧ run s as = some s' ∧ s'.accepted = s.accepted ∧
    ∀ g w, w ∈ s.accepted g → w ∈ s'.finished ∧ s'.called w = 1

theorem LiveInv.completes {s : Sys} (h : LiveInv s) : Completes s := by
  have hall : Reaches Moves (fun s' => ∀ w ∈ s.given, ∀ g, w ∈ s'.accepted g → w ∈ s'.finished) s := by
    refine Reaches.forall_mem (I := LiveInv) (P := fun w s => ∀ g, w ∈ s.accepted g → w ∈ s.finished)
      (fun _ _ h hm => h.drives hm.toDrives) ?_ ?_ s.given s h
    . intro w s s' hw hm g hg
      obtain ⟨a, _, hs⟩ := hm.step
      rw [hm.accepted] at hg
      exact finished_subset (step_of_step hs) (hw g hg)
    . intro w s h
      by_cases hw : ∃ g, w ∈ s.accepted g
      . obtain ⟨g, hg⟩ := hw
        exact (h.finishes_of_accepted hg).imp fun _ hfinished _ _ => hfinished
      . exact .of_self fun g hg => absurd ⟨g, hg⟩ hw
  obtain ⟨s', hmoves, h', honward, hfinished⟩ := h.onward hall
  obtain ⟨as, has, hrun⟩ := run_of_drives (Relation.ReflTransGen.mono (fun _ _ hm => hm.toDrives) _ _ hmoves)
  refine ⟨as, s', has, hrun, honward.accepted, ?_⟩
  intro g w hw
  have hgiven := (h.dealt.placed w (h.located g w hw).placed).1
  have hdone := hfinished w hgiven g (by rw [honward.accepted]; exact hw)
  exact ⟨hdone, h'.once.calledFinished w hdone⟩

theorem completes_of_run {maxThrds : Nat} {tp : TPool} {as : List Action} {s : Sys}
    (hinit : TPool.initPool maxThrds = some tp) (hdestroy : ∀ a ∈ as, a ≠ .call .destroyPool)
    (hrun : run (.init tp) as = some s)
    : Completes s := by
  have halong : Lts.Along Sys.step (fun _ a => a ≠ .call .destroyPool) (.init tp) as :=
    Lts.along_of_forall hdestroy
  refine (Lts.invariant_along (I := LiveInv) ?_ (.init hinit) halong hrun).completes
  intro s a s' h ha hs
  exact h.step ha hs

theorem completes_closing_group
    : ∃ tp s, TPool.initPool 4 = some tp ∧
        run (.init tp) (.call (.addGroup 1 1 0) :: List.replicate 5 (.caller 0) ++
          .call (.doWork 0 7) :: List.replicate 3 (.caller 1) ++
          [.call (.destroyGroup 0), .caller 2, .caller 2]) = some s ∧
        Completes s ∧ s.accepted 0 = [7] ∧ s.finished = [] ∧ (s.calls 2).holdsGroup = some 0 := by
  refine ⟨_, _, rfl, rfl, ?_, rfl, rfl, rfl⟩
  exact @completes_of_run 4 _ (.call (.addGroup 1 1 0) :: List.replicate 5 (.caller 0) ++
    .call (.doWork 0 7) :: List.replicate 3 (.caller 1) ++
    [.call (.destroyGroup 0), .caller 2, .caller 2]) _ rfl (by decide) rfl

end Pool
