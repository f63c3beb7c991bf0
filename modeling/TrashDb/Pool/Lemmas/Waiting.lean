import TrashDb.Pool.Lemmas.Progress

/-!
This module contains that `wait_pool` can always return, if one call of it is made at a time and nothing is
destroyed while it waits. The threads of a group that has the flag can finish what the group has accepted and
go idle one after the other, the last one of them clears the flag and decrements the counter, and whoever
brings it to 0 wakes up the caller. Nobody wakes up without that.
-/

namespace Pool

open Function Reach

/--
A group is closed by the call that is destroying it. A group with the flag has an active thread.
-/
structure FlagInv (s : Sys) : Prop where
  closed : ∀ g tg, s.groups g = some tg → tg.groupClose = true →
    ∃ k ts, (s.calls k).unjoined = some (g, ts)
  active : ∀ g tg, s.groups g = some tg → tg.groupWait = true → tg.activeThrds.items ≠ []

section

variable {s s' : Sys} {a : Action} {k g t w : Nat} {tg tg' : TGroup}

theorem unjoined_of_update {p : CallPc} (hcalls : s'.calls = update s.calls k p)
    : (s'.calls k).unjoined = p.unjoined := by
  rw [hcalls, update_self]

theorem unjoined_kept {ts : List Nat} (hf : Fresh s) (hs : Step s a s')
    (hk : (s.calls k).unjoined = some (g, ts))
    : (∃ ts', (s'.calls k).unjoined = some (g, ts')) ∨ s'.groups g = none := by
  cases hs with
  | start req s' hs =>
    left
    refine ⟨ts, ?_⟩
    rw [hs.calls_of_ne, hk]
    rintro rfl
    rw [hf.nextCall_eq_returned] at hk
    cases hk
  | caller i s' hs =>
    by_cases hki : k = i
    . subst hki
      cases hs with
      | wake i ts' by_ tgi t rest tt hpc => exact .inl ⟨ts, hk⟩
      | endWake i ts' by_ tgi hpc | join i t ts' by_ hpc | endJoinGroup i hpc =>
        rw [hpc, CallPc.unjoined, Option.some.injEq, Prod.mk.injEq] at hk
        obtain ⟨rfl, _⟩ := hk
        exact .inl ⟨_, (unjoined_of_update rfl).trans rfl⟩
      | endJoinPool i tgi hpc | refund i tgi hpc =>
        rw [hpc, CallPc.unjoined, Option.some.injEq, Prod.mk.injEq] at hk
        obtain ⟨rfl, _⟩ := hk
        exact .inr (update_self _ _ _)
      | block before hpc | endWait before hpc => rcases hpc with hpc | hpc <;> simp [hpc, CallPc.unjoined] at hk
      | _ => simp [*, CallPc.unjoined] at hk
    . rw [hs.calls_of_ne hki]
      exact .inl ⟨ts, hk⟩
  | worker i s' hs =>
    rw [hs.calls_eq]
    exact .inl ⟨ts, hk⟩
  | manager m timedOut s' hs =>
    rw [hs.calls_eq]
    exact .inl ⟨ts, hk⟩

theorem closed_step (h : FlagInv s) (hf : Fresh s) (hs : Step s a s')
    : ∀ g tg, s'.groups g = some tg → tg.groupClose = true →
        ∃ k ts, (s'.calls k).unjoined = some (g, ts) := by
  intro g tg' hg' hclose
  -- The group had been closed before.
  have hbefore {tg : TGroup} (hg : s.groups g = some tg) (hclose : tg.groupClose = true)
      : ∃ k ts, (s'.calls k).unjoined = some (g, ts) := by
    obtain ⟨k, ts, hk⟩ := h.closed g tg hg hclose
    rcases unjoined_kept hf hs hk with ⟨ts', hk'⟩ | hnone
    . exact ⟨k, ts', hk'⟩
    . rw [hnone] at hg'
      cases hg'
  have hkeep (hkeeps : Keeps TGroup.groupClose s s') : ∃ k ts, (s'.calls k).unjoined = some (g, ts) := by
    obtain ⟨tg, hg, heq⟩ := hkeeps g tg' hg'
    exact hbefore hg (heq ▸ hclose)
  cases hs with
  | start req s' hs => cases hs <;> exact hkeep (keeps_of_eq rfl)
  | caller k s' hs =>
    cases hs with
    | build min max flags hpc =>
      rcases setGroup_cases rfl hg' with ⟨rfl, rfl⟩ | ⟨_, hg⟩
      . cases hclose
      . exact hbefore hg hclose
    | close i by_ tgi hpc hi =>
      rcases setGroup_cases rfl hg' with ⟨rfl, _⟩ | ⟨_, hg⟩
      . exact ⟨k, _, (unjoined_of_update rfl).trans rfl⟩
      . exact hbefore hg hclose
    | spawn i n max tgi hpc hi | endSpawn i max tgi hpc hi | wake i ts by_ tgi t rest tt hpc hi
    | endWake i ts by_ tgi hpc hi | queue i w tgi pc hpc hi | reserve i w tgi t rest hpc hi
    | flag i gs before tgi hpc hi =>
      exact hkeep (keeps_setGroup rfl hi rfl)
    | endJoinPool i tgi hpc hi | refund i tgi hpc hi => exact hkeep (keeps_freeGroup rfl)
    | _ => exact hkeep (keeps_of_eq rfl)
  | worker t s' hs =>
    cases hs with
    | fetch tt tgi w rest htt hpc hi | goIdle tt tgi wait htt hpc hi | leave tt tgi htt hpc hi =>
      exact hkeep (keeps_setGroup rfl hi rfl)
    | _ => exact hkeep (keeps_of_eq rfl)
  | manager m timedOut s' hs =>
    cases hs with
    | look i gs tgi hpc hi | endSpawn i gs tgi hpc hi | spawnTask i n gs tgi w rest hpc hi
    | spawnNone i n gs tgi hpc hi =>
      exact hkeep (keeps_setGroup rfl hi rfl)
    | _ => exact hkeep (keeps_of_eq rfl)

/--
A flag is set where the queue is not empty, and cleared when the last active thread goes idle. Only a group
that is being destroyed loses a thread otherwise.
-/
theorem active_step (h : GroupInv s) (hi : FlagInv s)
    (hflag : ∀ g tg, s.groups g = some tg → tg.groupWait = true → tg.groupClose = false)
    (hlook : ∀ k g gs before tg, s.calls k = .waitLook (g :: gs) before → s.groups g = some tg →
      tg.groupClose = false)
    (hs : Step s a s')
    : ∀ g tg, s'.groups g = some tg → tg.groupWait = true → tg.activeThrds.items ≠ [] := by
  intro g tg' hg' hwait
  have hkeep (hkeeps : Keeps (fun tg => (tg.groupWait, tg.activeThrds)) s s')
      : tg'.activeThrds.items ≠ [] := by
    obtain ⟨tg, hg, heq⟩ := hkeeps g tg' hg'
    rw [Prod.mk.injEq] at heq
    rw [heq.2]
    exact hi.active g tg hg (heq.1 ▸ hwait)
  have hset {i : Nat} {tgi tgn : TGroup} (hgroups : s'.groups = update s.groups i (some tgn))
      (hi' : s.groups i = some tgi) (hne : tgn.groupWait = true → tgn.activeThrds.items ≠ [])
      : tg'.activeThrds.items ≠ [] := by
    rcases setGroup_cases hgroups hg' with ⟨_, rfl⟩ | ⟨_, hg⟩
    . exact hne hwait
    . exact hi.active g tg' hg hwait
  cases hs with
  | start req s' hs => cases hs <;> exact hkeep (keeps_of_eq rfl)
  | caller k s' hs =>
    cases hs with
    | build min max flags hpc =>
      rcases setGroup_cases rfl hg' with ⟨rfl, rfl⟩ | ⟨_, hg⟩
      . cases hwait
      . exact hi.active g tg' hg hwait
    | spawn i n max tgi hpc hi' | wake i ts by_ tgi t rest tt hpc hi' | reserve i w tgi t rest hpc hi' =>
      exact hset rfl hi' (by simp)
    | close i by_ tgi hpc hi' | endSpawn i max tgi hpc hi' | endWake i ts by_ tgi hpc hi'
    | queue i w tgi pc hpc hi' =>
      exact hkeep (keeps_setGroup rfl hi' rfl)
    | flag i gs before tgi hpc hi' hlock hlen =>
      refine hset rfl hi' fun _ => ?_
      have hmembers := h.members_ne_nil hi' hlock (hlook k i gs before tgi hpc hi')
      have hqueue : tgi.q.work.items ≠ [] := by
        intro hnil
        have := (h.drain.sound i tgi hi').coherent
        rw [LL.Coherent, hnil] at this
        exact hlen this
      have hidle : tgi.idleThrds.items = [] := by
        by_contra hne
        exact hqueue (h.ordered.idle i tgi hi' hne)
      rw [TGroup.members, hidle] at hmembers
      exact hmembers
    | endJoinPool i tgi hpc hi' | refund i tgi hpc hi' => exact hkeep (keeps_freeGroup rfl)
    | _ => exact hkeep (keeps_of_eq rfl)
  | worker t s' hs =>
    cases hs with
    | fetch tt tgi w rest htt hpc hi' => exact hkeep (keeps_setGroup rfl hi' rfl)
    | goIdle tt tgi wait htt hpc hi' hlock hlen hkill hrun hw =>
      refine hset rfl hi' fun hwait => ?_
      have hactive : t ∈ tgi.activeThrds.items := h.threads.active t tt tgi htt hrun hi'
      have hlength := List.length_erase_of_mem hactive
      have hpos := List.length_pos_of_mem hactive
      have hcoherent := (h.threads.coherent tt.tg tgi hi').2
      rw [LL.Coherent] at hcoherent
      have hone : tgi.activeThrds.len ≠ 1 := by
        rw [hw] at hwait
        simp only [Bool.and_eq_true, Bool.not_eq_true', Bool.and_eq_false_iff, beq_eq_false_iff_ne] at hwait
        exact hwait.2.resolve_left (by simp [hwait.1])
      apply List.ne_nil_of_length_pos
      dsimp only
      omega
    | leave tt tgi htt hpc hi' =>
      refine hset rfl hi' fun hwait => ?_
      have hsoft := (h.drain.leaving t tt tgi htt hpc hi').1
      have hclose := (h.drain.sound tt.tg tgi hi').close hsoft
      rw [hflag tt.tg tgi hi' hwait] at hclose
      cases hclose
    | _ => exact hkeep (keeps_of_eq rfl)
  | manager m timedOut s' hs =>
    cases hs with
    | look i gs tgi hpc hi' | endSpawn i gs tgi hpc hi' => exact hkeep (keeps_setGroup rfl hi' rfl)
    | spawnTask i n gs tgi w rest hpc hi' | spawnNone i n gs tgi hpc hi' => exact hset rfl hi' (by simp)
    | _ => exact hkeep (keeps_of_eq rfl)

end

/--
One call sleeps in `wait_pool`. No other one waits, and nothing is being destroyed.
-/
structure Alone (k : Nat) (s : Sys) : Prop extends LiveInv s, FlagInv s where
  blocked : (s.calls k).blocked = true
  others : ∀ i, (s.calls i).waits = true → i = k
  keeps : ∀ i, (s.calls i).destroys = false

/--
The counter goes down, flags are cleared and threads go idle, and nothing of it is undone.
-/
structure Eases (s s' : Sys) : Prop where
  count : s'.pool.groupsWaiting ≤ s.pool.groupsWaiting
  flag : ∀ g, flagOf (s'.groups g) = true → flagOf (s.groups g) = true
  idle : ∀ g tg, s.groups g = some tg → ∃ tg', s'.groups g = some tg' ∧ tg'.thrdMax = tg.thrdMax ∧
    tg.idleThrds.items.length ≤ tg'.idleThrds.items.length

instance : Std.Refl Eases where
  refl _ := ⟨le_refl _, fun _ => id, fun _ tg hg => ⟨tg, hg, rfl, le_refl _⟩⟩

instance : IsTrans Sys Eases := by
  constructor
  intro s s' s'' h h'
  refine ⟨h'.count.trans h.count, fun g hg => h.flag g (h'.flag g hg), ?_⟩
  intro g tg hg
  obtain ⟨tg', hg', hmax, hle⟩ := h.idle g tg hg
  obtain ⟨tg'', hg'', hmax', hle'⟩ := h'.idle g tg' hg'
  exact ⟨tg'', hg'', hmax'.trans hmax, hle.trans hle'⟩

def slackOf : Option TGroup → Nat
  | none => 0
  | some tg => tg.thrdMax - tg.idleThrds.items.length

/--
What is left to do until the last active thread of the group goes idle.
-/
def Sys.busy (s : Sys) (g : Nat) : Nat :=
  (s.accepted g).length - (s.assigned g).length + slackOf (s.groups g)

section

variable {s s' : Sys} {a : Action} {k g t w : Nat} {tg tg' : TGroup} {tt : TThread}

theorem eases_of_eq (hgroups : s'.groups = s.groups) (hcount : s'.pool.groupsWaiting ≤ s.pool.groupsWaiting)
    : Eases s s' := by
  refine ⟨hcount, ?_, ?_⟩ <;> rw [hgroups]
  . exact fun _ => id
  . exact fun _ tg hg => ⟨tg, hg, rfl, le_refl _⟩

theorem eases_setGroup (hg : s.groups g = some tg) (hgroups : s'.groups = update s.groups g (some tg'))
    (hflag : tg'.groupWait = true → tg.groupWait = true) (hmax : tg'.thrdMax = tg.thrdMax)
    (hidle : tg.idleThrds.items.length ≤ tg'.idleThrds.items.length)
    (hcount : s'.pool.groupsWaiting = s.pool.groupsWaiting)
    : Eases s s' := by
  refine ⟨hcount.le, ?_, ?_⟩
  . intro i hi
    rw [hgroups, update_apply] at hi
    split at hi
    . next heq =>
      rw [heq, hg]
      exact hflag hi
    . exact hi
  . intro i tgi hi
    rw [hgroups, update_apply]
    split
    . next heq =>
      subst heq
      cases hg.symm.trans hi
      exact ⟨tg', rfl, hmax, hidle⟩
    . exact ⟨tgi, hi, rfl, le_refl _⟩

theorem Eases.slack (h : Eases s s') (hg : s.groups g = some tg)
    : slackOf (s'.groups g) ≤ slackOf (s.groups g) := by
  obtain ⟨tg', hg', hmax, hle⟩ := h.idle g tg hg
  rw [hg, hg', slackOf, slackOf, hmax]
  omega

theorem busy_le_of_onward (honward : Onward s s') (heases : Eases s s') (hg : s.groups g = some tg)
    : s'.busy g ≤ s.busy g := by
  have hassigned := honward.assigned g
  have hslack := heases.slack hg
  rw [Sys.busy, Sys.busy, honward.accepted]
  omega

theorem kind_of_own (ha : s.own a) (hs : Step s a s') (i : Nat)
    : ((s'.calls i).waits = true → (s.calls i).waits = true) ∧
        ((s'.calls i).destroys = true → (s.calls i).destroys = true) := by
  cases hs with
  | start req s' hs => exact ha.elim
  | caller k s' hs => exact ApartInv.kind_caller hs i
  | worker t s' hs =>
    rw [hs.calls_eq]
    exact ⟨id, id⟩
  | manager m timedOut s' hs =>
    rw [hs.calls_eq]
    exact ⟨id, id⟩

theorem waiting_of_blocked {p : CallPc} (h : p.blocked = true) : p.waiting = true := by
  cases p <;> first | rfl | cases h

theorem waits_of_blocked {p : CallPc} (h : p.blocked = true) : p.waits = true := by
  cases p <;> first | rfl | cases h

theorem waits_of_left {p : CallPc} {gs : List Nat} (h : p.left = some gs)
    : p.waits = true ∧ p.blocked = false := by
  cases p <;> first | exact ⟨rfl, rfl⟩ | cases h

theorem destroys_of_unjoined {p : CallPc} (h : p.unjoined ≠ none) : p.destroys = true := by
  cases p <;> first | rfl | exact absurd rfl h

theorem destroys_of_unlinks (h : s.unlinks k = some g) : (s.calls k).destroys = true := by
  unfold Sys.unlinks at h
  split at h
  . next hpc =>
    rw [hpc]
    rfl
  . next hpc =>
    rw [hpc]
    rfl
  . cases h

theorem FlagInv.opened (h : FlagInv s) (hkeeps : ∀ i, (s.calls i).destroys = false) (hg : s.groups g = some tg)
    : tg.groupClose = false := by
  rw [← Bool.not_eq_true]
  intro hclose
  obtain ⟨i, ts, hi⟩ := h.closed g tg hg hclose
  have hdestroys := hkeeps i
  rw [destroys_of_unjoined (by simp [hi])] at hdestroys
  cases hdestroys

end

namespace Alone

variable {s s' : Sys} {a : Action} {k g t w : Nat} {tg : TGroup} {tt : TThread} {P : Sys → Prop}

theorem opened (h : Alone k s) (hg : s.groups g = some tg) : tg.groupClose = false :=
  h.toFlagInv.opened h.keeps hg

theorem softKill_eq_false (h : Alone k s) (hg : s.groups g = some tg) : tg.softKill = false := by
  rw [← Bool.not_eq_true]
  intro hsoft
  have hopen := h.opened hg
  rw [(h.drain.sound g tg hg).close hsoft] at hopen
  cases hopen

theorem ne_leave (h : Alone k s) (ht : s.thrds t = some tt) (hg : s.groups tt.tg = some tg)
    : tt.pc ≠ .leave := by
  intro hpc
  have hsoft := (h.drain.leaving t tt tg ht hpc hg).1
  rw [h.softKill_eq_false hg] at hsoft
  cases hsoft

theorem waits_eq_false {i : Nat} (h : Alone k s) (hi : (s.calls i).blocked = false)
    : (s.calls i).waits = false := by
  rw [← Bool.not_eq_true]
  intro hwaits
  rw [h.others i hwaits, h.blocked] at hi
  cases hi

theorem eases (h : Alone k s) (hm : Moves s s') : Eases s s' := by
  obtain ⟨a, ha, hs⟩ := hm.step
  have haccepted := hm.accepted
  cases step_of_step hs with
  | start req s' hs => exact ha.elim
  | caller i s' hs =>
    have hwaits := h.waits_eq_false ha
    have hkeeps := h.keeps i
    cases hs with
    | build min max flags hpc =>
      have hnew := h.fresh.nextGroup_eq_none
      refine ⟨le_refl _, ?_, ?_⟩
      . intro g hg
        simp only [Sys.setCall, Sys.setGroup, update_apply] at hg
        split at hg
        . cases hg
        . exact hg
      . intro g tg hg
        refine ⟨tg, ?_, rfl, le_refl _⟩
        simp only [Sys.setCall, Sys.setGroup]
        rw [update_of_ne, hg]
        rintro rfl
        rw [hnew] at hg
        cases hg
    | spawn g n max tg hpc hg | endSpawn g max tg hpc hg => exact eases_setGroup hg rfl id rfl (le_refl _) rfl
    | queue g w tg pc hpc hg | reserve g w tg t rest hpc hg =>
      have hlength := congrArg List.length (congrFun haccepted g)
      simp at hlength
    | chargeFirst g max hpc | charge g max hpc =>
      exact eases_of_eq rfl (TPool.addGroupCharge_groupsWaiting ..).le
    | unlink g hpc | close g by_ tg hpc | wake g ts by_ tg t rest tt hpc | endWake g ts by_ tg hpc
    | join g t ts by_ hpc | endJoinGroup g hpc | endJoinPool g tg hpc | refund g tg hpc | killDead hpc
    | kill hpc | readManager m hpc | joinManager m hpc | relock hpc | popGroup g rest hpc | freePool hpc =>
      rw [hpc] at hkeeps
      cases hkeeps
    | waitStart before hpc | skip g gs before tg hpc | flag g gs before tg hpc | waitReturn before hpc =>
      rw [hpc] at hwaits
      cases hwaits
    | block before hpc | endWait before hpc =>
      rcases hpc with hpc | ⟨hpc, _⟩ <;> rw [hpc] at hwaits <;> cases hwaits
    | _ => exact eases_of_eq rfl (le_refl _)
  | worker t s' hs =>
    cases hs with
    | fetch tt tg w rest ht hpc hg => exact eases_setGroup hg rfl id rfl (le_refl _) rfl
    | goIdle tt tg wait ht hpc hg =>
      refine eases_setGroup hg rfl ?_ rfl ?_ rfl
      . dsimp only
        rw [Bool.and_eq_true]
        exact And.left
      . dsimp only
        rw [LL.listAppend_items, LL.itemRemove_items, List.length_append, List.length_singleton]
        have hle := List.le_length_erase (a := t) (l := tg.idleThrds.items)
        omega
    | leave tt tg ht hpc hg => exact absurd hpc (h.ne_leave ht hg)
    | decr tt ht hpc => exact eases_of_eq rfl (Int.sub_le_self _ (by decide))
    | _ => exact eases_of_eq rfl (le_refl _)
  | manager m timedOut s' hs =>
    cases hs with
    | look g gs tg hpc hg | endSpawn g gs tg hpc hg | spawnTask g n gs tg w rest hpc hg
    | spawnNone g n gs tg hpc hg =>
      exact eases_setGroup hg rfl id rfl (le_refl _) rfl
    | _ => exact eases_of_eq rfl (le_refl _)

theorem moves (h : Alone k s) (hm : Moves s s') : Alone k s' := by
  obtain ⟨a, ha, hs⟩ := hm.step
  have hstep := step_of_step hs
  refine ⟨h.toLiveInv.drives hm.toDrives, ⟨?_, ?_⟩, ?_, ?_, ?_⟩
  . exact closed_step h.toFlagInv h.fresh hstep
  . apply active_step h.toGroupInv h.toFlagInv _ _ hstep
    . exact fun g tg hg _ => h.opened hg
    . exact fun i g gs before tg _ hg => h.opened hg
  . rw [hm.calls k (waiting_of_blocked h.blocked)]
    exact h.blocked
  . intro i hi
    exact h.others i ((kind_of_own ha hstep i).1 hi)
  . intro i
    rw [← Bool.not_eq_true]
    intro hi
    have hkeeps := h.keeps i
    rw [(kind_of_own ha hstep i).2 hi] at hkeeps
    cases hkeeps

theorem reached (h : Alone k s) (hr : Reaches Moves P s)
    : Reaches Moves (fun s' => Alone k s' ∧ Onward s s' ∧ Eases s s' ∧ P s') s := by
  obtain ⟨s', hs, hP⟩ := hr
  have hall : Alone k s' ∧ Eases s s' := by
    refine invariant (I := fun s' => Alone k s' ∧ Eases s s') ?_ ⟨h, Std.Refl.refl s⟩ hs
    rintro b c ⟨hb, heases⟩ hm
    exact ⟨hb.moves hm, IsTrans.trans s b c heases (hb.eases hm)⟩
  exact ⟨s', hs, hall.1, frame (fun _ _ hm => hm.onward) hs, hall.2, hP⟩

theorem falls (h : Alone k s) (ht : s.thrds t = some tt) (hpc : tt.pc = .grp) (hg : s.groups tt.tg = some tg)
    (hfree : tg.mutexGrp = none)
    : Reaches Moves (fun s' => s'.busy tt.tg < s.busy tt.tg) s := by
  cases hitems : tg.q.work.items with
  | cons w rest =>
    have hlength := h.length_accepted tt.tg
    rw [hg, queueOf, hitems, List.length_cons] at hlength
    refine (h.reached (h.fetch ht hpc hg hfree hitems)).imp ?_
    rintro s' ⟨_, honward, heases, hassigned⟩
    have hslack := heases.slack hg
    rw [Sys.busy, Sys.busy, honward.accepted]
    omega
  | nil =>
    have hok := h.threads.ok t tt ht
    rw [TThread.Ok, hpc] at hok
    have hsound := h.drain.sound tt.tg tg hg
    have hnot := h.threads.not_mem_idle ht hok.1 hg
    have hactive := List.length_pos_of_mem (h.threads.active t tt tg ht hok.1 hg)
    have hmembers := h.length_members_le hg
    rw [TGroup.members, List.length_append] at hmembers
    have hs : ∃ s', s.step (.worker t) = some s' ∧ s'.accepted = s.accepted ∧
        s'.busy tt.tg < s.busy tt.tg := by
      simp only [Sys.step, Sys.workerStep, ht, hpc, hg, hfree, Option.isNone_none, if_true, Sys.workerSection,
        hsound.hardKill, h.clean tt.tg tg hg, Bool.false_eq_true, if_false,
        Worker.qFetch_of_nil hsound.coherent hitems, h.softKill_eq_false hg, hok.1, Option.some.injEq,
        exists_eq_left']
      refine ⟨rfl, ?_⟩
      simp only [Sys.busy, Sys.setThrd, Sys.setGroup, TGroup.itemRemove, update_self, hg, slackOf,
        LL.listAppend_items, LL.itemRemove_items, List.erase_of_not_mem hnot, List.length_append,
        List.length_singleton]
      omega
    obtain ⟨s', hs, haccepted, hlt⟩ := hs
    exact .of_step (moves_worker hs haccepted) (.of_self hlt)

/--
A group with the flag has a thread that is going to look for a work.
-/
theorem eased (h : Alone k s) (hflag : flagOf (s.groups g) = true)
    : Reaches Moves (fun s' => s'.busy g < s.busy g) s := by
  cases hg : s.groups g with
  | none =>
    rw [hg] at hflag
    cases hflag
  | some tg =>
    rw [hg, flagOf] at hflag
    obtain ⟨t, hactive⟩ := List.exists_mem_of_ne_nil _ (h.active g tg hg hflag)
    have hunlisted : t ∉ tg.idleThrds.items := fun hidle =>
      List.disjoint_of_nodup_append (h.lists.nodup g tg hg) hidle hactive
    have hmem : t ∈ tg.members := List.mem_append_right _ hactive
    rw [h.lists.members g tg t hg, Option.map_eq_some_iff] at hmem
    obtain ⟨tt, ht, rfl⟩ := hmem
    refine (h.reached (h.looks_of_unlisted ht (h.ne_leave ht hg) hg hunlisted)).bind ?_
    rintro s₁ _ ⟨h₁, honward₁, heases₁, tt₁, ht₁, htg₁, hpc₁⟩
    obtain ⟨tg₁, hg₁, _⟩ := heases₁.idle tt.tg tg hg
    refine (h₁.reached (Under.moves (h₁.toLiveInv.reached (h₁.unlock_group hg₁)))).bind ?_
    rintro s₂ _ ⟨h₂, honward₂, heases₂, _, hspares, tg₂, hg₂, hfree⟩
    have hok := h₁.threads.ok t tt₁ ht₁
    rw [TThread.Ok, hpc₁] at hok
    rw [← htg₁] at hg₂
    refine (h₂.falls (hspares t tt₁ ht₁ hok.1) hpc₁ hg₂ hfree).imp ?_
    intro s₃ hlt
    rw [htg₁] at hlt
    calc s₃.busy tt.tg
      _ < s₂.busy tt.tg := hlt
      _ ≤ s₁.busy tt.tg := busy_le_of_onward honward₂ heases₂ hg₁
      _ ≤ s.busy tt.tg := busy_le_of_onward honward₁ heases₁ hg

theorem cleared (h : Alone k s) (g : Nat) : Reaches Moves (fun s' => flagOf (s'.groups g) = false) s := by
  refine Reaches.of_measure (I := Alone k) (fun s => s.busy g) ?_ s h
  intro s h
  cases hflag : flagOf (s.groups g) with
  | false => exact .of_self (.inl hflag)
  | true => exact (h.reached (h.eased hflag)).imp fun _ hs => .inr ⟨hs.1, hs.2.2.2⟩

end Alone

def Sys.pending (s : Sys) : Nat := s.pool.groupsWaiting.toNat + s.flagged.card

namespace Alone

variable {s s' : Sys} {k g t : Nat}

theorem left_eq_none (h : Alone k s) : s.left = none := by
  unfold Sys.left
  split
  . next i _ =>
    cases hleft : (s.calls i).left with
    | none => rfl
    | some gs =>
      obtain ⟨hwaits, hblocked⟩ := waits_of_left hleft
      rw [h.others i hwaits, h.blocked] at hblocked
      cases hblocked
  . rfl

theorem flagged_subset (h : Alone k s) (h' : Alone k s') (heases : Eases s s') : s'.flagged ⊆ s.flagged := by
  intro g hg
  rw [mem_flagged h'.fresh] at hg
  rw [mem_flagged h.fresh]
  exact heases.flag g hg

/--
A group with the flag clears it. A thread that has cleared one decrements the counter.
-/
theorem nearer (h : Alone k s) (hcount : 0 < s.pool.groupsWaiting)
    (hsome : s.flagged.Nonempty ∨ s.due.Nonempty)
    : Reaches Moves (fun s' => s'.pending < s.pending) s := by
  rcases hsome with ⟨g, hg⟩ | ⟨t, ht⟩
  . refine (h.reached (h.cleared g)).imp ?_
    rintro s' ⟨h', _, heases, hflag⟩
    have hlt : s'.flagged.card < s.flagged.card := by
      apply Finset.card_lt_card
      rw [Finset.ssubset_iff_of_subset (h.flagged_subset h' heases)]
      refine ⟨g, hg, ?_⟩
      rw [mem_flagged h'.fresh, hflag]
      exact Bool.false_ne_true
    have hle := heases.count
    rw [Sys.pending, Sys.pending]
    omega
  . rw [mem_due h.fresh] at ht
    cases htt : s.thrds t with
    | none =>
      rw [htt] at ht
      cases ht
    | some tt =>
      rw [htt, settles, beq_iff_eq] at ht
      refine (h.reached (Under.moves (h.toLiveInv.reached h.unlock_pool))).bind ?_
      rintro s₁ _ ⟨h₁, _, heases, _, hyields, hfree⟩
      have hs : ∃ s', s₁.step (.worker t) = some s' ∧ s'.accepted = s₁.accepted ∧
          s'.flagged = s₁.flagged ∧ s'.pool.groupsWaiting = s₁.pool.groupsWaiting - 1 := by
        simp only [Sys.step, Sys.workerStep, hyields.thrds t tt htt, ht, TPool.unlocked, hfree, h₁.unfreed,
          Option.isNone_none, Bool.not_false, Bool.and_self, if_true, Option.some.injEq, exists_eq_left']
        exact ⟨rfl, rfl, rfl⟩
      obtain ⟨s', hs, haccepted, hflagged, hless⟩ := hs
      refine .of_step (moves_worker hs haccepted) (.of_self ?_)
      have hcard := Finset.card_le_card (h.flagged_subset h₁ heases)
      have hle := heases.count
      rw [Sys.pending, Sys.pending, hflagged, hless]
      omega

end Alone

/--
A step of a thread that is there. Who sleeps in `wait_pool` wakes up after a broadcast only.
-/
def Watch.own (x : Watch) : Action → Prop
  | .call _ => False
  | .caller k => (x.sys.calls k).blocked = true → x.woken k = true
  | .worker _ | .manager _ _ => True

structure Goes (x y : Watch) : Prop where
  step : ∃ a, x.own a ∧ x.step a = some y
  accepted : y.sys.accepted = x.sys.accepted

structure WatchInv (x : Watch) : Prop where
  live : LiveInv x.sys
  flag : FlagInv x.sys
  account : AccountInv x
  covered : Tally.Covered x.tally

theorem Watch.sys_step {x y : Watch} {a : Action} (hs : x.step a = some y) : x.sys.step a = some y.sys := by
  cases hsys : x.sys.step a with
  | none => simp [Watch.step, hsys] at hs
  | some s' =>
    obtain ⟨y', hy, rfl⟩ := Watch.exists_step hsys
    cases hs.symm.trans hy
    rfl

theorem goes_of_drives {x : Watch} {s' : Sys} (h : Drives x.sys s') : ∃ y, Goes x y ∧ y.sys = s' := by
  obtain ⟨a, ha, hs⟩ := h.step
  obtain ⟨y, hy, rfl⟩ := Watch.exists_step hs
  refine ⟨y, ⟨⟨a, ?_, hy⟩, h.accepted⟩, rfl⟩
  cases a with
  | caller k =>
    intro hblocked
    have ha : (x.sys.calls k).blocked = false := ha
    rw [ha] at hblocked
    cases hblocked
  | _ => exact ha

namespace WatchInv

variable {x y : Watch} {a : Action} {k g : Nat}

theorem init {maxThrds : Nat} {tp : TPool} (h : TPool.initPool maxThrds = some tp) : WatchInv (.init tp) := by
  refine ⟨.init h, ⟨by simp [Watch.init, Sys.init], by simp [Watch.init, Sys.init]⟩, .init h, ?_⟩
  rw [Watch.tally_init h]
  constructor <;> simp [Tally.State.owed]

theorem opened {tg : TGroup} (h : WatchInv x) (hk : (x.sys.calls k).waits = true)
    (hg : x.sys.groups g = some tg)
    : tg.groupClose = false :=
  h.flag.opened (fun i => h.account.apart.apart k i hk) hg

theorem waits_of_flag (h : WatchInv x) (hflag : flagOf (x.sys.groups g) = true)
    : ∃ k, (x.sys.calls k).waits = true := by
  by_contra hnone
  rw [not_exists] at hnone
  have hquiet := h.account.apart.quiet h.account.exact fun k =>
    WaitInv.remaining_of_not_waits (Bool.eq_false_of_not_eq_true (hnone k))
  rw [← mem_flagged h.live.fresh, hquiet.2.1] at hflag
  exact Finset.notMem_empty g hflag

theorem unhurt (h : WatchInv x) (a : Action) : x.Unhurt a := by
  cases a with
  | caller k =>
    have hundisturbed := h.account.apart.undisturbed h.account.exact h.live.fresh h.account.linked (.caller k)
    refine ⟨?_, ?_, ?_⟩
    . intro hstarts
      have hcoherent := (hundisturbed.1 hstarts).1
      rw [LL.Coherent] at hcoherent
      omega
    . intro hleft _
      rw [Finset.eq_empty_iff_forall_notMem]
      intro i hi
      rw [mem_asleep h.live.fresh] at hi
      obtain ⟨hwaits, hblocked⟩ := waits_of_left hleft
      rw [← h.account.apart.one i k (waits_of_blocked hi.1) hwaits, hi.1] at hblocked
      cases hblocked
    . intro g hg hflag
      rw [hundisturbed.2 (destroys_of_unlinks hg) g] at hflag
      cases hflag
  | _ => trivial

theorem step (h : WatchInv x) (ha : Apart x.sys a) (hdestroy : a ≠ .call .destroyPool)
    (hs : x.step a = some y)
    : WatchInv y := by
  obtain ⟨⟨e, htally, hsafe, _⟩, hstep⟩ := Simulates.step h.live.toPoolInv hs
  refine ⟨h.live.step hdestroy (Watch.sys_step hs), ⟨?_, ?_⟩, h.account.step ha hs, ?_⟩
  . exact closed_step h.flag h.live.fresh hstep
  . apply active_step h.live.toGroupInv h.flag _ _ hstep
    . intro g tg hg hwait
      obtain ⟨k, hk⟩ := h.waits_of_flag (g := g) (by rw [hg]; exact hwait)
      exact h.opened hk hg
    . intro k g gs before tg hpc hg
      exact h.opened (k := k) (by rw [hpc]; rfl) hg
  . exact h.covered.step h.account.listed (hsafe (h.unhurt a)) htally

theorem goes (h : WatchInv x) (hg : Goes x y) : WatchInv y := by
  obtain ⟨a, ha, hs⟩ := hg.step
  cases a with
  | call req => exact ha.elim
  | _ =>
    refine h.step ?_ (by simp) hs
    trivial

theorem lift {P : Sys → Prop} (h : WatchInv x) (hr : Reaches Moves P x.sys)
    : Reaches Goes (fun y => WatchInv y ∧ P y.sys) x := by
  refine Reaches.keep (fun _ _ h hg => h.goes hg) h (Reaches.lift (fun _ _ hm => ?_) x hr)
  exact goes_of_drives hm.toDrives

theorem alone (h : WatchInv x) (hk : (x.sys.calls k).blocked = true) : Alone k x.sys := by
  have hwaits := waits_of_blocked hk
  refine ⟨h.live, h.flag, hk, ?_, ?_⟩
  . exact fun i hi => h.account.apart.one i k hi hwaits
  . exact fun i => h.account.apart.apart k i hwaits

theorem awaited (h : WatchInv x) (hk : (x.sys.calls k).blocked = true) (hcount : 0 < x.sys.pool.groupsWaiting)
    : x.sys.flagged.Nonempty ∨ x.sys.due.Nonempty := by
  have howed : x.sys.pool.groupsWaiting = x.tally.owed := h.account.exact.count
  have hlinked : x.sys.flagged ⊆ x.tally.linked := h.account.exact.linked
  rw [Tally.owed_of_none (h.alone hk).left_eq_none] at howed
  simp only [Watch.tally] at howed hlinked
  rw [Finset.inter_eq_left.mpr hlinked] at howed
  rw [← Finset.card_pos, ← Finset.card_pos]
  omega

theorem counted (h : WatchInv x) (hk : (x.sys.calls k).blocked = true)
    : Reaches Goes
        (fun y => WatchInv y ∧ (y.sys.calls k).blocked = true ∧ y.sys.pool.groupsWaiting ≤ 0) x := by
  refine Reaches.of_measure (I := fun x => WatchInv x ∧ (x.sys.calls k).blocked = true)
    (fun x => x.sys.pending) ?_ x ⟨h, hk⟩
  rintro x ⟨h, hk⟩
  by_cases hcount : x.sys.pool.groupsWaiting ≤ 0
  . exact .of_self (.inl ⟨h, hk, hcount⟩)
  . have hpos := Int.not_le.mp hcount
    have halone := h.alone hk
    refine (h.lift (halone.reached (halone.nearer hpos (h.awaited hk hpos)))).imp ?_
    rintro y ⟨hy, halone', _, _, hlt⟩
    exact .inr ⟨⟨hy, halone'.blocked⟩, hlt⟩

theorem woken (h : WatchInv x) (hk : (x.sys.calls k).blocked = true) (hcount : x.sys.pool.groupsWaiting ≤ 0)
    : x.woken k = true := by
  rw [← Bool.not_eq_false]
  intro hwoken
  have hpos : 0 < x.sys.pool.groupsWaiting := by
    apply h.covered.positive (h.alone hk).left_eq_none
    refine ⟨k, ?_⟩
    rw [Watch.tally, mem_asleep h.live.fresh]
    exact ⟨hk, hwoken⟩
  omega

theorem of_caller {P : Watch → Prop} {s' : Sys} (h : WatchInv x) (hs : x.sys.step (.caller k) = some s')
    (haccepted : s'.accepted = x.sys.accepted) (hown : x.own (.caller k))
    (hnext : ∀ y, WatchInv y → y.sys = s' → Reaches Goes P y)
    : Reaches Goes P x := by
  obtain ⟨y, hy, rfl⟩ := Watch.exists_step hs
  have hg : Goes x y := ⟨⟨.caller k, hown, hy⟩, haccepted⟩
  exact .of_step hg (hnext y (h.goes hg) rfl)

theorem done {before : List Nat} (h : WatchInv x) (hk : x.sys.calls k = .waitDone before)
    : Reaches Goes (fun y => y.sys.calls k = .returned) x := by
  have hs : x.sys.step (.caller k) = some (x.sys.setCall k .returned) := by
    simp only [Sys.step, Sys.callStep, hk]
  refine h.of_caller hs rfl (by simp [Watch.own, hk, CallPc.blocked]) ?_
  intro y _ hsys
  apply Reaches.of_self
  rw [hsys]
  exact update_self _ _ _

theorem wakes {before : List Nat} (h : WatchInv x) (hk : x.sys.calls k = .waitBlock before)
    : Reaches Goes (fun y => y.sys.calls k = .returned) x := by
  refine (h.counted (k := k) (by rw [hk]; rfl)).bind ?_
  rintro x₁ _ ⟨h₁, hblocked, hcount⟩
  have halone := h₁.alone hblocked
  refine (h₁.lift (halone.reached (Under.moves h₁.live.unlock_pool))).bind ?_
  rintro x₂ _ ⟨h₂, halone₂, _, heases, hfree⟩
  have hcount₂ := heases.count.trans hcount
  cases hpc : x₂.sys.calls k with
  | waitBlock before₂ =>
    have hs : x₂.sys.step (.caller k) = some
        ((x₂.sys.setPool { x₂.sys.pool with mutexPool := none, poolWaiting := false }).setCall k
          (.waitDone before₂)) := by
      simp only [Sys.step, Sys.callStep, hpc, TPool.unlocked, hfree, h₂.live.unfreed, Option.isNone_none,
        Bool.not_false, Bool.and_self, if_true, Sys.waitTest]
      rw [if_neg (Int.not_lt.mpr hcount₂)]
    refine h₂.of_caller hs rfl (fun _ => h₂.woken halone₂.blocked hcount₂) ?_
    intro y hy hsys
    have hdone : y.sys.calls k = .waitDone before₂ := by
      rw [hsys]
      exact update_self _ _ _
    exact hy.done hdone
  | _ =>
    have hblocked₂ := halone₂.blocked
    rw [hpc] at hblocked₂
    cases hblocked₂

theorem looks {gs before : List Nat} (h : WatchInv x) (hk : x.sys.calls k = .waitLook gs before)
    : Reaches Goes (fun y => y.sys.calls k = .returned) x := by
  refine (h.lift (Under.moves (LiveInv.looked gs x.sys h.live hk))).bind ?_
  rintro y _ ⟨hy, _, hblock | hdone⟩
  . exact hy.wakes hblock
  . exact hy.done hdone

theorem starts {before : List Nat} (h : WatchInv x) (hk : x.sys.calls k = .waitStart before)
    : Reaches Goes (fun y => y.sys.calls k = .returned) x := by
  refine (h.lift (h.live.onward (Under.moves h.live.unlock_pool))).bind ?_
  rintro x₁ _ ⟨h₁, _, honward, hfree⟩
  have hk₁ := honward.calls_eq hk rfl
  have hs : x₁.sys.step (.caller k) = some
      ((x₁.sys.setPool
        {
          x₁.sys.pool with
          mutexPool := some (.call k)
          groupsWaiting := x₁.sys.pool.groups.len
        }).setCall k (.waitLook x₁.sys.pool.groups.items before)) := by
    simp only [Sys.step, Sys.callStep, hk₁, TPool.unlocked, hfree, h₁.live.unfreed, Option.isNone_none,
      Bool.not_false, Bool.and_self, if_true]
  refine h₁.of_caller hs rfl (by simp [Watch.own, hk₁, CallPc.blocked]) ?_
  intro y hy hsys
  have hlook : y.sys.calls k = .waitLook x₁.sys.pool.groups.items before := by
    rw [hsys]
    exact update_self _ _ _
  exact hy.looks hlook

theorem returns (h : WatchInv x) (hk : (x.sys.calls k).waits = true)
    : Reaches Goes (fun y => y.sys.calls k = .returned) x := by
  cases hpc : x.sys.calls k with
  | waitStart before => exact h.starts hpc
  | waitLook gs before => exact h.looks hpc
  | waitBlock before => exact h.wakes hpc
  | waitDone before => exact h.done hpc
  | _ =>
    rw [hpc] at hk
    cases hk

end WatchInv

/--
The call of `wait_pool` returns, if the threads that are there are scheduled as is told.
-/
def Watch.Returns (x : Watch) (k : Nat) : Prop :=
  ∃ as y, Lts.Along Watch.step Watch.own x as ∧ Lts.run Watch.step x as = some y ∧
    y.sys.accepted = x.sys.accepted ∧ y.sys.calls k = .returned

theorem waitReturns_of_run {maxThrds : Nat} {tp : TPool} {as : List Action} {x : Watch}
    (hinit : TPool.initPool maxThrds = some tp)
    (halong : Lts.Along Watch.step (fun x a => Apart x.sys a ∧ a ≠ .call .destroyPool) (.init tp) as)
    (hrun : Lts.run Watch.step (.init tp) as = some x)
    : ∀ k, (x.sys.calls k).waits = true → x.Returns k := by
  intro k hk
  have h : WatchInv x :=
    Lts.invariant_along (fun _ _ _ h ha hs => h.step ha.1 ha.2 hs) (.init hinit) halong hrun
  obtain ⟨y, hgoes, hreturned⟩ := h.returns hk
  have haccepted : y.sys.accepted = x.sys.accepted :=
    invariant (I := fun y => y.sys.accepted = x.sys.accepted) (fun _ _ h hg => hg.accepted.trans h) rfl hgoes
  obtain ⟨bs, hbs, hy⟩ := exists_run (Relation.ReflTransGen.mono (fun _ _ hg => hg.step) _ _ hgoes)
  exact ⟨bs, y, hbs, hy, haccepted, hreturned⟩

theorem waitReturns_queued_work
    : ∃ tp x, TPool.initPool 4 = some tp ∧
        Lts.run Watch.step (.init tp) (.call (.addGroup 1 1 0) :: List.replicate 5 (.caller 0) ++
          .call (.doWork 0 7) :: List.replicate 3 (.caller 1) ++
          .call .waitPool :: List.replicate 3 (.caller 2)) = some x ∧
        x.sys.calls 2 = .waitBlock [7] ∧ x.woken 2 = false ∧ x.sys.finished = [] ∧ x.Returns 2 := by
  refine ⟨_, _, rfl, rfl, rfl, rfl, rfl, ?_⟩
  exact @waitReturns_of_run 4 _ (.call (.addGroup 1 1 0) :: List.replicate 5 (.caller 0) ++
    .call (.doWork 0 7) :: List.replicate 3 (.caller 1) ++
    .call .waitPool :: List.replicate 3 (.caller 2)) _ rfl (by decide) rfl 2 rfl

end Pool
