import Mathlib.Algebra.Order.BigOperators.Group.Finset
import TrashDb.Pool.Lemmas.Groups

/-!
This module contains how the counter `len` of the list of groups compares with the groups that are
linked. The function `destroy_group` unlinks its group in one section and decrements the counter in
another one, after all the threads of the group have been joined. The counter is too high by the number
of calls in between.
-/

namespace Pool

open Function

/--
The call of `destroy_group` has unlinked its group and has not decremented the counter yet.
-/
def CallPc.uncounted : CallPc → Nat
  | .close _ .destroyGroup | .wake _ _ .destroyGroup | .join _ _ .destroyGroup | .refund _ => 1
  | _ => 0

def Sys.uncounted (s : Sys) : Nat := ∑ k ∈ Finset.range s.nextCall, (s.calls k).uncounted

/--
The list of groups is what it says it is, in particular its head is not taken for a group.
-/
structure GroupsExact (s : Sys) : Prop where
  len : s.pool.groups.len = s.pool.groups.items.length
  pop : s.pool.groups.listPop.1 ≠ some .head
  first : s.pool.groups.len = 0 ↔ s.pool.groups.items = []

def LinkedInv (s : Sys) : Prop :=
  s.pool.groups.len = s.pool.groups.items.length + s.uncounted

namespace LinkedInv

variable {s s' : Sys} {k : Nat}

theorem init {maxThrds : Nat} {tp : TPool} (h : TPool.initPool maxThrds = some tp)
    : LinkedInv (.init tp) := by
  unfold TPool.initPool at h
  split at h
  . cases h
  . cases h
    rfl

theorem mem_range (hf : Fresh s) (hk : s.calls k ≠ .returned) : k ∈ Finset.range s.nextCall := by
  rw [Finset.mem_range]
  apply hf.calls k hk

theorem uncounted_le (hf : Fresh s) (hk : s.calls k ≠ .returned)
    : (s.calls k).uncounted ≤ s.uncounted := by
  apply Finset.single_le_sum (f := fun i => (s.calls i).uncounted) (fun _ _ => Nat.zero_le _)
    (mem_range hf hk)

theorem transfer {p : CallPc} (h : LinkedInv s) (hf : Fresh s) (hk : s.calls k ≠ .returned)
    (hcalls : s'.calls = update s.calls k p) (hnext : s'.nextCall = s.nextCall)
    (hlen : s'.pool.groups.len + s.pool.groups.items.length + (s.calls k).uncounted =
      s.pool.groups.len + s'.pool.groups.items.length + p.uncounted)
    : LinkedInv s' := by
  have hsum := Finset.sum_update_add (mem_range hf hk) s.calls p CallPc.uncounted
  have hsum : s'.uncounted + (s.calls k).uncounted = s.uncounted + p.uncounted := by
    unfold Sys.uncounted
    rw [hcalls, hnext]
    exact hsum
  unfold LinkedInv at *
  omega

theorem setCall {p : CallPc} (h : LinkedInv s) (hf : Fresh s) (hk : s.calls k ≠ .returned)
    (hcalls : s'.calls = update s.calls k p) (hnext : s'.nextCall = s.nextCall)
    (hgroups : s'.pool.groups = s.pool.groups) (hp : p.uncounted = (s.calls k).uncounted)
    : LinkedInv s' := by
  refine h.transfer hf hk hcalls hnext ?_
  rw [hgroups, hp]

theorem start {req : Req} (h : LinkedInv s) (hs : StartStep s req s') : LinkedInv s' := by
  have hnew : ∀ p : CallPc, p.uncounted = 0 → (s.startCall p).uncounted = s.uncounted := by
    intro p hp
    unfold Sys.uncounted
    simp only [Sys.startCall, Sys.setCall]
    rw [Finset.sum_range_succ_update _ _ _ CallPc.uncounted, hp, Nat.add_zero]
  unfold LinkedInv at *
  cases hs with
  | doWork g w =>
    have huncounted : { s.startCall (.offer g w) with given := w :: s.given }.uncounted = s.uncounted :=
      hnew _ rfl
    rw [huncounted]
    exact h
  | _ =>
    rw [hnew _ rfl]
    exact h

theorem link {g max m : Nat} (h : LinkedInv s) (hf : Fresh s) (hpc : s.calls k = .addCharge g max)
    (hcalls : s'.calls = update s.calls k .returned) (hnext : s'.nextCall = s.nextCall)
    (hpool : s'.pool = s.pool.addGroupCharge g max m)
    : LinkedInv s' := by
  refine h.transfer hf (by rw [hpc]; nofun) hcalls hnext ?_
  rw [hpc, hpool, TPool.addGroupCharge_groups, LL.listAppend_len, LL.listAppend_items,
    List.length_append, List.length_singleton]
  simp only [CallPc.uncounted]
  omega

theorem caller (h : LinkedInv s) (hf : Fresh s) (hs : CallStep s k s') : LinkedInv s' := by
  have hk := hs.ne_returned
  have hle := uncounted_le hf hk
  have hlinked : s.pool.groups.len = s.pool.groups.items.length + s.uncounted := h
  cases hs with
  | chargeFirst g max hpc => exact h.link hf hpc rfl rfl rfl
  | charge g max hpc => exact h.link hf hpc rfl rfl rfl
  | unlink g hpc hlock hg =>
    have hlength := List.length_erase_add_one hg
    refine h.transfer hf hk rfl rfl ?_
    rw [hpc]
    simp only [Sys.setCall, Sys.setPool, LL.itemRemove_len, LL.itemRemove_items, CallPc.uncounted]
    omega
  | close g by_ tg hpc =>
    refine h.setCall hf hk rfl rfl rfl ?_
    rw [hpc]
    cases by_ <;> rfl
  | wake g ts by_ tg t rest tt hpc => exact h
  | endWake g ts by_ tg hpc =>
    refine h.setCall hf hk rfl rfl rfl ?_
    rw [hpc]
    cases by_ <;> rfl
  | join g t ts by_ hpc =>
    refine h.setCall hf hk rfl rfl rfl ?_
    rw [hpc]
    cases by_ <;> rfl
  | refund g tg hpc =>
    refine h.transfer hf hk rfl rfl ?_
    rw [hpc] at hle ⊢
    simp only [Sys.setCall, Sys.setPool, Sys.freeGroup, TPool.refund_groups, CallPc.uncounted] at hle ⊢
    omega
  | popGroup g rest hpc hlen hitems =>
    refine h.transfer hf hk rfl rfl ?_
    rw [hpc]
    simp only [Sys.setCall, Sys.setPool, hitems, List.length_cons, CallPc.uncounted]
    omega
  | queue g w tg pc hpc hg hlock hclose hidle hfull hnext =>
    refine h.setCall hf hk rfl rfl rfl ?_
    rw [hpc]
    rcases hnext with rfl | rfl <;> rfl
  | full g w tg pc hpc hg hlock hclose hidle hfull hnext =>
    refine h.setCall hf hk rfl rfl rfl ?_
    rw [hpc]
    rcases hnext with rfl | rfl <;> rfl
  | block before hpc =>
    refine h.setCall hf hk rfl rfl rfl ?_
    rcases hpc with hpc | hpc <;> simp [hpc, CallPc.uncounted]
  | endWait before hpc =>
    refine h.setCall hf hk rfl rfl rfl ?_
    rcases hpc with hpc | hpc <;> simp [hpc, CallPc.uncounted]
  | _ =>
    refine h.setCall hf hk rfl rfl rfl ?_
    simp [*, CallPc.uncounted]

theorem step {a : Action} (h : LinkedInv s) (hf : Fresh s) (hs : Step s a s') : LinkedInv s' := by
  cases hs with
  | start req s' hs => apply h.start hs
  | caller k s' hs => apply h.caller hf hs
  | worker t s' hs => cases hs <;> exact h
  | manager m timedOut s' hs => cases hs <;> exact h

theorem groupsExact_iff (h : LinkedInv s) (hf : Fresh s)
    : GroupsExact s ↔ ∀ k, (s.calls k).uncounted = 0 := by
  have hsum : s.uncounted = 0 ↔ ∀ k, (s.calls k).uncounted = 0 := by
    rw [Sys.uncounted, Finset.sum_eq_zero_iff]
    refine ⟨?_, fun hall k _ => hall k⟩
    intro hall k
    by_cases hk : s.calls k = .returned
    . rw [hk]
      rfl
    . apply hall k
      rw [Finset.mem_range]
      apply hf.calls k hk
  have hlen : s.pool.groups.len = s.pool.groups.items.length + s.uncounted := h
  rw [← hsum]
  constructor
  . intro hexact
    have := hexact.len
    omega
  . intro hzero
    refine ⟨by omega, ?_, ?_⟩
    . intro hpop
      unfold LL.listPop LL.emptyList at hpop
      split at hpop
      . cases hpop
      . next hempty =>
        split at hpop
        . next hitems =>
          rw [hitems] at hlen
          simp only [beq_iff_eq] at hempty
          simp only [List.length_nil] at hlen
          omega
        . cases hpop
    . rw [← List.length_eq_zero_iff]
      omega

end LinkedInv

theorem groupsExact_iff_uncounted {maxThrds : Nat} {tp : TPool} {as : List Action} {s : Sys}
    (hinit : TPool.initPool maxThrds = some tp) (hrun : run (.init tp) as = some s)
    : GroupsExact s ↔ ∀ k, (s.calls k).uncounted = 0 := by
  have hinv : Fresh s ∧ LinkedInv s := by
    refine Lts.invariant_run (I := fun s => Fresh s ∧ LinkedInv s) ?_ ?_ hrun
    . intro s a s' ⟨hf, h⟩ hs
      have hs := step_of_step hs
      exact ⟨hf.step hs, h.step hf hs⟩
    . exact ⟨Fresh.init tp, LinkedInv.init hinit⟩
  apply hinv.2.groupsExact_iff hinv.1

def addThenDestroy : List Action :=
  .call (.addGroup 1 3 0) :: List.replicate 5 (.caller 0) ++ .call (.destroyGroup 0) :: List.replicate 3 (.caller 1) ++
    List.replicate 3 (.worker 0) ++ List.replicate 3 (.caller 1)

theorem groupsExact_addThenDestroy
    : ∃ tp s, TPool.initPool 4 = some tp ∧ run (.init tp) addThenDestroy = some s ∧ s.pool.groups = .initList ∧
        GroupsExact s := by
  refine ⟨_, _, rfl, rfl, rfl, ?_⟩
  refine (@groupsExact_iff_uncounted 4 _ addThenDestroy _ rfl rfl).mpr fun k => ?_
  match k with
  | 0 => rfl
  | 1 => rfl
  | k + 2 => rfl

/--
The group has been unlinked and its threads have not been joined.
-/
theorem not_groupsExact_unlinked_group
    : ¬ ∀ maxThrds tp as s, TPool.initPool maxThrds = some tp → run (.init tp) as = some s →
        s.pool.mutexPool = none → GroupsExact s := by
  intro h
  have hs := h 4 _ (.call (.addGroup 1 3 0) :: List.replicate 5 (.caller 0) ++
    [.call (.destroyGroup 0), .caller 1]) _ rfl rfl rfl
  exact absurd hs.len (by decide)

end Pool
