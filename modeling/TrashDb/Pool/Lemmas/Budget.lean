import TrashDb.Pool.Lemmas.Groups

/-!
This module contains the bounds on `totalThrds`. The budget of a pool is checked in one section of
`add_group` and charged in a later one, and it is charged with `max` where `destroy_group` refunds
`thrdMax`. So there are two conditions: what is checked must still be there when it is charged, and
for exact accounting a fixed group must be as large as what it is charged for.
-/

namespace Pool

open Function Word

/--
What the calls of `add_group` between their two sections are going to be charged.
-/
def Sys.reserved (s : Sys) : Nat := ∑ k ∈ Finset.range s.nextCall, (s.calls k).phase.reserved

def Sys.sumThrdMax (s : Sys) : Nat :=
  (s.pool.groups.items.map fun g => ((s.groups g).map TGroup.thrdMax).getD 0).sum

structure Grant where
  min : Nat
  max : Nat
  flags : Int

def Sys.grant (s : Sys) (k : Nat) : Option Grant :=
  match s.calls k with
  | .addCheck min max flags =>
    (s.pool.addGroupCheck min max).map fun (min, max) => { min := min, max := max, flags := flags }
  | _ => none

def GrantFits (s : Sys) : Action → Prop
  | .caller k =>
    ∀ grant ∈ s.grant k, s.pool.totalThrds + s.reserved + grant.max ≤ s.pool.thrdMax
  | _ => True

def GrantExact (s : Sys) : Action → Prop
  | .caller k => ∀ grant ∈ s.grant k, grant.flags = groupFixed → grant.min = grant.max
  | _ => True

/--
A caller does not call a function before the last one has returned.
-/
def OneCaller (s : Sys) : Action → Prop
  | .call _ => ∀ k < s.nextCall, s.calls k = .returned
  | _ => True

instance (s : Sys) : (a : Action) → Decidable (GrantFits s a)
  | .caller k => inferInstanceAs (Decidable (∀ grant ∈ s.grant k, _))
  | .call _ | .worker _ | .manager _ _ => isTrue trivial

instance (s : Sys) : (a : Action) → Decidable (GrantExact s a)
  | .caller k => inferInstanceAs (Decidable (∀ grant ∈ s.grant k, _ → _))
  | .call _ | .worker _ | .manager _ _ => isTrue trivial

instance (s : Sys) : (a : Action) → Decidable (OneCaller s a)
  | .call _ => inferInstanceAs (Decidable (∀ k < s.nextCall, _))
  | .caller _ | .worker _ | .manager _ _ => isTrue trivial

structure WithinBudget (s : Sys) : Prop where
  total : s.pool.totalThrds ≤ s.pool.thrdMax
  available : sub32 s.pool.thrdMax s.pool.totalThrds = s.pool.thrdMax - s.pool.totalThrds
  groups : s.sumThrdMax ≤ s.pool.thrdMax

structure Accounted (s : Sys) : Prop where
  total : s.pool.totalThrds = s.sumThrdMax
  empty : s.pool.groups.items = [] →
    s.pool.totalThrds = 0 ∧ sub32 s.pool.thrdMax s.pool.totalThrds = s.pool.thrdMax

structure BudgetInv (R : Nat → Nat → Prop) (s : Sys) : Prop where
  fresh : Fresh s
  owned : Ledger.Owned s.ledger
  budget : Ledger.Budget R s.ledger
  limit : s.pool.thrdMax < 2 ^ 32

theorem addGroupCheck_le {tp : TPool} {min max min' max' : Nat}
    (h : tp.addGroupCheck min max = some (min', max'))
    : min' ≤ max' ∧ max' ≤ sub32 tp.thrdMax tp.totalThrds := by
  unfold TPool.addGroupCheck at h
  simp only [] at h
  generalize hmax : (if sub32 tp.thrdMax tp.totalThrds < max then _ else max) = clamped at h
  generalize (if min = 0 then 1 else min) = raised at h
  split at h
  . cases h
  . cases h
    refine ⟨by omega, ?_⟩
    rw [← hmax]
    split <;> omega

theorem groupSize_le {min max : Nat} {flags : Int} (h : min ≤ max) : groupSize min max flags ≤ max := by
  unfold groupSize
  split
  . exact h
  . exact Nat.le_refl max

theorem groupSize_eq {min max : Nat} {flags : Int} (h : flags = groupFixed → min = max)
    : groupSize min max flags = max := by
  unfold groupSize
  split
  . next hfixed =>
    simp only [Bool.or_eq_true, beq_iff_eq] at hfixed
    rcases hfixed with hfixed | hfixed
    . apply h hfixed
    . exact hfixed
  . rfl

namespace BudgetInv

variable {R : Nat → Nat → Prop} {s s' : Sys}

theorem init {maxThrds : Nat} {tp : TPool} (hmax : maxThrds < 2 ^ 32)
    (h : TPool.initPool maxThrds = some tp) (hzero : R 0 0)
    : BudgetInv R (.init tp) := by
  unfold TPool.initPool at h
  split at h
  . cases h
  . cases h
    refine ⟨Fresh.init _, owned_init _ rfl, ⟨?_, ?_, ?_, ?_⟩, hmax⟩
    . intro k size amount hk
      cases hk
    . intro k r amount hk
      cases hk
    . simp [Sys.ledger, Sys.init, Ledger.State.reserved]
    . simpa [Sys.ledger, Sys.init, Ledger.State.sizes, Ledger.State.refund, LL.initList] using hzero

theorem withinBudget (h : BudgetInv R s) (hle : ∀ {a b}, R a b → a ≤ b) : WithinBudget s := by
  have hfits : s.pool.totalThrds + s.ledger.reserved ≤ s.pool.thrdMax := h.budget.fits
  have hcovered : s.sumThrdMax + s.ledger.refund ≤ s.pool.totalThrds := hle h.budget.covered
  have htotal : s.pool.totalThrds ≤ s.pool.thrdMax := by omega
  refine ⟨htotal, ?_, by omega⟩
  rw [sub32_of_le htotal]

theorem step {a : Action} (h : BudgetInv R s) (hle : ∀ {a b}, R a b → a ≤ b)
    (hadd : ∀ {a b c d}, R a b → R c d → R (a + c) (b + d)) (hsub : ∀ {a b c}, R (a + c) b → R a (b - c))
    (hgrant : (s.ledgerEvent a).Granted R s.ledger) (hs : Step s a s')
    : BudgetInv R s' := by
  have hledger := ledgerStep h.fresh hs
  refine ⟨h.fresh.step hs, h.owned.step hledger, ?_, ?_⟩
  . exact h.budget.step hle hadd hsub h.owned h.limit hgrant hledger
  . have hlimit : s'.pool.thrdMax = s.pool.thrdMax := hledger.limit_eq
    rw [hlimit]
    exact h.limit

end BudgetInv

theorem granted_of_grant {R : Nat → Nat → Prop} {s : Sys} {a : Action}
    (h : ∀ k min max flags min' max', a = .caller k → s.calls k = .addCheck min max flags →
      s.pool.addGroupCheck min max = some (min', max') →
      s.pool.totalThrds + s.reserved + max' ≤ s.pool.thrdMax ∧ R (groupSize min' max' flags) max')
    : (s.ledgerEvent a).Granted R s.ledger := by
  cases a with
  | caller k =>
    simp only [Sys.ledgerEvent]
    split
    . next min max flags hpc =>
      split
      . trivial
      . next min' max' hcheck => exact h k min max flags min' max' rfl hpc hcheck
    . trivial
    . trivial
    . trivial
    . split <;> trivial
    . trivial
    . trivial
    . trivial
  | call req => trivial
  | worker t => trivial
  | manager m timedOut => trivial

theorem grant_eq {s : Sys} {k min max min' max' : Nat} {flags : Int}
    (hpc : s.calls k = .addCheck min max flags)
    (hcheck : s.pool.addGroupCheck min max = some (min', max'))
    : s.grant k = some { min := min', max := max', flags := flags } := by
  simp only [Sys.grant, hpc, hcheck, Option.map_some]

theorem withinBudget_of_grantFits {maxThrds : Nat} {tp : TPool} {as : List Action} {s : Sys}
    (hmax : maxThrds < 2 ^ 32) (hinit : TPool.initPool maxThrds = some tp)
    (hfits : Lts.Along Sys.step GrantFits (.init tp) as) (hrun : run (.init tp) as = some s)
    : WithinBudget s := by
  have hinv : BudgetInv (· ≤ ·) s := by
    refine Lts.invariant_along ?_ (BudgetInv.init hmax hinit (Nat.le_refl 0)) hfits hrun
    intro s a s' h hP hs
    refine h.step id Nat.add_le_add Nat.le_sub_of_add_le ?_ (step_of_step hs)
    apply granted_of_grant
    rintro k min max flags min' max' rfl hpc hcheck
    refine ⟨hP _ (grant_eq hpc hcheck), ?_⟩
    apply groupSize_le (addGroupCheck_le hcheck).1
  exact hinv.withinBudget id

theorem withinBudget_two_groups
    : ∃ tp s, TPool.initPool 4 = some tp ∧
        run (.init tp) (.call (.addGroup 1 2 0) :: List.replicate 5 (.caller 0) ++
          .call (.addGroup 2 2 0) :: List.replicate 6 (.caller 1)) = some s ∧
        WithinBudget s ∧ s.pool.totalThrds = 4 := by
  refine ⟨_, _, rfl, rfl, ?_, rfl⟩
  exact @withinBudget_of_grantFits 4 _ (.call (.addGroup 1 2 0) :: List.replicate 5 (.caller 0) ++
    .call (.addGroup 2 2 0) :: List.replicate 6 (.caller 1)) _ (by decide) rfl (by decide) rfl

theorem not_withinBudget_two_checks
    : ¬ ∀ maxThrds tp as s, maxThrds < 2 ^ 32 → TPool.initPool maxThrds = some tp →
        run (.init tp) as = some s → WithinBudget s := by
  intro h
  have hs := h 2 _
    (.call (.addGroup 2 2 0) :: .call (.addGroup 2 2 0) :: .caller 0 :: .caller 1 ::
      List.replicate 5 (.caller 0) ++ List.replicate 5 (.caller 1)) _ (by decide) rfl rfl
  exact absurd hs.total (by decide)

def Sequential (s : Sys) : Prop := ∀ k k', s.calls k ≠ .returned → s.calls k' ≠ .returned → k = k'

theorem Sequential.step {s s' : Sys} {a : Action} (h : Sequential s) (hf : Fresh s)
    (hone : OneCaller s a) (hs : Step s a s')
    : Sequential s' := by
  cases hs with
  | start req s' hs =>
    have hnew : ∀ i, s'.calls i ≠ .returned → i = s.nextCall := by
      intro i hi
      by_contra hne
      rw [hs.calls_of_ne hne] at hi
      apply hi (hone i (hf.calls i hi))
    intro k k' hk hk'
    rw [hnew k hk, hnew k' hk']
  | caller i s' hs =>
    have hold : ∀ k, s'.calls k ≠ .returned → s.calls k ≠ .returned := by
      intro k hk
      by_cases hki : k = i
      . rw [hki]
        apply hs.ne_returned
      . rw [← hs.calls_of_ne hki]
        exact hk
    intro k k' hk hk'
    apply h k k' (hold k hk) (hold k' hk')
  | worker t s' hs =>
    unfold Sequential
    rw [hs.calls_eq]
    exact h
  | manager m timedOut s' hs =>
    unfold Sequential
    rw [hs.calls_eq]
    exact h

theorem Sequential.reserved_eq_zero {s : Sys} {k min max : Nat} {flags : Int} (h : Sequential s)
    (hpc : s.calls k = .addCheck min max flags)
    : s.reserved = 0 := by
  unfold Sys.reserved
  rw [Finset.sum_eq_zero]
  intro i _
  by_cases hi : s.calls i = .returned
  . rw [hi]
    rfl
  . rw [h i k hi (by rw [hpc]; nofun), hpc]
    rfl

theorem refund_eq_zero {s : Sys} (h : ∀ k, s.calls k = .returned) : s.ledger.refund = 0 := by
  unfold Ledger.State.refund
  rw [Finset.sum_eq_zero]
  intro i _
  simp only [Sys.ledger, h, CallPc.phase, Ledger.Phase.refund]

theorem BudgetInv.accounted {s : Sys} (h : BudgetInv (· = ·) s) (hquiet : ∀ k, s.calls k = .returned)
    : Accounted s := by
  have hcovered : s.sumThrdMax + s.ledger.refund = s.pool.totalThrds := h.budget.covered
  have hrefund := refund_eq_zero hquiet
  have htotal : s.pool.totalThrds = s.sumThrdMax := by omega
  refine ⟨htotal, ?_⟩
  intro hnil
  have hzero : s.pool.totalThrds = 0 := by
    rw [htotal, Sys.sumThrdMax, hnil]
    rfl
  rw [hzero]
  exact ⟨rfl, sub32_of_le (Nat.zero_le _)⟩

theorem accounted_of_grantExact {maxThrds : Nat} {tp : TPool} {as : List Action} {s : Sys}
    (hmax : maxThrds < 2 ^ 32) (hinit : TPool.initPool maxThrds = some tp)
    (hexact : Lts.Along Sys.step (fun s a => OneCaller s a ∧ GrantExact s a) (.init tp) as)
    (hrun : run (.init tp) as = some s) (hquiet : ∀ k, s.calls k = .returned)
    : Accounted s := by
  have hinv : BudgetInv (· = ·) s ∧ Sequential s := by
    refine Lts.invariant_along (I := fun s => BudgetInv (· = ·) s ∧ Sequential s) ?_ ?_ hexact hrun
    . intro s a s' h hP hs
      refine ⟨?_, h.2.step h.1.fresh hP.1 (step_of_step hs)⟩
      refine h.1.step Nat.le_of_eq ?_ ?_ ?_ (step_of_step hs)
      . intro a b c d hab hcd
        rw [hab, hcd]
      . intro a b c hab
        omega
      apply granted_of_grant
      rintro k min max flags min' max' rfl hpc hcheck
      refine ⟨?_, groupSize_eq (hP.2 _ (grant_eq hpc hcheck))⟩
      have hwithin := h.1.withinBudget Nat.le_of_eq
      have hle := (addGroupCheck_le hcheck).2
      have htotal := hwithin.total
      rw [hwithin.available] at hle
      rw [h.2.reserved_eq_zero hpc]
      omega
    . refine ⟨BudgetInv.init hmax hinit rfl, ?_⟩
      intro k k' hk
      exact absurd rfl hk
  exact hinv.1.accounted hquiet

theorem accounted_add_destroy
    : ∃ tp s, TPool.initPool 4 = some tp ∧
        run (.init tp) (.call (.addGroup 1 3 0) :: List.replicate 5 (.caller 0) ++
          .call (.destroyGroup 0) :: List.replicate 3 (.caller 1) ++
          List.replicate 3 (.worker 0) ++ List.replicate 3 (.caller 1)) = some s ∧
        Accounted s ∧ s.pool.totalThrds = 0 := by
  refine ⟨_, _, rfl, rfl, ?_, rfl⟩
  refine @accounted_of_grantExact 4 _ (.call (.addGroup 1 3 0) :: List.replicate 5 (.caller 0) ++
    .call (.destroyGroup 0) :: List.replicate 3 (.caller 1) ++
    List.replicate 3 (.worker 0) ++ List.replicate 3 (.caller 1)) _ (by decide) rfl (by decide) rfl ?_
  intro k
  rcases k with _ | _ | k <;> rfl

theorem not_accounted_fixed_group
    : ¬ ∀ maxThrds tp as s, maxThrds < 2 ^ 32 → TPool.initPool maxThrds = some tp →
        Lts.Along Sys.step OneCaller (.init tp) as → run (.init tp) as = some s →
        (∀ k, s.calls k = .returned) → Accounted s := by
  intro h
  have hs := h 4 _ (.call (.addGroup 1 3 groupFixed) :: List.replicate 5 (.caller 0)) _ (by decide) rfl
    (by decide) rfl (fun k => by rcases k with _ | k <;> rfl)
  exact absurd hs.total (by decide)

end Pool
