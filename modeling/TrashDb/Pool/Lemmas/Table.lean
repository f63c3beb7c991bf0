import TrashDb.Pool.Lemmas.Budget
import TrashDb.Pool.Lemmas.Drain
import TrashDb.Pool.Lemmas.GroupLocks

/-!
This module contains the bounds on the table `thrds` of a group. Threads are added by the `add_group` that
builds the group and by the manager, both under the mutex of the group. What each of them has still to add
fits between `numThrds` and the limits of the group, and the limits fit into what is allocated.
-/

namespace Pool

open Function Word

def TGroup.table (tg : TGroup) : List Nat × Nat × Nat × Nat :=
  (tg.thrds, tg.thrdMin, tg.thrdMax, tg.thrdsAlloc)

structure TGroup.Limits (tg : TGroup) : Prop where
  min_le : tg.thrdMin ≤ tg.thrdMax
  num_le : tg.numThrds ≤ tg.thrdMax
  alloc : tg.thrdMax ≤ tg.thrdsAlloc
  nodup : tg.thrds.Nodup

def CallPc.Building (g : Nat) (pc : CallPc) : Prop := ∃ n max, pc = .addSpawn g n max

structure TableInv (s : Sys) : Prop where
  grant : ∀ k min max flags, s.calls k = .addBuild min max flags → min ≤ max
  limits : ∀ g tg, s.groups g = some tg → tg.Limits
  apart : ∀ g g' tg tg' t, s.groups g = some tg → s.groups g' = some tg' → t ∈ tg.thrds →
    t ∈ tg'.thrds → g = g'
  building : ∀ k g n max tg, s.calls k = .addSpawn g n max → s.groups g = some tg →
    tg.numThrds + n = tg.thrdMin
  adding : ∀ m g n gs tg, s.managers m = .spawn g n gs → s.groups g = some tg →
    tg.numThrds + n ≤ tg.thrdMax
  staffed : ∀ g tg, s.groups g = some tg → tg.thrdMin ≤ tg.numThrds ∨ ∃ k, (s.calls k).Building g

namespace TableInv

variable {s s' : Sys} {k g t m : Nat}

theorem init (tp : TPool) : TableInv (.init tp) := by
  constructor <;> simp [Sys.init]

theorem table_eq {tg tg' : TGroup} (h : tg'.table = tg.table)
    : tg'.thrds = tg.thrds ∧ tg'.thrdMin = tg.thrdMin ∧ tg'.thrdMax = tg.thrdMax
        ∧ tg'.thrdsAlloc = tg.thrdsAlloc := by
  unfold TGroup.table at h
  simpa using h

theorem limits_of_table {tg tg' : TGroup} (h : tg.Limits) (heq : tg'.table = tg.table) : tg'.Limits := by
  obtain ⟨hthrds, hmin, hmax, halloc⟩ := table_eq heq
  constructor
  . rw [hmin, hmax]
    exact h.min_le
  . rw [TGroup.numThrds, hthrds, hmax]
    exact h.num_le
  . rw [hmax, halloc]
    exact h.alloc
  . rw [hthrds]
    exact h.nodup

theorem transfer (h : TableInv s) (hkeeps : Keeps TGroup.table s s')
    (hgrant : ∀ k min max flags, s'.calls k = .addBuild min max flags → min ≤ max)
    (hbuilding : ∀ k g n max, s'.calls k = .addSpawn g n max → s.calls k = .addSpawn g n max)
    (hadding : ∀ m g n gs tg, s'.managers m = .spawn g n gs → s.groups g = some tg →
      tg.numThrds + n ≤ tg.thrdMax)
    (hstaffed : ∀ k g tg, (s.calls k).Building g → s.groups g = some tg →
      tg.thrdMin ≤ tg.numThrds ∨ (s'.calls k).Building g)
    : TableInv s' := by
  constructor
  . exact hgrant
  . intro g tg' hg'
    obtain ⟨tg, hg, heq⟩ := hkeeps g tg' hg'
    exact limits_of_table (h.limits g tg hg) heq
  . intro g g' tg tg' t hg hg' ht ht'
    obtain ⟨tg₀, hg₀, heq⟩ := hkeeps g tg hg
    obtain ⟨tg₀', hg₀', heq'⟩ := hkeeps g' tg' hg'
    rw [(table_eq heq).1] at ht
    rw [(table_eq heq').1] at ht'
    exact h.apart g g' tg₀ tg₀' t hg₀ hg₀' ht ht'
  . intro k g n max tg' hk hg'
    obtain ⟨tg, hg, heq⟩ := hkeeps g tg' hg'
    obtain ⟨hthrds, hmin, _⟩ := table_eq heq
    rw [TGroup.numThrds, hthrds, hmin]
    exact h.building k g n max tg (hbuilding k g n max hk) hg
  . intro m g n gs tg' hm hg'
    obtain ⟨tg, hg, heq⟩ := hkeeps g tg' hg'
    obtain ⟨hthrds, _, hmax, _⟩ := table_eq heq
    rw [TGroup.numThrds, hthrds, hmax]
    exact hadding m g n gs tg hm hg
  . intro g tg' hg'
    obtain ⟨tg, hg, heq⟩ := hkeeps g tg' hg'
    obtain ⟨hthrds, hmin, _⟩ := table_eq heq
    rw [TGroup.numThrds, hthrds, hmin]
    rcases h.staffed g tg hg with hle | ⟨k, hk⟩
    . exact .inl hle
    . rcases hstaffed k g tg hk hg with hle | hk'
      . exact .inl hle
      . exact .inr ⟨k, hk'⟩

theorem frame (h : TableInv s) (hkeeps : Keeps TGroup.table s s') (hcalls : s'.calls = s.calls)
    (hmanagers : s'.managers = s.managers)
    : TableInv s' := by
  refine h.transfer hkeeps ?_ ?_ ?_ ?_
  . rw [hcalls]
    exact h.grant
  . rw [hcalls]
    exact fun _ _ _ _ => id
  . rw [hmanagers]
    exact h.adding
  . rw [hcalls]
    exact fun _ _ _ hk _ => .inr hk

theorem setCall {p : CallPc} (h : TableInv s) (hcalls : s'.calls = update s.calls k p)
    (hmanagers : s'.managers = s.managers) (hkeeps : Keeps TGroup.table s s')
    (hgrant : ∀ min max flags, p = .addBuild min max flags → min ≤ max)
    (hp : ∀ g n max, p ≠ .addSpawn g n max)
    (hk : ∀ g tg, (s.calls k).Building g → s.groups g = some tg → tg.thrdMin ≤ tg.numThrds)
    : TableInv s' := by
  refine h.transfer hkeeps ?_ ?_ ?_ ?_
  . intro i min max flags hi
    rw [hcalls, update_apply] at hi
    split at hi
    . exact hgrant min max flags hi
    . exact h.grant i min max flags hi
  . intro i g n max hi
    rw [hcalls, update_apply] at hi
    split at hi
    . exact absurd hi (hp g n max)
    . exact hi
  . rw [hmanagers]
    exact h.adding
  . intro i g tg hi hg
    rw [hcalls, update_apply]
    split
    . next heq => exact .inl (hk g tg (heq ▸ hi) hg)
    . exact .inr hi

theorem setManager {p : ManagerPc} (h : TableInv s) (hmanagers : s'.managers = update s.managers m p)
    (hcalls : s'.calls = s.calls) (hkeeps : Keeps TGroup.table s s')
    (hp : ∀ g n gs tg, p = .spawn g n gs → s.groups g = some tg → tg.numThrds + n ≤ tg.thrdMax)
    : TableInv s' := by
  refine h.transfer hkeeps ?_ ?_ ?_ ?_
  . rw [hcalls]
    exact h.grant
  . rw [hcalls]
    exact fun _ _ _ _ => id
  . intro i g n gs tg hi hg
    rw [hmanagers, update_apply] at hi
    split at hi
    . exact hp g n gs tg hi hg
    . exact h.adding i g n gs tg hi hg
  . rw [hcalls]
    exact fun _ _ _ hk _ => .inr hk

theorem limits_newGroup {min max : Nat} {flags : Int} {holder : Holder} (h : min ≤ max)
    : (TGroup.newGroup min max flags holder).Limits := by
  constructor
  . show min ≤ if (flags == groupFixed || min == max) then min else max
    split <;> omega
  . apply Nat.zero_le
  . show (if (flags == groupFixed || min == max) then min else max) ≤ max
    split <;> omega
  . apply List.nodup_nil

theorem build {min max : Nat} {flags : Int} (h : TableInv s) (hl : GroupLock s)
    (hpc : s.calls k = .addBuild min max flags)
    (hgroups : s'.groups = update s.groups s.nextGroup (some (.newGroup min max flags (.call k))))
    (hcalls : s'.calls = update s.calls k (.addSpawn s.nextGroup min max))
    (hmanagers : s'.managers = s.managers)
    : TableInv s' := by
  have hcall : ∀ i n max', s.calls i ≠ .addSpawn s.nextGroup n max' := by
    intro i n max' hi
    have := hl.fresh (.call i) s.nextGroup (by rw [Sys.holdsGroup, hi]; rfl)
    omega
  have hmanager : ∀ i n gs, s.managers i ≠ .spawn s.nextGroup n gs := by
    intro i n gs hi
    have := hl.fresh (.manager i) s.nextGroup (by rw [Sys.holdsGroup, hi]; rfl)
    omega
  constructor
  . intro i min' max' flags' hi
    rw [hcalls, update_apply] at hi
    split at hi
    . cases hi
    . exact h.grant i min' max' flags' hi
  . intro g tg hg
    rcases setGroup_cases hgroups hg with ⟨_, rfl⟩ | ⟨_, hg⟩
    . exact limits_newGroup (h.grant k min max flags hpc)
    . exact h.limits g tg hg
  . intro g g' tg tg' t hg hg' ht ht'
    rcases setGroup_cases hgroups hg with ⟨_, rfl⟩ | ⟨_, hg⟩
    . cases ht
    . rcases setGroup_cases hgroups hg' with ⟨_, rfl⟩ | ⟨_, hg'⟩
      . cases ht'
      . exact h.apart g g' tg tg' t hg hg' ht ht'
  . intro i g n max' tg hi hg
    rw [hcalls, update_apply] at hi
    split at hi
    . cases hi
      rcases setGroup_cases hgroups hg with ⟨_, rfl⟩ | ⟨hne, _⟩
      . exact Nat.zero_add min
      . exact absurd rfl hne
    . rcases setGroup_cases hgroups hg with ⟨rfl, _⟩ | ⟨_, hg⟩
      . exact absurd hi (hcall i n max')
      . exact h.building i g n max' tg hi hg
  . intro i g n gs tg hi hg
    rw [hmanagers] at hi
    rcases setGroup_cases hgroups hg with ⟨rfl, _⟩ | ⟨_, hg⟩
    . exact absurd hi (hmanager i n gs)
    . exact h.adding i g n gs tg hi hg
  . intro g tg hg
    rcases setGroup_cases hgroups hg with ⟨rfl, _⟩ | ⟨_, hg⟩
    . refine .inr ⟨k, min, max, ?_⟩
      rw [hcalls, update_self]
    . rcases h.staffed g tg hg with hle | ⟨i, n, max', hi⟩
      . exact .inl hle
      . refine .inr ⟨i, n, max', ?_⟩
        rw [hcalls, update_of_ne]
        . exact hi
        . rintro rfl
          rw [hpc] at hi
          cases hi

theorem spawn {tg : TGroup} (tg' : TGroup) (work : Option Nat) (h : TableInv s) (hd : DrainInv s)
    (hg : s.groups g = some tg) (htable : tg'.table = tg.table) (hroom : tg.numThrds < tg.thrdMax)
    (hgroups : s'.groups = (s.spawn g tg' work).groups)
    (hgrant : ∀ k min max flags, s'.calls k = .addBuild min max flags → min ≤ max)
    (hbuilding : ∀ k i n max, s'.calls k = .addSpawn i n max →
      (i ≠ g ∧ s.calls k = .addSpawn i n max) ∨ (i = g ∧ tg.numThrds + 1 + n = tg.thrdMin))
    (hadding : ∀ m i n gs, s'.managers m = .spawn i n gs →
      (i ≠ g ∧ s.managers m = .spawn i n gs) ∨ (i = g ∧ tg.numThrds + 1 + n ≤ tg.thrdMax))
    (hstaffed : ∀ k i, (s.calls k).Building i → (s'.calls k).Building i)
    : TableInv s' := by
  simp only [Sys.spawn, Sys.setGroup, Sys.setThrd] at hgroups
  obtain ⟨hthrds, hmin, hmax, halloc⟩ := table_eq htable
  have hlimits := h.limits g tg hg
  have hlength : (tg.thrds ++ [s.nextThrd]).length = tg.numThrds + 1 := by
    simp [TGroup.numThrds]
  have hnew : ∀ i tgi, s.groups i = some tgi → s.nextThrd ∉ tgi.thrds := by
    intro i tgi hi hmem
    have := (hd.names i tgi s.nextThrd hi hmem).1
    omega
  constructor
  . exact hgrant
  . intro i tgi hi
    rcases setGroup_cases hgroups hi with ⟨_, rfl⟩ | ⟨_, hi⟩
    . constructor
      . show tg'.thrdMin ≤ tg'.thrdMax
        rw [hmin, hmax]
        exact hlimits.min_le
      . show (tg'.thrds ++ [s.nextThrd]).length ≤ tg'.thrdMax
        rw [hthrds, hmax, hlength]
        exact hroom
      . show tg'.thrdMax ≤ tg'.thrdsAlloc
        rw [hmax, halloc]
        exact hlimits.alloc
      . show (tg'.thrds ++ [s.nextThrd]).Nodup
        rw [hthrds, ← List.concat_eq_append, List.nodup_concat]
        exact ⟨hnew g tg hg, hlimits.nodup⟩
    . exact h.limits i tgi hi
  . have hmem : ∀ i tgi t, s'.groups i = some tgi → t ∈ tgi.thrds →
        (i = g ∧ t = s.nextThrd) ∨ ∃ tg₀, s.groups i = some tg₀ ∧ t ∈ tg₀.thrds := by
      intro i tgi t hi ht
      rcases setGroup_cases hgroups hi with ⟨rfl, rfl⟩ | ⟨_, hi⟩
      . rw [List.mem_append, List.mem_singleton, hthrds] at ht
        rcases ht with ht | ht
        . exact .inr ⟨tg, hg, ht⟩
        . exact .inl ⟨rfl, ht⟩
      . exact .inr ⟨tgi, hi, ht⟩
    intro i i' tgi tgi' t hi hi' ht ht'
    rcases hmem i tgi t hi ht with ⟨rfl, rfl⟩ | ⟨tg₀, hi₀, ht₀⟩ <;>
      rcases hmem i' tgi' _ hi' ht' with ⟨rfl, heq⟩ | ⟨tg₁, hi₁, ht₁⟩
    . rfl
    . exact absurd ht₁ (hnew i' tg₁ hi₁)
    . exact absurd (heq ▸ ht₀) (hnew i tg₀ hi₀)
    . exact h.apart i i' tg₀ tg₁ t hi₀ hi₁ ht₀ ht₁
  . intro i j n max tgj hi hj
    rcases hbuilding i j n max hi with ⟨hne, hi⟩ | ⟨rfl, hn⟩
    . rcases setGroup_cases hgroups hj with ⟨heq, _⟩ | ⟨_, hj⟩
      . exact absurd heq hne
      . exact h.building i j n max tgj hi hj
    . rcases setGroup_cases hgroups hj with ⟨_, rfl⟩ | ⟨hne, _⟩
      . show (tg'.thrds ++ [s.nextThrd]).length + n = tg'.thrdMin
        rw [hthrds, hmin, hlength]
        exact hn
      . exact absurd rfl hne
  . intro i j n gs tgj hi hj
    rcases hadding i j n gs hi with ⟨hne, hi⟩ | ⟨rfl, hn⟩
    . rcases setGroup_cases hgroups hj with ⟨heq, _⟩ | ⟨_, hj⟩
      . exact absurd heq hne
      . exact h.adding i j n gs tgj hi hj
    . rcases setGroup_cases hgroups hj with ⟨_, rfl⟩ | ⟨hne, _⟩
      . show (tg'.thrds ++ [s.nextThrd]).length + n ≤ tg'.thrdMax
        rw [hthrds, hmax, hlength]
        exact hn
      . exact absurd rfl hne
  . have hold : ∀ i tg₀, s.groups i = some tg₀ →
        tg₀.thrdMin ≤ tg₀.numThrds ∨ ∃ k, (s'.calls k).Building i := by
      intro i tg₀ hi₀
      rcases h.staffed i tg₀ hi₀ with hle | ⟨k, hk⟩
      . exact .inl hle
      . exact .inr ⟨k, hstaffed k i hk⟩
    intro i tgi hi
    rcases setGroup_cases hgroups hi with ⟨rfl, rfl⟩ | ⟨_, hi⟩
    . refine (hold i tg hg).imp_left fun hle => ?_
      show tg'.thrdMin ≤ (tg'.thrds ++ [s.nextThrd]).length
      rw [hthrds, hmin, hlength]
      exact Nat.le_succ_of_le hle
    . exact hold i tgi hi

theorem holder_unique {tg : TGroup} {o o' : Holder} (hl : GroupLock s) (hg : s.groups g = some tg)
    (ho : s.holdsGroup o = some g) (ho' : s.holdsGroup o' = some g)
    : o = o' := by
  have := (hl.owner g tg o hg).mpr ho
  rw [(hl.owner g tg o' hg).mpr ho'] at this
  exact (Option.some.inj this).symm

theorem spawn_call {n max : Nat} {tg : TGroup} (h : TableInv s) (hd : DrainInv s) (hl : GroupLock s)
    (hpc : s.calls k = .addSpawn g (n + 1) max) (hg : s.groups g = some tg)
    : TableInv ((s.spawn g tg none).setCall k (.addSpawn g n max)) := by
  have hnum := h.building k g (n + 1) max tg hpc hg
  have hmin := (h.limits g tg hg).min_le
  have hhold : s.holdsGroup (.call k) = some g := by
    rw [Sys.holdsGroup, hpc]
    rfl
  refine h.spawn tg none hd hg rfl (by omega) rfl ?_ ?_ ?_ ?_
  . intro i min max' flags hi
    simp only [Sys.setCall, update_apply] at hi
    split at hi
    . cases hi
    . exact h.grant i min max' flags hi
  . intro i j n' max' hi
    simp only [Sys.setCall, update_apply] at hi
    split at hi
    . cases hi
      exact .inr ⟨rfl, by omega⟩
    . next hne =>
      refine .inl ⟨?_, hi⟩
      rintro rfl
      have hhold' : s.holdsGroup (.call i) = some j := by
        rw [Sys.holdsGroup, show s.calls i = .addSpawn j n' max' from hi]
        rfl
      cases holder_unique hl hg hhold hhold'
      exact hne rfl
  . intro i j n' gs hi
    refine .inl ⟨?_, hi⟩
    rintro rfl
    have hhold' : s.holdsGroup (.manager i) = some j := by
      rw [Sys.holdsGroup, show s.managers i = .spawn j n' gs from hi]
      rfl
    cases holder_unique hl hg hhold hhold'
  . rintro i j ⟨n', max', hi⟩
    simp only [Sys.setCall, update_apply]
    split
    . next heq =>
      rw [heq, hpc] at hi
      cases hi
      exact ⟨n, _, rfl⟩
    . exact ⟨n', max', hi⟩

theorem spawn_manager {n : Nat} {gs : List Nat} {tg : TGroup} (tg' : TGroup) (work : Option Nat)
    (h : TableInv s) (hd : DrainInv s) (hl : GroupLock s) (hpc : s.managers m = .spawn g (n + 1) gs)
    (hg : s.groups g = some tg) (htable : tg'.table = tg.table)
    (hgroups : s'.groups = (s.spawn g tg' work).groups) (hcalls : s'.calls = s.calls)
    (hmanagers : s'.managers = update s.managers m (.spawn g n gs))
    : TableInv s' := by
  have hnum := h.adding m g (n + 1) gs tg hpc hg
  have hhold : s.holdsGroup (.manager m) = some g := by
    rw [Sys.holdsGroup, hpc]
    rfl
  refine h.spawn tg' work hd hg htable (by omega) hgroups ?_ ?_ ?_ ?_
  . rw [hcalls]
    exact h.grant
  . intro i j n' max' hi
    rw [hcalls] at hi
    refine .inl ⟨?_, hi⟩
    rintro rfl
    have hhold' : s.holdsGroup (.call i) = some j := by
      rw [Sys.holdsGroup, hi]
      rfl
    cases holder_unique hl hg hhold hhold'
  . intro i j n' gs' hi
    rw [hmanagers, update_apply] at hi
    split at hi
    . cases hi
      exact .inr ⟨rfl, by omega⟩
    . next hne =>
      refine .inl ⟨?_, hi⟩
      rintro rfl
      have hhold' : s.holdsGroup (.manager i) = some j := by
        rw [Sys.holdsGroup, hi]
        rfl
      cases holder_unique hl hg hhold hhold'
      exact hne rfl
  . rw [hcalls]
    exact fun _ _ => id

theorem start {req : Req} (h : TableInv s) (hf : Fresh s) (hs : StartStep s req s') : TableInv s' := by
  have hreturned := hf.nextCall_eq_returned
  cases hs <;>
    exact h.setCall rfl rfl (keeps_of_eq rfl) (by simp) (by simp) (by simp [CallPc.Building, hreturned])

theorem caller (h : TableInv s) (hd : DrainInv s) (hl : GroupLock s) (hs : CallStep s k s') : TableInv s' := by
  cases hs with
  | check min max min' max' flags hpc hlock hcheck =>
    refine h.setCall rfl rfl (keeps_of_eq rfl) ?_ (by simp) (by simp [CallPc.Building, hpc])
    intro min₀ max₀ flags₀ heq
    cases heq
    exact (addGroupCheck_le hcheck).1
  | build min max flags hpc => exact h.build hl hpc rfl rfl rfl
  | spawn g n max tg hpc hg => exact h.spawn_call hd hl hpc hg
  | endSpawn g max tg hpc hg =>
    refine h.setCall rfl rfl (keeps_setGroup rfl hg rfl) (by simp) (by simp) ?_
    rintro i tgi ⟨n, max', hi⟩ hgi
    have hnum := h.building k i n max' tgi hi hgi
    rw [hpc] at hi
    cases hi
    omega
  | wake g ts by_ tg t rest tt hpc hg => exact h.frame (keeps_setGroup rfl hg rfl) rfl rfl
  | block before hpc | endWait before hpc =>
    refine h.setCall rfl rfl (keeps_of_eq rfl) (by simp) (by simp) ?_
    rcases hpc with hpc | ⟨hpc, _⟩ <;> simp [CallPc.Building, hpc]
  | close g by_ tg hpc hg | endWake g ts by_ tg hpc hg | flag g gs before tg hpc hg
  | reserve g w tg t rest hpc hg =>
    exact h.setCall rfl rfl (keeps_setGroup rfl hg rfl) (by simp) (by simp) (by simp [CallPc.Building, hpc])
  | queue g w tg pc hpc hg hlock hclose hidle hfull hnext =>
    refine h.setCall rfl rfl (keeps_setGroup rfl hg rfl) ?_ ?_ (by simp [CallPc.Building, hpc])
    . rcases hnext with rfl | rfl <;> simp
    . rcases hnext with rfl | rfl <;> simp
  | full g w tg pc hpc hg hlock hclose hidle hfull hnext =>
    refine h.setCall rfl rfl (keeps_of_eq rfl) ?_ ?_ (by simp [CallPc.Building, hpc])
    . rcases hnext with rfl | rfl <;> simp
    . rcases hnext with rfl | rfl <;> simp
  | endJoinPool g tg hpc hg | refund g tg hpc hg =>
    exact h.setCall rfl rfl (keeps_freeGroup rfl) (by simp) (by simp) (by simp [CallPc.Building, hpc])
  | chargeFirst g max hpc =>
    refine h.transfer (keeps_of_eq rfl) ?_ ?_ ?_ ?_
    . intro i min max' flags hi
      simp only [Sys.setCall, update_apply] at hi
      split at hi
      . cases hi
      . exact h.grant i min max' flags hi
    . intro i g' n max' hi
      simp only [Sys.setCall, update_apply] at hi
      split at hi
      . cases hi
      . exact hi
    . intro i g' n gs tg hi hg
      simp only [Sys.setCall, Sys.setManager, update_apply] at hi
      split at hi
      . cases hi
      . exact h.adding i g' n gs tg hi hg
    . rintro i g' tg ⟨n, max', hi⟩ _
      refine .inr ⟨n, max', ?_⟩
      simp only [Sys.setCall, update_apply]
      split
      . next heq =>
        rw [heq, hpc] at hi
        cases hi
      . exact hi
  | checkFail min max flags hpc | charge g max hpc | unlink g hpc | join g t ts by_ hpc
  | endJoinGroup g hpc | killDead hpc | kill hpc | readManager m hpc | joinManager m hpc | relock hpc
  | popGroup g rest hpc | freePool hpc | refuse g w tg hpc | notify w rc hpc | hand g t w tt hpc
  | success w hpc | failure w rc hpc | waitStart before hpc | skip g gs before tg hpc
  | waitReturn before hpc =>
    exact h.setCall rfl rfl (keeps_of_eq rfl) (by simp) (by simp) (by simp [CallPc.Building, hpc])

theorem addThrds_le {tg : TGroup} (h : tg.Limits) : tg.numThrds + tg.addThrds ≤ tg.thrdMax := by
  have hle := h.num_le
  unfold TGroup.addThrds
  rw [sub32_of_le hle]
  dsimp only
  split <;> omega

theorem worker (h : TableInv s) (hs : WorkerStep s t s') : TableInv s' := by
  cases hs with
  | fetch tt tg w rest ht hpc hg | goIdle tt tg wait ht hpc hg | leave tt tg ht hpc hg =>
    exact h.frame (keeps_setGroup rfl hg rfl) rfl rfl
  | _ => exact h.frame (keeps_of_eq rfl) rfl rfl

theorem manager (h : TableInv s) (hd : DrainInv s) (hl : GroupLock s) (hs : ManagerStep s m s')
    : TableInv s' := by
  cases hs with
  | stay hpc => exact h
  | look g gs tg hpc hg =>
    refine h.setManager rfl rfl (keeps_setGroup rfl hg rfl) ?_
    intro i n gs' tgi heq hgi
    cases heq
    cases hg.symm.trans hgi
    exact addThrds_le (h.limits g tg hg)
  | spawnTask g n gs tg w rest hpc hg =>
    exact h.spawn_manager { tg with q := { tg.q with work := ⟨rest, tg.q.work.len - 1⟩ } } (some w) hd hl hpc hg
      rfl rfl rfl rfl
  | spawnNone g n gs tg hpc hg => exact h.spawn_manager tg none hd hl hpc hg rfl rfl rfl rfl
  | endSpawn g gs tg hpc hg => exact h.setManager rfl rfl (keeps_setGroup rfl hg rfl) (by simp)
  | exit hpc | pass hpc | endPass hpc => exact h.setManager rfl rfl (keeps_of_eq rfl) (by simp)

theorem step {a : Action} (h : TableInv s) (hf : Fresh s) (hd : DrainInv s) (hl : GroupLock s)
    (hs : Step s a s')
    : TableInv s' := by
  cases hs with
  | start req s' hs => exact h.start hf hs
  | caller k s' hs => exact h.caller hd hl hs
  | worker t s' hs => exact h.worker hs
  | manager m timedOut s' hs => exact h.manager hd hl hs

end TableInv

end Pool
