import TrashDb.Pool.Lemmas.Threads

/-!
This module contains that the two lists of a group are made of its threads: a thread is in one of them
from the section in which it is created until the one in which it leaves the group, and it is in neither
of them twice.
-/

namespace Pool

open Function

def TGroup.members (tg : TGroup) : List Nat := tg.idleThrds.items ++ tg.activeThrds.items

structure ListInv (s : Sys) : Prop where
  nodup : ∀ g tg, s.groups g = some tg → tg.members.Nodup
  members : ∀ g tg t, s.groups g = some tg →
    (t ∈ tg.members ↔ (s.thrds t).map TThread.tg = some g)
  named : ∀ g tg t, s.groups g = some tg → t ∈ tg.members → t ∈ tg.thrds

namespace ListInv

variable {s s' : Sys} {k g t : Nat}

theorem init (tp : TPool) : ListInv (.init tp) := by
  constructor <;> simp [Sys.init]

def Permutes (s s' : Sys) : Prop :=
  ∀ g tg', s'.groups g = some tg' →
    ∃ tg, s.groups g = some tg ∧ tg'.members.Perm tg.members ∧ tg'.thrds = tg.thrds

theorem permutes_of_keeps (h : Keeps (fun tg => (tg.lists, tg.thrds)) s s') : Permutes s s' := by
  intro g tg' hg'
  obtain ⟨tg, hg, heq⟩ := h g tg' hg'
  simp only [Prod.mk.injEq, TGroup.lists] at heq
  refine ⟨tg, hg, ?_, heq.2⟩
  rw [TGroup.members, TGroup.members, heq.1.1, heq.1.2]

theorem permutes_setGroup {tg tg' : TGroup} (hg : s.groups g = some tg)
    (hgroups : s'.groups = update s.groups g (some tg')) (hperm : tg'.members.Perm tg.members)
    (hthrds : tg'.thrds = tg.thrds)
    : Permutes s s' := by
  intro i tgi hi
  rcases setGroup_cases hgroups hi with ⟨rfl, rfl⟩ | ⟨_, hi⟩
  . exact ⟨tg, hg, hperm, hthrds⟩
  . exact ⟨tgi, hi, .refl _, rfl⟩

theorem transfer (h : ListInv s) (hpermutes : Permutes s s')
    (hhome : ∀ t, (s'.thrds t).map TThread.tg = (s.thrds t).map TThread.tg)
    : ListInv s' := by
  constructor
  . intro g tg' hg'
    obtain ⟨tg, hg, hperm, _⟩ := hpermutes g tg' hg'
    rw [hperm.nodup_iff]
    apply h.nodup g tg hg
  . intro g tg' t hg'
    obtain ⟨tg, hg, hperm, _⟩ := hpermutes g tg' hg'
    rw [hperm.mem_iff, hhome]
    apply h.members g tg t hg
  . intro g tg' t hg' ht
    obtain ⟨tg, hg, hperm, hthrds⟩ := hpermutes g tg' hg'
    rw [hperm.mem_iff] at ht
    rw [hthrds]
    apply h.named g tg t hg ht

theorem frame (h : ListInv s) (hkeeps : Keeps (fun tg => (tg.lists, tg.thrds)) s s')
    (hthrds : s'.thrds = s.thrds)
    : ListInv s' := by
  refine h.transfer (permutes_of_keeps hkeeps) ?_
  rw [hthrds]
  exact fun _ => rfl

theorem home_setThrd {tt tt' : TThread} (ht : s.thrds t = some tt)
    (hthrds : s'.thrds = update s.thrds t (some tt')) (htg : tt'.tg = tt.tg)
    : ∀ i, (s'.thrds i).map TThread.tg = (s.thrds i).map TThread.tg := by
  intro i
  rw [hthrds, update_apply]
  split
  . next heq => rw [heq, ht, Option.map_some, Option.map_some, htg]
  . rfl

theorem build {tg : TGroup} (h : ListInv s) (ht : ThreadInv s)
    (hgroups : s'.groups = update s.groups s.nextGroup (some tg)) (hmembers : tg.members = [])
    (hthrds : s'.thrds = s.thrds)
    : ListInv s' := by
  constructor
  . intro i tgi hi
    rcases setGroup_cases hgroups hi with ⟨_, rfl⟩ | ⟨_, hi⟩
    . rw [hmembers]
      apply List.nodup_nil
    . apply h.nodup i tgi hi
  . intro i tgi t hi
    rw [hthrds]
    rcases setGroup_cases hgroups hi with ⟨rfl, rfl⟩ | ⟨_, hi⟩
    . rw [hmembers]
      simp only [List.not_mem_nil, false_iff, Option.map_eq_some_iff, not_exists, not_and]
      intro tt htt htg
      have := ht.tg t tt htt
      omega
    . apply h.members i tgi t hi
  . intro i tgi t hi hmem
    rcases setGroup_cases hgroups hi with ⟨_, rfl⟩ | ⟨_, hi⟩
    . rw [hmembers] at hmem
      cases hmem
    . apply h.named i tgi t hi hmem

theorem spawn {tg : TGroup} (tg' : TGroup) {work : Option Nat} (h : ListInv s) (hf : Fresh s)
    (hg : s.groups g = some tg) (hlists : tg'.lists = tg.lists) (hnames : tg'.thrds = tg.thrds)
    (hgroups : s'.groups = (s.spawn g tg' work).groups)
    (hthrds : s'.thrds = (s.spawn g tg' work).thrds)
    : ListInv s' := by
  simp only [Sys.spawn, Sys.setGroup, Sys.setThrd] at hgroups hthrds
  simp only [TGroup.lists, Prod.mk.injEq] at hlists
  have hnew : s.nextThrd ∉ tg.members := by
    rw [h.members g tg _ hg, hf.nextThrd_eq_none]
    nofun
  have hhome : ∀ t, (s'.thrds t).map TThread.tg =
      if t = s.nextThrd then some g else (s.thrds t).map TThread.tg := by
    intro t
    rw [hthrds, update_apply]
    split <;> rfl
  have hmembers : ∀ i tgi, s'.groups i = some tgi →
      (i = g ∧ tgi.members = tg.members ++ [s.nextThrd] ∧ tgi.thrds = tg.thrds ++ [s.nextThrd]) ∨
      (i ≠ g ∧ s.groups i = some tgi) := by
    intro i tgi hi
    rcases setGroup_cases hgroups hi with ⟨rfl, rfl⟩ | hi
    . refine .inl ⟨rfl, ?_, ?_⟩
      . simp only [TGroup.members, LL.listAppend_items, hlists, List.append_assoc]
      . simp only [hnames]
    . exact .inr hi
  constructor
  . intro i tgi hi
    rcases hmembers i tgi hi with ⟨_, heq, _⟩ | ⟨_, hi⟩
    . rw [heq, ← List.concat_eq_append, List.nodup_concat]
      exact ⟨hnew, h.nodup g tg hg⟩
    . apply h.nodup i tgi hi
  . intro i tgi t hi
    rw [hhome]
    rcases hmembers i tgi hi with ⟨hig, heq, _⟩ | ⟨hne, hi⟩
    . rw [heq, hig, List.mem_append, List.mem_singleton, h.members g tg t hg]
      split <;> simp [*]
    . rw [h.members i tgi t hi]
      split
      . next heq => simp [heq, hf.nextThrd_eq_none, Ne.symm hne]
      . rfl
  . intro i tgi t hi hmem
    rcases hmembers i tgi hi with ⟨_, heq, hnamed⟩ | ⟨_, hi⟩
    . rw [heq, List.mem_append] at hmem
      rw [hnamed, List.mem_append]
      exact hmem.imp_left (h.named g tg t hg)
    . apply h.named i tgi t hi hmem

theorem leave {tt : TThread} {tg tg' : TGroup} (h : ListInv s) (ht : s.thrds t = some tt)
    (hg : s.groups tt.tg = some tg) (hgroups : s'.groups = update s.groups tt.tg (some tg'))
    (hperm : tg.members.Perm (t :: tg'.members)) (hnames : tg'.thrds = tg.thrds)
    (hthrds : s'.thrds = update s.thrds t none)
    : ListInv s' := by
  have hnodup := h.nodup tt.tg tg hg
  rw [hperm.nodup_iff, List.nodup_cons] at hnodup
  constructor
  . intro i tgi hi
    rcases setGroup_cases hgroups hi with ⟨_, rfl⟩ | ⟨_, hi⟩
    . exact hnodup.2
    . apply h.nodup i tgi hi
  . intro i tgi t' hi
    rw [hthrds, update_apply]
    rcases setGroup_cases hgroups hi with ⟨rfl, rfl⟩ | ⟨hne, hi⟩
    . have hold := h.members tt.tg tg t' hg
      rw [hperm.mem_iff, List.mem_cons] at hold
      split
      . next heq =>
        rw [heq]
        simp [hnodup.1]
      . next hne =>
        rw [← hold]
        simp [hne]
    . rw [h.members i tgi t' hi]
      split
      . next heq => simp [heq, ht, Ne.symm hne]
      . rfl
  . intro i tgi t' hi hmem
    rcases setGroup_cases hgroups hi with ⟨rfl, rfl⟩ | ⟨_, hi⟩
    . rw [hnames]
      apply h.named tt.tg tg t' hg
      rw [hperm.mem_iff]
      apply List.mem_cons_of_mem t hmem
    . apply h.named i tgi t' hi hmem

theorem perm_activate {tg tg' : TGroup} {rest : List Nat} (hitems : tg.idleThrds.items = t :: rest)
    (hidle : tg'.idleThrds.items = rest) (hactive : tg'.activeThrds = tg.activeThrds.listAppend t)
    : tg'.members.Perm tg.members := by
  rw [TGroup.members, TGroup.members, hitems, hidle, hactive, LL.listAppend_items, ← List.append_assoc]
  apply List.perm_append_singleton

theorem perm_goIdle {tt : TThread} {tg tg' : TGroup} (ht : ThreadInv s) (htt : s.thrds t = some tt)
    (hrun : tt.state = .running) (hg : s.groups tt.tg = some tg)
    (hidle : tg'.idleThrds = (tg.idleThrds.itemRemove t).listAppend t)
    (hactive : tg'.activeThrds.items = tg.activeThrds.items.erase t)
    : tg'.members.Perm tg.members := by
  have hnot := ht.not_mem_idle htt hrun hg
  have hmem := ht.active t tt tg htt hrun hg
  rw [TGroup.members, TGroup.members, hidle, hactive, LL.listAppend_items, LL.itemRemove_items,
    List.erase_of_not_mem hnot, List.append_assoc]
  apply List.Perm.append_left
  exact (List.perm_cons_erase hmem).symm

theorem perm_leave {tt : TThread} {tg tg' : TGroup} (ht : ThreadInv s) (htt : s.thrds t = some tt)
    (hrun : tt.state = .running) (hg : s.groups tt.tg = some tg)
    (hidle : tg'.idleThrds = tg.idleThrds.itemRemove t)
    (hactive : tg'.activeThrds.items = tg.activeThrds.items.erase t)
    : tg.members.Perm (t :: tg'.members) := by
  have hnot := ht.not_mem_idle htt hrun hg
  have hmem := ht.active t tt tg htt hrun hg
  rw [TGroup.members, TGroup.members, hidle, hactive, LL.itemRemove_items, List.erase_of_not_mem hnot]
  refine .trans ?_ List.perm_middle
  apply List.Perm.append_left
  exact List.perm_cons_erase hmem

theorem caller (h : ListInv s) (hf : Fresh s) (ht : ThreadInv s) (hs : CallStep s k s')
    : ListInv s' := by
  cases hs with
  | build min max flags hpc => exact h.build ht rfl rfl rfl
  | spawn g n max tg hpc hg => exact h.spawn tg hf hg rfl rfl rfl rfl
  | endSpawn g max tg hpc hg => exact h.frame (keeps_setGroup rfl hg rfl) rfl
  | close g by_ tg hpc hg => exact h.frame (keeps_setGroup rfl hg rfl) rfl
  | wake g ts by_ tg t rest tt hpc hg hlen hitems htt =>
    refine h.transfer (permutes_setGroup hg rfl ?_ rfl) (home_setThrd htt rfl rfl)
    exact perm_activate hitems rfl rfl
  | endWake g ts by_ tg hpc hg => exact h.frame (keeps_setGroup rfl hg rfl) rfl
  | endJoinPool g tg hpc hg => exact h.frame (keeps_freeGroup rfl) rfl
  | refund g tg hpc hg => exact h.frame (keeps_freeGroup rfl) rfl
  | queue g w tg pc hpc hg => exact h.frame (keeps_setGroup rfl hg rfl) rfl
  | reserve g w tg t rest hpc hg hlock hclose hlen hitems =>
    refine h.transfer (permutes_setGroup hg rfl ?_ rfl) (fun _ => rfl)
    exact perm_activate hitems rfl rfl
  | hand g t w tt hpc htt =>
    exact h.transfer (permutes_of_keeps (keeps_of_eq rfl)) (home_setThrd htt rfl rfl)
  | flag g gs before tg hpc hg => exact h.frame (keeps_setGroup rfl hg rfl) rfl
  | _ => exact h.frame (keeps_of_eq rfl) rfl

theorem worker (h : ListInv s) (ht : ThreadInv s) (hs : WorkerStep s t s') : ListInv s' := by
  cases hs with
  | fetch tt tg w rest htt hpc hg =>
    exact h.transfer (permutes_of_keeps (keeps_setGroup rfl hg rfl)) (home_setThrd htt rfl rfl)
  | goIdle tt tg wait htt hpc hg hlock hlen hkill hrun =>
    refine h.transfer (permutes_setGroup hg rfl ?_ rfl) (home_setThrd htt rfl rfl)
    exact perm_goIdle ht htt hrun hg rfl rfl
  | leave tt tg htt hpc hg =>
    have hok := ht.ok t tt htt
    simp only [TThread.Ok, hpc] at hok
    exact h.leave htt hg rfl (perm_leave ht htt hok.1 hg rfl rfl) rfl rfl
  | topTask tt w htt | topNone tt htt | call tt w htt | inFunc tt w htt | ret tt w htt
  | hardKill tt tg htt | softKill tt tg htt | decr tt htt | block tt htt | awake tt htt =>
    exact h.transfer (permutes_of_keeps (keeps_of_eq rfl)) (home_setThrd htt rfl rfl)

theorem manager {m : Nat} (h : ListInv s) (hf : Fresh s) (hs : ManagerStep s m s') : ListInv s' := by
  cases hs with
  | look g gs tg hpc hg => exact h.frame (keeps_setGroup rfl hg rfl) rfl
  | spawnTask g n gs tg w rest hpc hg =>
    exact h.spawn { tg with q := { tg.q with work := ⟨rest, tg.q.work.len - 1⟩ } } hf hg rfl rfl rfl rfl
  | spawnNone g n gs tg hpc hg => exact h.spawn tg hf hg rfl rfl rfl rfl
  | endSpawn g gs tg hpc hg => exact h.frame (keeps_setGroup rfl hg rfl) rfl
  | _ => exact h.frame (keeps_of_eq rfl) rfl

theorem step {a : Action} (h : ListInv s) (hf : Fresh s) (ht : ThreadInv s) (hs : Step s a s')
    : ListInv s' := by
  cases hs with
  | start req s' hs => cases hs <;> exact h.frame (keeps_of_eq rfl) rfl
  | caller k s' hs => apply h.caller hf ht hs
  | worker t s' hs => apply h.worker ht hs
  | manager m timedOut s' hs => apply h.manager hf hs

end ListInv

end Pool
