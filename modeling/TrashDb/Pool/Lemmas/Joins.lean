import TrashDb.Pool.Lemmas.Order
import TrashDb.Pool.Lemmas.Table

/-!
This module contains that the threads of a group are joined once, and what holds about the table of a
group in every run. The call that destroys a group has joined the first part of the table and is going to
join the rest. Of a group that nobody destroys no thread has been joined.
-/

namespace Pool

open Function Word

/--
The thread that the next step of the call joins.
-/
def CallPc.joins : CallPc → List Nat
  | .join _ (t :: _) _ => [t]
  | _ => []

def Sys.joins (s : Sys) : Action → List Nat
  | .caller k => (s.calls k).joins
  | _ => []

structure JoinInv (s : Sys) (joined : List Nat) : Prop where
  nodup : joined.Nodup
  old : ∀ t ∈ joined, t < s.nextThrd
  rest : ∀ k g ts tg, (s.calls k).unjoined = some (g, ts) → s.groups g = some tg →
    ∃ done, tg.thrds = done ++ ts ∧ (∀ t ∈ done, t ∈ joined) ∧ ∀ t ∈ ts, t ∉ joined
  whole : ∀ g tg, s.groups g = some tg → (∀ k ts, (s.calls k).unjoined ≠ some (g, ts)) →
    ∀ t ∈ tg.thrds, t ∉ joined

namespace JoinInv

variable {s s' : Sys} {joined : List Nat} {k g t : Nat}

theorem init (tp : TPool) : JoinInv (.init tp) [] := by
  constructor <;> simp [Sys.init]

theorem exists_of_unjoined {ts : List Nat} (ho : Ledger.Owned s.ledger)
    (hk : (s.calls k).unjoined = some (g, ts))
    : ∃ tg, s.groups g = some tg := by
  have hsize := (ho.owned k g (DrainInv.unjoined_owned hk)).1
  cases hg : s.groups g with
  | none => exact absurd (by simp [Sys.ledger, hg]) hsize
  | some tg => exact ⟨tg, rfl⟩

theorem transfer (h : JoinInv s joined) (ho : Ledger.Owned s.ledger) (hnext : s'.nextThrd = s.nextThrd)
    (hgroups : ∀ i tg', s'.groups i = some tg' →
      (∃ tg, s.groups i = some tg ∧ tg'.thrds = tg.thrds) ∨ tg'.thrds = [] ∧ s.groups i = none)
    (hrest : ∀ k i ts, (s'.calls k).unjoined = some (i, ts) → (s.calls k).unjoined = some (i, ts))
    (hwhole : ∀ k i ts, (s.calls k).unjoined = some (i, ts) →
      s'.groups i = none ∨ (s'.calls k).unjoined = some (i, ts))
    : JoinInv s' joined := by
  constructor
  . exact h.nodup
  . rw [hnext]
    exact h.old
  . intro k i ts tg' hk hi
    have hk := hrest k i ts hk
    rcases hgroups i tg' hi with ⟨tg, hi, heq⟩ | ⟨_, hnone⟩
    . rw [heq]
      exact h.rest k i ts tg hk hi
    . obtain ⟨tg, hg⟩ := exists_of_unjoined ho hk
      rw [hnone] at hg
      cases hg
  . intro i tg' hi hnot t ht
    rcases hgroups i tg' hi with ⟨tg, hi', heq⟩ | ⟨hnil, _⟩
    . rw [heq] at ht
      refine h.whole i tg hi' ?_ t ht
      intro k ts hk
      rcases hwhole k i ts hk with hnone | hk'
      . rw [hnone] at hi
        cases hi
      . exact hnot k ts hk'
    . rw [hnil] at ht
      cases ht

theorem groups_of_keeps (hkeeps : Keeps TGroup.thrds s s')
    : ∀ i tg', s'.groups i = some tg' →
        (∃ tg, s.groups i = some tg ∧ tg'.thrds = tg.thrds) ∨ tg'.thrds = [] ∧ s.groups i = none :=
  fun i tg' hi => .inl (hkeeps i tg' hi)

theorem frame (h : JoinInv s joined) (ho : Ledger.Owned s.ledger) (hkeeps : Keeps TGroup.thrds s s')
    (hcalls : s'.calls = s.calls) (hnext : s'.nextThrd = s.nextThrd)
    : JoinInv s' joined := by
  refine h.transfer ho hnext (groups_of_keeps hkeeps) ?_ ?_
  . rw [hcalls]
    exact fun _ _ _ => id
  . rw [hcalls]
    exact fun _ _ _ => .inr

theorem setCall {p : CallPc} (h : JoinInv s joined) (ho : Ledger.Owned s.ledger)
    (hcalls : s'.calls = update s.calls k p) (hp : p.unjoined = (s.calls k).unjoined)
    (hkeeps : Keeps TGroup.thrds s s') (hnext : s'.nextThrd = s.nextThrd)
    : JoinInv s' joined := by
  have hsame : ∀ i, (s'.calls i).unjoined = (s.calls i).unjoined := by
    intro i
    rw [hcalls, update_apply]
    split
    . next heq => rw [heq, hp]
    . rfl
  refine h.transfer ho hnext (groups_of_keeps hkeeps) ?_ ?_
  . intro i g ts hi
    rw [← hsame, hi]
  . intro i g ts hi
    rw [hsame]
    exact .inr hi

theorem release {p : CallPc} (h : JoinInv s joined) (ho : Ledger.Owned s.ledger)
    (hk : (s.calls k).unjoined = some (g, [])) (hcalls : s'.calls = update s.calls k p)
    (hp : p.unjoined = none) (hgroups : s'.groups = update s.groups g none)
    (hnext : s'.nextThrd = s.nextThrd)
    : JoinInv s' joined := by
  refine h.transfer ho hnext (groups_of_keeps (keeps_freeGroup hgroups)) ?_ ?_
  . intro i g' ts' hi
    rw [hcalls, update_apply] at hi
    split at hi
    . rw [hp] at hi
      cases hi
    . exact hi
  . intro i g' ts' hi
    rw [hcalls, update_apply]
    split
    . next heq =>
      rw [heq, hk] at hi
      cases hi
      rw [hgroups, update_self]
      exact .inl rfl
    . exact .inr hi

theorem build {tg : TGroup} {p : CallPc} (h : JoinInv s joined) (ho : Ledger.Owned s.ledger) (hf : Fresh s)
    (hgroups : s'.groups = update s.groups s.nextGroup (some tg)) (hthrds : tg.thrds = [])
    (hcalls : s'.calls = update s.calls k p) (hp : p.unjoined = (s.calls k).unjoined)
    (hnext : s'.nextThrd = s.nextThrd)
    : JoinInv s' joined := by
  have hsame : ∀ i, (s'.calls i).unjoined = (s.calls i).unjoined := by
    intro i
    rw [hcalls, update_apply]
    split
    . next heq => rw [heq, hp]
    . rfl
  refine h.transfer ho hnext ?_ ?_ ?_
  . intro i tg' hi
    rcases setGroup_cases hgroups hi with ⟨rfl, rfl⟩ | ⟨_, hi⟩
    . exact .inr ⟨hthrds, hf.nextGroup_eq_none⟩
    . exact .inl ⟨tg', hi, rfl⟩
  . intro i g ts hi
    rw [← hsame, hi]
  . intro i g ts hi
    rw [hsame]
    exact .inr hi

theorem not_unjoined {i : Nat} {ts : List Nat} (ho : Ledger.Owned s.ledger)
    (hk : (s.calls k).phase.owned = some g) (hne : i ≠ k)
    : (s.calls i).unjoined ≠ some (g, ts) := by
  intro hi
  exact hne (ho.unique i k g (DrainInv.unjoined_owned hi) hk)

theorem close {tg tg' : TGroup} {by_ by' : Destroyer} (h : JoinInv s joined) (ho : Ledger.Owned s.ledger)
    (hpc : s.calls k = .close g by_) (hg : s.groups g = some tg)
    (hgroups : s'.groups = update s.groups g (some tg')) (hthrds : tg'.thrds = tg.thrds)
    (hcalls : s'.calls = update s.calls k (.wake g tg.thrds by')) (hnext : s'.nextThrd = s.nextThrd)
    : JoinInv s' joined := by
  have hnot : ∀ i ts, (s.calls i).unjoined ≠ some (g, ts) := by
    intro i ts
    by_cases hik : i = k
    . rw [hik, hpc]
      simp [CallPc.unjoined]
    . apply not_unjoined ho _ hik
      rw [hpc]
      rfl
  constructor
  . exact h.nodup
  . rw [hnext]
    exact h.old
  . intro i g' ts tgi hi hgi
    rw [hcalls, update_apply] at hi
    split at hi
    . cases hi
      rcases setGroup_cases hgroups hgi with ⟨_, rfl⟩ | ⟨hne, _⟩
      . exact ⟨[], hthrds, by simp, h.whole g tg hg hnot⟩
      . exact absurd rfl hne
    . rcases setGroup_cases hgroups hgi with ⟨rfl, _⟩ | ⟨_, hgi⟩
      . exact absurd hi (hnot i ts)
      . exact h.rest i g' ts tgi hi hgi
  . intro i tgi hi hwhole
    rcases setGroup_cases hgroups hi with ⟨rfl, _⟩ | ⟨hne, hi⟩
    . apply absurd _ (hwhole k tg.thrds)
      rw [hcalls, update_self]
      rfl
    . refine h.whole i tgi hi ?_
      intro j ts hj
      apply hwhole j ts
      rw [hcalls, update_of_ne]
      . exact hj
      . rintro rfl
        rw [hpc] at hj
        cases hj

theorem join {ts : List Nat} {by_ : Destroyer} (h : JoinInv s joined) (ho : Ledger.Owned s.ledger)
    (hd : DrainInv s) (htable : TableInv s) (hpc : s.calls k = .join g (t :: ts) by_)
    (hcalls : s'.calls = update s.calls k (.join g ts by_)) (hgroups : s'.groups = s.groups)
    (hnext : s'.nextThrd = s.nextThrd)
    : JoinInv s' (joined ++ [t]) := by
  have hk : (s.calls k).unjoined = some (g, t :: ts) := by
    rw [hpc]
    rfl
  obtain ⟨tg, hg⟩ := exists_of_unjoined ho hk
  obtain ⟨done, hthrds, hdone, hrest⟩ := h.rest k g (t :: ts) tg hk hg
  have hmem : t ∈ tg.thrds := by
    rw [hthrds]
    simp
  have hts : t ∉ ts := by
    have hnodup := (htable.limits g tg hg).nodup
    rw [hthrds] at hnodup
    exact (List.nodup_cons.mp hnodup.of_append_right).1
  -- The thread is in no other table.
  have hother : ∀ i tgi t', s.groups i = some tgi → i ≠ g → t' ∈ tgi.thrds → t' ∉ joined →
      t' ∉ joined ++ [t] := by
    intro i tgi t' hi hne ht' hnot
    rw [List.mem_append, List.mem_singleton, not_or]
    refine ⟨hnot, ?_⟩
    rintro rfl
    exact hne (htable.apart i g tgi tg t' hi hg ht' hmem)
  constructor
  . rw [← List.concat_eq_append, List.nodup_concat]
    exact ⟨hrest t List.mem_cons_self, h.nodup⟩
  . rw [hnext]
    intro t' ht'
    rw [List.mem_append, List.mem_singleton] at ht'
    rcases ht' with ht' | rfl
    . exact h.old t' ht'
    . exact (hd.names g tg t' hg hmem).1
  . intro i g' ts' tgi hi hgi
    rw [hgroups] at hgi
    rw [hcalls, update_apply] at hi
    split at hi
    . cases hi
      cases hg.symm.trans hgi
      refine ⟨done ++ [t], by simp [hthrds], ?_, ?_⟩
      . intro t' ht'
        rw [List.mem_append, List.mem_singleton] at ht' ⊢
        exact ht'.imp_left (hdone t')
      . intro t' ht'
        rw [List.mem_append, List.mem_singleton, not_or]
        refine ⟨hrest t' (List.mem_cons_of_mem t ht'), ?_⟩
        rintro rfl
        exact hts ht'
    . next hne =>
      obtain ⟨done', hthrds', hdone', hrest'⟩ := h.rest i g' ts' tgi hi hgi
      have hgne : g' ≠ g := by
        rintro rfl
        exact not_unjoined ho (DrainInv.unjoined_owned hk) hne hi
      refine ⟨done', hthrds', ?_, ?_⟩
      . intro t' ht'
        exact List.mem_append_left [t] (hdone' t' ht')
      . intro t' ht'
        refine hother g' tgi t' hgi hgne ?_ (hrest' t' ht')
        rw [hthrds']
        exact List.mem_append_right done' ht'
  . intro i tgi hi hwhole t' ht'
    rw [hgroups] at hi
    have hne : i ≠ g := by
      rintro rfl
      apply hwhole k ts
      rw [hcalls, update_self]
      rfl
    refine hother i tgi t' hi hne ht' (h.whole i tgi hi ?_ t' ht')
    intro j ts' hj
    by_cases hjk : j = k
    . rw [hjk, hk] at hj
      cases hj
      exact hne rfl
    . apply hwhole j ts'
      rw [hcalls, update_of_ne hjk]
      exact hj

theorem spawn {tg : TGroup} (tg' : TGroup) (work : Option Nat) (h : JoinInv s joined)
    (hg : s.groups g = some tg) (hthrds : tg'.thrds = tg.thrds)
    (hnot : ∀ i ts, (s.calls i).unjoined ≠ some (g, ts))
    (hgroups : s'.groups = (s.spawn g tg' work).groups)
    (hunjoined : ∀ i, (s'.calls i).unjoined = (s.calls i).unjoined)
    (hnext : s'.nextThrd = s.nextThrd + 1)
    : JoinInv s' joined := by
  simp only [Sys.spawn, Sys.setGroup, Sys.setThrd] at hgroups
  constructor
  . exact h.nodup
  . intro t ht
    have := h.old t ht
    omega
  . intro i g' ts tgi hi hgi
    rw [hunjoined] at hi
    rcases setGroup_cases hgroups hgi with ⟨rfl, _⟩ | ⟨_, hgi⟩
    . exact absurd hi (hnot i ts)
    . exact h.rest i g' ts tgi hi hgi
  . intro i tgi hi hwhole t ht
    rcases setGroup_cases hgroups hi with ⟨rfl, rfl⟩ | ⟨_, hi⟩
    . rw [List.mem_append, List.mem_singleton, hthrds] at ht
      rcases ht with ht | rfl
      . exact h.whole i tg hg hnot t ht
      . intro hmem
        have := h.old s.nextThrd hmem
        omega
    . refine h.whole i tgi hi ?_ t ht
      intro j ts
      rw [← hunjoined]
      exact hwhole j ts

theorem joins_cases (hs : CallStep s k s')
    : (∃ g t ts by_, s.calls k = .join g (t :: ts) by_ ∧ s' = s.setCall k (.join g ts by_)) ∨
      (s.calls k).joins = [] := by
  cases hs with
  | join g t ts by_ hpc hnil => exact .inl ⟨g, t, ts, by_, hpc, rfl⟩
  | block before hpc | endWait before hpc => rcases hpc with hpc | ⟨hpc, _⟩ <;> simp [hpc, CallPc.joins]
  | _ => simp [CallPc.joins, *]

theorem caller_quiet (h : JoinInv s joined) (ho : Ledger.Owned s.ledger) (hf : Fresh s)
    (hquiet : (s.calls k).joins = []) (hs : CallStep s k s')
    : JoinInv s' joined := by
  cases hs with
  | join g t ts by_ hpc hnil =>
    rw [hpc] at hquiet
    cases hquiet
  | close g by_ tg hpc hg => exact h.close ho hpc hg rfl rfl rfl rfl
  | build min max flags hpc =>
    refine h.build ho hf rfl rfl rfl ?_ rfl
    rw [hpc]
    rfl
  | spawn g n max tg hpc hg =>
    refine h.spawn tg none hg rfl ?_ rfl ?_ rfl
    . intro i ts
      by_cases hik : i = k
      . rw [hik, hpc]
        simp [CallPc.unjoined]
      . apply not_unjoined ho _ hik
        rw [hpc]
        rfl
    . intro i
      simp only [Sys.setCall, update_apply]
      split
      . next heq =>
        rw [heq, hpc]
        rfl
      . rfl
  | endJoinPool g tg hpc hg | refund g tg hpc hg =>
    refine h.release ho ?_ rfl rfl rfl rfl
    rw [hpc]
    rfl
  | endSpawn g max tg hpc hg | endWake g ts by_ tg hpc hg | reserve g w tg t rest hpc hg
  | flag g gs before tg hpc hg =>
    refine h.setCall ho rfl ?_ (keeps_setGroup rfl hg rfl) rfl
    rw [hpc]
    rfl
  | wake g ts by_ tg t rest tt hpc hg => exact h.frame ho (keeps_setGroup rfl hg rfl) rfl rfl
  | queue g w tg pc hpc hg hlock hclose hidle hfull hnext =>
    refine h.setCall ho rfl ?_ (keeps_setGroup rfl hg rfl) rfl
    rcases hnext with rfl | rfl <;> rw [hpc] <;> rfl
  | full g w tg pc hpc hg hlock hclose hidle hfull hnext =>
    refine h.setCall ho rfl ?_ (keeps_of_eq rfl) rfl
    rcases hnext with rfl | rfl <;> rw [hpc] <;> rfl
  | block before hpc | endWait before hpc =>
    refine h.setCall ho rfl ?_ (keeps_of_eq rfl) rfl
    rcases hpc with hpc | ⟨hpc, _⟩ <;> rw [hpc] <;> rfl
  | checkFail min max flags hpc | check min max min' max' flags hpc | chargeFirst g max hpc | charge g max hpc
  | unlink g hpc | endJoinGroup g hpc | killDead hpc | kill hpc | readManager m hpc | joinManager m hpc
  | relock hpc | popGroup g rest hpc | freePool hpc | refuse g w tg hpc | notify w rc hpc | hand g t w tt hpc
  | success w hpc | failure w rc hpc | waitStart before hpc | skip g gs before tg hpc
  | waitReturn before hpc =>
    refine h.setCall ho rfl ?_ (keeps_of_eq rfl) rfl
    rw [hpc]
    rfl

theorem caller (h : JoinInv s joined) (ho : Ledger.Owned s.ledger) (hf : Fresh s) (hd : DrainInv s)
    (htable : TableInv s) (hs : CallStep s k s')
    : JoinInv s' (joined ++ (s.calls k).joins) := by
  rcases joins_cases hs with ⟨g, t, ts, by_, hpc, rfl⟩ | hquiet
  . rw [hpc]
    exact h.join ho hd htable hpc rfl rfl rfl
  . rw [hquiet, List.append_nil]
    exact h.caller_quiet ho hf hquiet hs

theorem worker (h : JoinInv s joined) (ho : Ledger.Owned s.ledger) (hs : WorkerStep s t s')
    : JoinInv s' joined := by
  cases hs with
  | fetch tt tg w rest ht hpc hg | goIdle tt tg wait ht hpc hg | leave tt tg ht hpc hg =>
    exact h.frame ho (keeps_setGroup rfl hg rfl) rfl rfl
  | _ => exact h.frame ho (keeps_of_eq rfl) rfl rfl

theorem manager {m : Nat} (h : JoinInv s joined) (ho : Ledger.Owned s.ledger) (hm : Managing s)
    (hs : ManagerStep s m s')
    : JoinInv s' joined := by
  -- A group that the manager looks at is linked, and nobody destroys it.
  have hnot : ∀ g n gs, s.managers m = .spawn g n gs → ∀ i ts, (s.calls i).unjoined ≠ some (g, ts) := by
    intro g n gs hpc i ts hi
    have hlinked : g ∈ s.pool.groups.items := by
      apply hm m g
      rw [hpc]
      apply List.mem_cons_self
    exact (ho.owned i g (DrainInv.unjoined_owned hi)).2 hlinked
  cases hs with
  | stay hpc => exact h
  | look g gs tg hpc hg => exact h.frame ho (keeps_setGroup rfl hg rfl) rfl rfl
  | endSpawn g gs tg hpc hg => exact h.frame ho (keeps_setGroup rfl hg rfl) rfl rfl
  | spawnTask g n gs tg w rest hpc hg =>
    exact h.spawn { tg with q := { tg.q with work := ⟨rest, tg.q.work.len - 1⟩ } } (some w) hg rfl
      (hnot g (n + 1) gs hpc) rfl (fun _ => rfl) rfl
  | spawnNone g n gs tg hpc hg =>
    exact h.spawn tg none hg rfl (hnot g (n + 1) gs hpc) rfl (fun _ => rfl) rfl
  | exit hpc | pass hpc | endPass hpc => exact h.frame ho (keeps_of_eq rfl) rfl rfl

theorem start {req : Req} (h : JoinInv s joined) (ho : Ledger.Owned s.ledger) (hf : Fresh s)
    (hs : StartStep s req s')
    : JoinInv s' joined := by
  have hnone : (s.calls s.nextCall).unjoined = none := by
    rw [hf.nextCall_eq_returned]
    rfl
  cases hs <;> exact h.setCall ho rfl hnone.symm (keeps_of_eq rfl) rfl

theorem step {a : Action} (h : JoinInv s joined) (hi : PoolInv s) (htable : TableInv s) (hs : Step s a s')
    : JoinInv s' (joined ++ s.joins a) := by
  cases hs with
  | caller k s' hs => exact h.caller hi.owned hi.fresh hi.drain htable hs
  | start req s' hs =>
    rw [Sys.joins, List.append_nil]
    . exact h.start hi.owned hi.fresh hs
    . simp
  | worker t s' hs =>
    rw [Sys.joins, List.append_nil]
    . exact h.worker hi.owned hs
    . simp
  | manager m timedOut s' hs =>
    rw [Sys.joins, List.append_nil]
    . exact h.manager hi.owned hi.managing hs
    . simp

end JoinInv

structure TGroup.Staffed (s : Sys) (g : Nat) (tg : TGroup) : Prop where
  limits : tg.Limits
  difference : sub32 tg.thrdMax tg.numThrds = tg.thrdMax - tg.numThrds
  started : (∀ k, ¬ (s.calls k).Building g) → tg.thrdMin ≤ tg.numThrds
  own : ∀ t ∈ tg.thrds, t < s.nextThrd ∧ ∀ tt, s.thrds t = some tt → tt.tg = g
  apart : ∀ t ∈ tg.thrds, ∀ g' tg', s.groups g' = some tg' → t ∈ tg'.thrds → g = g'
  counted : tg.groupClose = false → tg.numThrds = tg.idleThrds.len + tg.activeThrds.len
  placed : tg.groupClose = false → ∀ t ∈ tg.thrds,
    Xor (t ∈ tg.idleThrds.items) (t ∈ tg.activeThrds.items) ∧ tg.members.count t = 1

/--
The step writes at most one entry of the table, the first one that is not used.
-/
structure TGroup.Writes (t : Nat) (tg tg' : TGroup) : Prop where
  limits : (tg'.thrdMin, tg'.thrdMax, tg'.thrdsAlloc) = (tg.thrdMin, tg.thrdMax, tg.thrdsAlloc)
  entry : tg'.thrds = tg.thrds ∨ tg'.thrds = tg.thrds ++ [t] ∧ tg.numThrds < tg.thrdsAlloc

structure Tables (s : Sys) (joined : List Nat) : Prop where
  staffed : ∀ g tg, s.groups g = some tg → tg.Staffed s g
  writes : ∀ a s' g tg tg', s.step a = some s' → s.groups g = some tg → s'.groups g = some tg' →
    tg.Writes s.nextThrd tg'
  once : joined.Nodup
  unjoined : ∀ g tg, s.groups g = some tg → (∀ k ts, (s.calls k).unjoined ≠ some (g, ts)) →
    ∀ t ∈ tg.thrds, t ∉ joined
  all : ∀ a s' g tg, s.step a = some s' → s.groups g = some tg → s'.groups g = none →
    ∀ t ∈ tg.thrds, t ∈ joined

section

variable {s s' : Sys} {g t k m : Nat} {tg tg' : TGroup}

namespace GroupInv

theorem mem_members_iff (h : GroupInv s) (hg : s.groups g = some tg) (hclose : tg.groupClose = false)
    : t ∈ tg.members ↔ t ∈ tg.thrds := by
  constructor
  . exact h.lists.named g tg t hg
  . intro ht
    rw [h.lists.members g tg t hg]
    cases htt : s.thrds t with
    | none =>
      have hdrained := h.drain.left g tg t hg ht htt
      rw [(h.drain.sound g tg hg).close hdrained.1] at hclose
      cases hclose
    | some tt => rw [Option.map_some, (h.drain.names g tg t hg ht).2 tt htt]

theorem numThrds_eq (h : GroupInv s) (htable : TableInv s) (hg : s.groups g = some tg)
    (hclose : tg.groupClose = false)
    : tg.numThrds = tg.idleThrds.len + tg.activeThrds.len := by
  have hperm : tg.thrds.Perm tg.members := by
    refine (List.perm_ext_iff_of_nodup (htable.limits g tg hg).nodup (h.lists.nodup g tg hg)).mpr ?_
    intro t
    exact (h.mem_members_iff hg hclose).symm
  obtain ⟨hidle, hactive⟩ := h.threads.coherent g tg hg
  rw [TGroup.numThrds, hperm.length_eq, TGroup.members, List.length_append, hidle, hactive]

theorem exactlyOne (h : GroupInv s) (hg : s.groups g = some tg) (ht : t ∈ tg.members)
    : Xor (t ∈ tg.idleThrds.items) (t ∈ tg.activeThrds.items) := by
  have hdisjoint := (List.nodup_append.mp (h.lists.nodup g tg hg)).2.2
  rcases List.mem_append.mp ht with hidle | hactive
  . exact .inl ⟨hidle, fun hactive => hdisjoint t hidle t hactive rfl⟩
  . exact .inr ⟨hactive, fun hidle => hdisjoint t hidle t hactive rfl⟩

theorem staffed (h : GroupInv s) (htable : TableInv s) (hg : s.groups g = some tg) : tg.Staffed s g := by
  have hlimits := htable.limits g tg hg
  constructor
  . exact hlimits
  . exact sub32_of_le hlimits.num_le
  . intro hnot
    rcases htable.staffed g tg hg with hle | ⟨k, hk⟩
    . exact hle
    . exact absurd hk (hnot k)
  . exact fun t ht => h.drain.names g tg t hg ht
  . exact fun t ht g' tg' hg' ht' => htable.apart g g' tg tg' t hg hg' ht ht'
  . exact h.numThrds_eq htable hg
  . intro hclose t ht
    have hmem := (h.mem_members_iff hg hclose).mpr ht
    exact ⟨h.exactlyOne hg hmem, List.count_eq_one_of_mem (h.lists.nodup g tg hg) hmem⟩

end GroupInv

theorem writes_of_keeps (hkeeps : Keeps TGroup.table s s') (hg : s.groups g = some tg)
    (hg' : s'.groups g = some tg')
    : tg.Writes t tg' := by
  obtain ⟨tg₀, hg₀, heq⟩ := hkeeps g tg' hg'
  cases hg.symm.trans hg₀
  obtain ⟨hthrds, hmin, hmax, halloc⟩ := TableInv.table_eq heq
  exact ⟨by rw [hmin, hmax, halloc], .inl hthrds⟩

theorem writes_of_spawn {i : Nat} {tgi : TGroup} (tgi' : TGroup) (work : Option Nat)
    (hi : s.groups i = some tgi) (htable : tgi'.table = tgi.table) (hroom : tgi.numThrds < tgi.thrdsAlloc)
    (hgroups : s'.groups = (s.spawn i tgi' work).groups) (hg : s.groups g = some tg)
    (hg' : s'.groups g = some tg')
    : tg.Writes s.nextThrd tg' := by
  simp only [Sys.spawn, Sys.setGroup, Sys.setThrd] at hgroups
  rcases setGroup_cases hgroups hg' with ⟨rfl, rfl⟩ | ⟨_, hg'⟩
  . cases hg.symm.trans hi
    obtain ⟨hthrds, hmin, hmax, halloc⟩ := TableInv.table_eq htable
    constructor
    . simp only [hmin, hmax, halloc]
    . simp only [hthrds]
      exact .inr ⟨trivial, hroom⟩
  . cases hg.symm.trans hg'
    exact ⟨rfl, .inl rfl⟩

namespace TableInv

theorem writes_caller (h : TableInv s) (hf : Fresh s) (hs : CallStep s k s') (hg : s.groups g = some tg)
    (hg' : s'.groups g = some tg')
    : tg.Writes s.nextThrd tg' := by
  cases hs with
  | build min max flags hpc =>
    rcases setGroup_cases rfl hg' with ⟨rfl, _⟩ | ⟨_, hg'⟩
    . rw [hf.nextGroup_eq_none] at hg
      cases hg
    . cases hg.symm.trans hg'
      exact ⟨rfl, .inl rfl⟩
  | spawn i n max tgi hpc hi =>
    have hlimits := h.limits i tgi hi
    have hnum := h.building k i (n + 1) max tgi hpc hi
    have hmin := hlimits.min_le
    have halloc := hlimits.alloc
    exact writes_of_spawn tgi none hi rfl (by omega) rfl hg hg'
  | endSpawn i max tgi hpc hi | close i by_ tgi hpc hi | wake i ts by_ tgi t rest tt hpc hi
  | endWake i ts by_ tgi hpc hi | queue i w tgi pc hpc hi | reserve i w tgi t rest hpc hi
  | flag i gs before tgi hpc hi =>
    refine writes_of_keeps ?_ hg hg'
    exact keeps_setGroup rfl hi rfl
  | endJoinPool i tgi hpc hi | refund i tgi hpc hi => exact writes_of_keeps (keeps_freeGroup rfl) hg hg'
  | _ => exact writes_of_keeps (keeps_of_eq rfl) hg hg'

theorem writes_manager (h : TableInv s) (hs : ManagerStep s m s') (hg : s.groups g = some tg)
    (hg' : s'.groups g = some tg')
    : tg.Writes s.nextThrd tg' := by
  have hroom : ∀ i n gs tgi, s.managers m = .spawn i (n + 1) gs → s.groups i = some tgi →
      tgi.numThrds < tgi.thrdsAlloc := by
    intro i n gs tgi hpc hi
    have hnum := h.adding m i (n + 1) gs tgi hpc hi
    have halloc := (h.limits i tgi hi).alloc
    omega
  cases hs with
  | look i gs tgi hpc hi | endSpawn i gs tgi hpc hi =>
    refine writes_of_keeps ?_ hg hg'
    exact keeps_setGroup rfl hi rfl
  | spawnTask i n gs tgi w rest hpc hi =>
    exact writes_of_spawn { tgi with q := { tgi.q with work := ⟨rest, tgi.q.work.len - 1⟩ } } (some w) hi rfl
      (hroom i n gs tgi hpc hi) rfl hg hg'
  | spawnNone i n gs tgi hpc hi =>
    exact writes_of_spawn tgi none hi rfl (hroom i n gs tgi hpc hi) rfl hg hg'
  | _ => exact writes_of_keeps (keeps_of_eq rfl) hg hg'

theorem writes {a : Action} (h : TableInv s) (hf : Fresh s) (hs : Step s a s') (hg : s.groups g = some tg)
    (hg' : s'.groups g = some tg')
    : tg.Writes s.nextThrd tg' := by
  cases hs with
  | start req s' hs => cases hs <;> exact writes_of_keeps (keeps_of_eq rfl) hg hg'
  | caller k s' hs => exact h.writes_caller hf hs hg hg'
  | worker t s' hs =>
    cases hs with
    | fetch tt tgi w rest ht hpc hi | goIdle tt tgi wait ht hpc hi | leave tt tgi ht hpc hi =>
      refine writes_of_keeps ?_ hg hg'
      exact keeps_setGroup rfl hi rfl
    | _ => exact writes_of_keeps (keeps_of_eq rfl) hg hg'
  | manager m timedOut s' hs => exact h.writes_manager hs hg hg'

end TableInv

theorem freed_of_step {a : Action} (hs : Step s a s') (hg : s.groups g = some tg) (hfree : s'.groups g = none)
    : ∃ k, (s.calls k).unjoined = some (g, []) := by
  have hsame : s'.groups ≠ s.groups := by
    intro heq
    rw [heq, hg] at hfree
    cases hfree
  have hset : ∀ i tgi, s'.groups ≠ update s.groups i (some tgi) := by
    intro i tgi heq
    rw [heq, update_apply] at hfree
    split at hfree
    . cases hfree
    . rw [hg] at hfree
      cases hfree
  have hfreed : ∀ i, s'.groups = update s.groups i none → i = g := by
    intro i heq
    by_contra hne
    rw [heq, update_of_ne (Ne.symm hne), hg] at hfree
    cases hfree
  cases hs with
  | start req s' hs => cases hs <;> exact absurd rfl hsame
  | caller k s' hs =>
    cases hs with
    | endJoinPool i tgi hpc | refund i tgi hpc =>
      cases hfreed i rfl
      refine ⟨k, ?_⟩
      rw [hpc]
      rfl
    | build | spawn | endSpawn | close | wake | endWake | queue | reserve | flag => exact absurd rfl (hset _ _)
    | _ => exact absurd rfl hsame
  | worker t s' hs =>
    cases hs with
    | fetch | goIdle | leave => exact absurd rfl (hset _ _)
    | _ => exact absurd rfl hsame
  | manager m timedOut s' hs =>
    cases hs with
    | look | spawnTask | spawnNone | endSpawn => exact absurd rfl (hset _ _)
    | _ => exact absurd rfl hsame

theorem JoinInv.all {joined : List Nat} (h : JoinInv s joined) (hk : (s.calls k).unjoined = some (g, []))
    (hg : s.groups g = some tg) (ht : t ∈ tg.thrds)
    : t ∈ joined := by
  obtain ⟨done, hthrds, hdone, _⟩ := h.rest k g [] tg hk hg
  rw [hthrds, List.append_nil] at ht
  exact hdone t ht

end

theorem joinInv_of_run {maxThrds : Nat} {tp : TPool} {as : List Action} {s : Sys}
    (hinit : TPool.initPool maxThrds = some tp) (hrun : run (.init tp) as = some s)
    : GroupInv s ∧ TableInv s ∧ JoinInv s (Lts.record Sys.step Sys.joins (.init tp) as) := by
  have hrec : ∀ s joined a s', GroupInv s ∧ TableInv s ∧ JoinInv s joined → s.step a = some s' →
      GroupInv s' ∧ TableInv s' ∧ JoinInv s' (joined ++ s.joins a) := by
    rintro s joined a s' ⟨hgroup, htable, hjoin⟩ hs
    have hs := step_of_step hs
    exact ⟨hgroup.step hs, htable.step hgroup.fresh hgroup.drain hgroup.groupLock hs,
      hjoin.step hgroup.toPoolInv htable hs⟩
  exact Lts.invariant_record hrec ⟨GroupInv.init hinit, TableInv.init tp, JoinInv.init tp⟩ hrun

theorem tables_of_run {maxThrds : Nat} {tp : TPool} {as : List Action} {s : Sys}
    (hinit : TPool.initPool maxThrds = some tp) (hrun : run (.init tp) as = some s)
    : Tables s (Lts.record Sys.step Sys.joins (.init tp) as) := by
  obtain ⟨hgroup, htable, hjoin⟩ := joinInv_of_run hinit hrun
  constructor
  . exact fun g tg hg => hgroup.staffed htable hg
  . intro a s' g tg tg' hs hg hg'
    exact htable.writes hgroup.fresh (step_of_step hs) hg hg'
  . exact hjoin.nodup
  . exact hjoin.whole
  . intro a s' g tg hs hg hfree t ht
    obtain ⟨k, hk⟩ := freed_of_step (step_of_step hs) hg hfree
    exact hjoin.all hk hg ht

def addDestroy : List Action :=
  .call (.addGroup 1 2 0) :: List.replicate 5 (.caller 0) ++
    .call (.destroyGroup 0) :: List.replicate 3 (.caller 1) ++ List.replicate 3 (.worker 0) ++
    List.replicate 3 (.caller 1)

theorem tables_destroyed_group
    : ∃ tp s, TPool.initPool 4 = some tp ∧ run (.init tp) addDestroy = some s ∧
        Tables s (Lts.record Sys.step Sys.joins (.init tp) addDestroy) ∧
        Lts.record Sys.step Sys.joins (.init tp) addDestroy = [0] ∧ s.groups 0 = none := by
  refine ⟨_, _, rfl, rfl, ?_, rfl, rfl⟩
  exact @tables_of_run 4 _ addDestroy _ rfl rfl

end Pool
