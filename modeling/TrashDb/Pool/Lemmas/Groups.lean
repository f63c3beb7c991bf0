import TrashDb.Lib.Ledger
import TrashDb.Pool.Step

/-!
This module contains who has a group, and what the pool was charged for it. A pool is a ledger whose
clients are the calls and whose resources are the groups: `add_group` is granted threads in its first
section and charged in its second, `destroy_group` and `destroy_pool` take a group out of the list and
refund its `thrdMax`. The steps of the pool are steps of the ledger.
-/

namespace Pool

open Function

/--
Names that are not in use yet.
-/
structure Fresh (s : Sys) : Prop where
  calls : ∀ k, s.calls k ≠ .returned → k < s.nextCall
  groups : ∀ g, s.groups g ≠ none → g < s.nextGroup
  thrds : ∀ t, s.thrds t ≠ none → t < s.nextThrd

namespace Fresh

variable {s s' : Sys}

theorem init (tp : TPool) : Fresh (.init tp) := by
  constructor <;> intro i hi <;> exact absurd rfl hi

theorem nextCall_eq_returned (h : Fresh s) : s.calls s.nextCall = .returned := by
  by_contra hne
  have := h.calls s.nextCall hne
  omega

theorem nextGroup_eq_none (h : Fresh s) : s.groups s.nextGroup = none := by
  by_contra hne
  have := h.groups s.nextGroup hne
  omega

theorem nextThrd_eq_none (h : Fresh s) : s.thrds s.nextThrd = none := by
  by_contra hne
  have := h.thrds s.nextThrd hne
  omega

theorem start {req : Req} (h : Fresh s) (hs : StartStep s req s') : Fresh s' := by
  have hcalls : ∀ k pc, update s.calls s.nextCall pc k ≠ .returned → k < s.nextCall + 1 := by
    intro k pc hk
    rw [update_apply] at hk
    split at hk
    . omega
    . have := h.calls k hk
      omega
  cases hs <;> exact ⟨fun k hk => hcalls k _ hk, h.groups, h.thrds⟩

theorem setCall {k : Nat} {pc : CallPc} (h : Fresh s) (hk : s.calls k ≠ .returned)
    (hcalls : s'.calls = update s.calls k pc) (hnextCall : s'.nextCall = s.nextCall)
    (hgroups : ∀ g, s'.groups g ≠ none → g < s'.nextGroup)
    (hthrds : ∀ t, s'.thrds t ≠ none → t < s'.nextThrd)
    : Fresh s' := by
  refine ⟨?_, hgroups, hthrds⟩
  intro i hi
  rw [hcalls, update_apply] at hi
  rw [hnextCall]
  split at hi
  . next heq =>
    rw [heq]
    apply h.calls k hk
  . apply h.calls i hi

theorem setGroup {g : Nat} {tg tg' : TGroup} (h : Fresh s) (hg : s.groups g = some tg)
    : ∀ i, update s.groups g (some tg') i ≠ none → i < s.nextGroup := by
  intro i hi
  rw [update_apply] at hi
  split at hi
  . next heq =>
    rw [heq]
    apply h.groups g
    rw [hg]
    nofun
  . apply h.groups i hi

theorem newGroup {tg : TGroup} (h : Fresh s)
    : ∀ i, update s.groups s.nextGroup (some tg) i ≠ none → i < s.nextGroup + 1 := by
  intro i hi
  rw [update_apply] at hi
  split at hi
  . omega
  . have := h.groups i hi
    omega

theorem freeGroup {g : Nat} (h : Fresh s)
    : ∀ i, update s.groups g none i ≠ none → i < s.nextGroup := by
  intro i hi
  rw [update_apply] at hi
  split at hi
  . exact absurd rfl hi
  . apply h.groups i hi

theorem setThrd {t : Nat} {tt tt' : TThread} (h : Fresh s) (ht : s.thrds t = some tt)
    : ∀ i, update s.thrds t (some tt') i ≠ none → i < s.nextThrd := by
  intro i hi
  rw [update_apply] at hi
  split at hi
  . next heq =>
    rw [heq]
    apply h.thrds t
    rw [ht]
    nofun
  . apply h.thrds i hi

theorem newThrd {tt : TThread} (h : Fresh s)
    : ∀ i, update s.thrds s.nextThrd (some tt) i ≠ none → i < s.nextThrd + 1 := by
  intro i hi
  rw [update_apply] at hi
  split at hi
  . omega
  . have := h.thrds i hi
    omega

theorem caller {k : Nat} (h : Fresh s) (hs : CallStep s k s') : Fresh s' := by
  cases hs with
  | build min max flags hpc =>
    exact h.setCall (by rw [hpc]; nofun) rfl rfl h.newGroup h.thrds
  | spawn g n max tg hpc hg =>
    exact h.setCall (by rw [hpc]; nofun) rfl rfl (h.setGroup hg) h.newThrd
  | endSpawn g max tg hpc hg =>
    exact h.setCall (by rw [hpc]; nofun) rfl rfl (h.setGroup hg) h.thrds
  | close g by_ tg hpc hg =>
    exact h.setCall (by rw [hpc]; nofun) rfl rfl (h.setGroup hg) h.thrds
  | wake g ts by_ tg t rest tt hpc hg hlen hitems ht =>
    exact ⟨h.calls, h.setGroup hg, h.setThrd ht⟩
  | endWake g ts by_ tg hpc hg =>
    exact h.setCall (by rw [hpc]; nofun) rfl rfl (h.setGroup hg) h.thrds
  | endJoinPool g tg hpc hg =>
    exact h.setCall (by rw [hpc]; nofun) rfl rfl h.freeGroup h.thrds
  | refund g tg hpc hg =>
    exact h.setCall (by rw [hpc]; nofun) rfl rfl h.freeGroup h.thrds
  | queue g w tg pc hpc hg =>
    exact h.setCall (by rw [hpc]; nofun) rfl rfl (h.setGroup hg) h.thrds
  | reserve g w tg t rest hpc hg =>
    exact h.setCall (by rw [hpc]; nofun) rfl rfl (h.setGroup hg) h.thrds
  | hand g t w tt hpc ht =>
    exact h.setCall (by rw [hpc]; nofun) rfl rfl h.groups (h.setThrd ht)
  | flag g gs before tg hpc hg =>
    exact h.setCall (by rw [hpc]; nofun) rfl rfl (h.setGroup hg) h.thrds
  | block before hpc =>
    refine h.setCall ?_ rfl rfl h.groups h.thrds
    rcases hpc with hpc | hpc <;> simp [hpc]
  | endWait before hpc =>
    refine h.setCall ?_ rfl rfl h.groups h.thrds
    rcases hpc with hpc | hpc <;> simp [hpc]
  | _ =>
    refine h.setCall ?_ rfl rfl h.groups h.thrds
    simp [*]

theorem worker {t : Nat} (h : Fresh s) (hs : WorkerStep s t s') : Fresh s' := by
  cases hs with
  | fetch tt tg w rest ht hpc hg => exact ⟨h.calls, h.setGroup hg, h.setThrd ht⟩
  | goIdle tt tg wait ht hpc hg => exact ⟨h.calls, h.setGroup hg, h.setThrd ht⟩
  | leave tt tg ht hpc hg =>
    refine ⟨h.calls, h.setGroup hg, ?_⟩
    intro i hi
    simp only [Sys.freeThrd, Sys.setGroup, update_apply] at hi
    split at hi
    . exact absurd rfl hi
    . apply h.thrds i hi
  | topTask tt w ht => exact ⟨h.calls, h.groups, h.setThrd ht⟩
  | topNone tt ht => exact ⟨h.calls, h.groups, h.setThrd ht⟩
  | call tt w ht => exact ⟨h.calls, h.groups, h.setThrd ht⟩
  | inFunc tt w ht => exact ⟨h.calls, h.groups, h.setThrd ht⟩
  | ret tt w ht => exact ⟨h.calls, h.groups, h.setThrd ht⟩
  | hardKill tt tg ht => exact ⟨h.calls, h.groups, h.setThrd ht⟩
  | softKill tt tg ht => exact ⟨h.calls, h.groups, h.setThrd ht⟩
  | decr tt ht => exact ⟨h.calls, h.groups, h.setThrd ht⟩
  | block tt ht => exact ⟨h.calls, h.groups, h.setThrd ht⟩
  | awake tt ht => exact ⟨h.calls, h.groups, h.setThrd ht⟩

theorem manager {m : Nat} (h : Fresh s) (hs : ManagerStep s m s') : Fresh s' := by
  cases hs with
  | look g gs tg hpc hg => exact ⟨h.calls, h.setGroup hg, h.thrds⟩
  | spawnTask g n gs tg w rest hpc hg => exact ⟨h.calls, h.setGroup hg, h.newThrd⟩
  | spawnNone g n gs tg hpc hg => exact ⟨h.calls, h.setGroup hg, h.newThrd⟩
  | endSpawn g gs tg hpc hg => exact ⟨h.calls, h.setGroup hg, h.thrds⟩
  | _ => exact ⟨h.calls, h.groups, h.thrds⟩

theorem step {a : Action} (h : Fresh s) (hs : Step s a s') : Fresh s' := by
  cases hs with
  | start req s' hs => apply h.start hs
  | caller k s' hs => apply h.caller hs
  | worker t s' hs => apply h.worker hs
  | manager m timedOut s' hs => apply h.manager hs

end Fresh

theorem nextCall_le {s s' : Sys} {a : Action} (hs : Step s a s') : s.nextCall ≤ s'.nextCall := by
  cases hs with
  | start req s' hs => cases hs <;> exact Nat.le_succ _
  | caller k s' hs => cases hs <;> exact Nat.le_refl _
  | worker t s' hs => cases hs <;> exact Nat.le_refl _
  | manager m timedOut s' hs => cases hs <;> exact Nat.le_refl _

def groupSize (min max : Nat) (flags : Int) : Nat :=
  if flags == groupFixed || min == max then min else max

def CallPc.phase : CallPc → Ledger.Phase Nat
  | .addBuild min max flags => .granted (groupSize min max flags) max
  | .addSpawn g _ max | .addCharge g max => .held g max
  | .close g _ | .wake g _ _ | .join g _ _ | .refund g => .closing g
  | _ => .none

def Sys.ledger (s : Sys) : Ledger.State Nat Nat where
  limit := s.pool.thrdMax
  total := s.pool.totalThrds
  linked := s.pool.groups.items
  size g := (s.groups g).map TGroup.thrdMax
  phase k := (s.calls k).phase
  clients := Finset.range s.nextCall

def Sys.ledgerEvent (s : Sys) : Action → Ledger.Event Nat Nat
  | .call _ => .enter s.nextCall
  | .caller k =>
    match s.calls k with
    | .addCheck min max flags =>
      match s.pool.addGroupCheck min max with
      | none => .stay
      | some (min, max) => .grant k (groupSize min max flags) max
    | .addBuild _ _ _ => .create k s.nextGroup
    | .addCharge _ _ => .link k
    | .unlink g => .unlink k g
    | .popGroups =>
      match s.pool.groups.listPop with
      | (some (.item g), _) => .unlink k g
      | _ => .stay
    | .refund _ | .join _ [] .destroyPool => .release k
    | _ => .stay
  | .worker _ | .manager _ _ => .stay

section

variable {s s' : Sys} {k : Nat}

theorem phase_update {calls : Nat → CallPc} {pc : CallPc}
    : (fun i => (update calls k pc i).phase) = update (fun i => (calls i).phase) k pc.phase := by
  funext i
  rw [update_apply, update_apply]
  split <;> rfl

theorem size_update {groups : Nat → Option TGroup} {g : Nat} {tg : Option TGroup}
    : (fun i => (update groups g tg i).map TGroup.thrdMax) =
        update (fun i => (groups i).map TGroup.thrdMax) g (tg.map TGroup.thrdMax) := by
  funext i
  rw [update_apply, update_apply]
  split <;> rfl

theorem size_setGroup {g : Nat} {tg tg' : TGroup} (hg : s.groups g = some tg)
    (hmax : tg'.thrdMax = tg.thrdMax)
    : (fun i => (update s.groups g (some tg') i).map TGroup.thrdMax) =
        fun i => (s.groups i).map TGroup.thrdMax := by
  rw [size_update, update_eq_self_iff, hg]
  simp [hmax]

theorem ledger_setGroup {g : Nat} {tg tg' : TGroup} (hg : s.groups g = some tg)
    (hmax : tg'.thrdMax = tg.thrdMax)
    : (s.setGroup g tg').ledger = s.ledger := by
  simp only [Sys.ledger, Sys.setGroup]
  rw [size_setGroup hg hmax]

theorem ledger_spawn {g : Nat} {tg tg' : TGroup} {work : Option Nat} (hg : s.groups g = some tg)
    (hmax : tg'.thrdMax = tg.thrdMax)
    : (s.spawn g tg' work).ledger = s.ledger :=
  ledger_setGroup hg hmax

theorem ledger_setThrd (s : Sys) (t : Nat) (tt : TThread) : (s.setThrd t tt).ledger = s.ledger := rfl

theorem ledger_freeThrd (s : Sys) (t : Nat) : (s.freeThrd t).ledger = s.ledger := rfl

theorem ledger_assign (s : Sys) (g w : Nat) : (s.assign g w).ledger = s.ledger := rfl

theorem ledger_setManager (s : Sys) (m : Nat) (pc : ManagerPc)
    : (s.setManager m pc).ledger = s.ledger := rfl

theorem ledger_eq {pc : CallPc} (hcalls : s'.calls = update s.calls k pc)
    (hpc : pc.phase = (s.calls k).phase) (hnext : s'.nextCall = s.nextCall)
    (hmax : s'.pool.thrdMax = s.pool.thrdMax) (htotal : s'.pool.totalThrds = s.pool.totalThrds)
    (hitems : s'.pool.groups.items = s.pool.groups.items)
    (hsize : (fun i => (s'.groups i).map TGroup.thrdMax) = fun i => (s.groups i).map TGroup.thrdMax)
    : s'.ledger = s.ledger := by
  have hphase : (fun i => (s'.calls i).phase) = fun i => (s.calls i).phase := by
    rw [hcalls, phase_update, update_eq_self_iff, hpc]
  unfold Sys.ledger
  rw [hphase, hnext, hmax, htotal, hitems, hsize]

theorem ledgerStep_stay {pc : CallPc} (hevent : s.ledgerEvent (.caller k) = .stay)
    (hcalls : s'.calls = update s.calls k pc) (hpc : pc.phase = (s.calls k).phase)
    (hnext : s'.nextCall = s.nextCall) (hmax : s'.pool.thrdMax = s.pool.thrdMax)
    (htotal : s'.pool.totalThrds = s.pool.totalThrds)
    (hitems : s'.pool.groups.items = s.pool.groups.items)
    (hsize : (fun i => (s'.groups i).map TGroup.thrdMax) = fun i => (s.groups i).map TGroup.thrdMax)
    : Ledger.Step s.ledger (s.ledgerEvent (.caller k)) s'.ledger := by
  rw [hevent, ledger_eq hcalls hpc hnext hmax htotal hitems hsize]
  apply Ledger.Step.stay

theorem ledger_setCall (s : Sys) (k : Nat) (pc : CallPc)
    : (s.setCall k pc).ledger = s.ledger.setPhase k pc.phase := by
  simp only [Sys.ledger, Sys.setCall, phase_update, Ledger.State.setPhase]

theorem mem_clients (h : Fresh s) (hk : s.calls k ≠ .returned) : k ∈ s.ledger.clients := by
  simp only [Sys.ledger, Finset.mem_range]
  apply h.calls k hk

theorem phase_of_ge (h : Fresh s) (hk : s.nextCall ≤ k) : (s.calls k).phase = .none := by
  by_cases hpc : s.calls k = .returned
  . rw [hpc]
    rfl
  . have := h.calls k hpc
    omega

theorem ledgerStep_start {req : Req} (h : Fresh s) (hs : StartStep s req s')
    : Ledger.Step s.ledger (s.ledgerEvent (.call req)) s'.ledger := by
  have hledger : s'.ledger = { s.ledger with clients := insert s.nextCall s.ledger.clients } := by
    have hphase := phase_of_ge h (Nat.le_refl s.nextCall)
    have hupdate : ∀ pc : CallPc, pc.phase = .none →
        (fun i => (update s.calls s.nextCall pc i).phase) = fun i => (s.calls i).phase := by
      intro pc hpc
      rw [phase_update, update_eq_self_iff, hphase, hpc]
    cases hs <;>
      simp only [Sys.ledger, Sys.startCall, Sys.setCall, Finset.range_add_one] <;>
      rw [hupdate _ rfl]
  rw [hledger]
  apply Ledger.Step.enter s.nextCall
  simp [Sys.ledger]

theorem ledgerStep_grant {min max min' max' : Nat} {flags : Int} (h : Fresh s)
    (hpc : s.calls k = .addCheck min max flags)
    (hcheck : s.pool.addGroupCheck min max = some (min', max'))
    : Ledger.Step s.ledger (s.ledgerEvent (.caller k))
        (s.setCall k (.addBuild min' max' flags)).ledger := by
  simp only [Sys.ledgerEvent, hpc, hcheck, ledger_setCall]
  apply Ledger.Step.grant
  . apply mem_clients h
    rw [hpc]
    nofun
  . simp only [Sys.ledger, hpc, CallPc.phase]

theorem ledgerStep_create {min max : Nat} {flags : Int} (h : Fresh s)
    (hpc : s.calls k = .addBuild min max flags)
    : Ledger.Step s.ledger (s.ledgerEvent (.caller k))
        ({ s.setGroup s.nextGroup (.newGroup min max flags (.call k)) with
          nextGroup := s.nextGroup + 1 }.setCall k (.addSpawn s.nextGroup min max)).ledger := by
  have hnone := h.nextGroup_eq_none
  have hphase : s.ledger.phase k = .granted (groupSize min max flags) max := by
    simp only [Sys.ledger, hpc, CallPc.phase]
  have hsize : s.ledger.size s.nextGroup = none := by
    simp only [Sys.ledger, hnone, Option.map_none]
  have hstep := Ledger.Step.create k s.nextGroup _ _ hphase hsize
  rw [ledger_setCall]
  simp only [Sys.ledgerEvent, hpc]
  simp only [Sys.ledger, Sys.setGroup, size_update] at hstep ⊢
  exact hstep

theorem ledgerStep_link {g max : Nat} (hpc : s.calls k = .addCharge g max)
    (hcalls : s'.calls = update s.calls k .returned)
    (hpool : s'.pool = s.pool.addGroupCharge g max s.nextManager) (hgroups : s'.groups = s.groups)
    (hnext : s'.nextCall = s.nextCall)
    : Ledger.Step s.ledger (s.ledgerEvent (.caller k)) s'.ledger := by
  have hphase : s.ledger.phase k = .held g max := by
    simp only [Sys.ledger, hpc, CallPc.phase]
  have hstep := Ledger.Step.link k g max hphase
  simp only [Sys.ledgerEvent, hpc]
  simp only [Sys.ledger, Ledger.State.setPhase] at hstep ⊢
  rw [hcalls, hpool, hgroups, hnext, phase_update]
  simp only [TPool.addGroupCharge_thrdMax, TPool.addGroupCharge_totalThrds,
    TPool.addGroupCharge_groups, LL.listAppend_items]
  exact hstep

theorem ledgerStep_unlink {g len : Nat} {by_ : Destroyer} (h : Fresh s)
    (hpc : s.calls k ≠ .returned) (hphase : (s.calls k).phase = .none)
    (hevent : s.ledgerEvent (.caller k) = .unlink k g) (hg : g ∈ s.pool.groups.items)
    : Ledger.Step s.ledger (s.ledgerEvent (.caller k))
        ((s.setPool { s.pool with groups := ⟨s.pool.groups.items.erase g, len⟩ }).setCall k
          (.close g by_)).ledger := by
  rw [hevent, ledger_setCall]
  exact Ledger.Step.unlink k g (mem_clients h hpc) hphase hg

theorem ledgerStep_release {g : Nat} {tg : TGroup} {tp : TPool} {pc : CallPc}
    (hevent : s.ledgerEvent (.caller k) = .release k) (hphase : (s.calls k).phase = .closing g)
    (hg : s.groups g = some tg) (hpc : pc.phase = .none) (hmax : tp.thrdMax = s.pool.thrdMax)
    (htotal : tp.totalThrds = Word.sub32 s.pool.totalThrds tg.thrdMax)
    (hitems : tp.groups.items = s.pool.groups.items)
    : Ledger.Step s.ledger (s.ledgerEvent (.caller k))
        (((s.setPool tp).freeGroup g).setCall k pc).ledger := by
  have hsize : s.ledger.size g = some tg.thrdMax := by
    simp only [Sys.ledger, hg, Option.map_some]
  have hstep := Ledger.Step.release k g _ hphase hsize
  rw [hevent, ledger_setCall, hpc]
  simp only [Sys.ledger, Sys.freeGroup, Sys.setPool, size_update, hmax, htotal, hitems,
    Option.map_none] at hstep ⊢
  exact hstep

theorem ledgerStep_caller (h : Fresh s) (hs : CallStep s k s')
    : Ledger.Step s.ledger (s.ledgerEvent (.caller k)) s'.ledger := by
  cases hs with
  | checkFail min max flags hpc hlock hcheck =>
    exact ledgerStep_stay (by simp [Sys.ledgerEvent, hpc, hcheck]) rfl (by rw [hpc]; rfl) rfl rfl rfl
      rfl rfl
  | check min max min' max' flags hpc hlock hcheck => exact ledgerStep_grant h hpc hcheck
  | build min max flags hpc => exact ledgerStep_create h hpc
  | spawn g n max tg hpc hg =>
    exact ledgerStep_stay (by simp [Sys.ledgerEvent, hpc]) rfl (by rw [hpc]; rfl) rfl rfl rfl rfl
      (size_setGroup hg rfl)
  | endSpawn g max tg hpc hg =>
    exact ledgerStep_stay (by simp [Sys.ledgerEvent, hpc]) rfl (by rw [hpc]; rfl) rfl rfl rfl rfl
      (size_setGroup hg rfl)
  | chargeFirst g max hpc => exact ledgerStep_link hpc rfl rfl rfl rfl
  | charge g max hpc => exact ledgerStep_link hpc rfl rfl rfl rfl
  | unlink g hpc hlock hg =>
    exact ledgerStep_unlink h (by simp [hpc]) (by rw [hpc]; rfl)
      (by simp only [Sys.ledgerEvent, hpc]) hg
  | close g by_ tg hpc hg =>
    exact ledgerStep_stay (by simp [Sys.ledgerEvent, hpc]) rfl (by rw [hpc]; rfl) rfl rfl rfl rfl
      (size_setGroup hg rfl)
  | wake g ts by_ tg t rest tt hpc hg =>
    simp only [Sys.ledgerEvent, hpc, ledger_setThrd]
    rw [ledger_setGroup hg]
    . apply Ledger.Step.stay
    . rfl
  | endWake g ts by_ tg hpc hg =>
    exact ledgerStep_stay (by simp [Sys.ledgerEvent, hpc]) rfl (by rw [hpc]; rfl) rfl rfl rfl rfl
      (size_setGroup hg rfl)
  | endJoinPool g tg hpc hg =>
    exact ledgerStep_release (by simp [Sys.ledgerEvent, hpc]) (by rw [hpc]; rfl) hg rfl rfl rfl rfl
  | refund g tg hpc hg =>
    exact ledgerStep_release (by simp [Sys.ledgerEvent, hpc]) (by rw [hpc]; rfl) hg rfl rfl rfl rfl
  | popGroup g rest hpc hlen hitems =>
    have hevent : s.ledgerEvent (.caller k) = .unlink k g := by
      simp [Sys.ledgerEvent, hpc, LL.listPop, LL.emptyList, hlen, hitems]
    have herase : rest = s.pool.groups.items.erase g := by rw [hitems, List.erase_cons_head]
    rw [herase]
    exact ledgerStep_unlink h (by simp [hpc]) (by rw [hpc]; rfl) hevent (by simp [hitems])
  | freePool hpc hlen =>
    exact ledgerStep_stay (by simp [Sys.ledgerEvent, hpc, LL.listPop, LL.emptyList, hlen]) rfl
      (by rw [hpc]; rfl) rfl rfl rfl rfl rfl
  | queue g w tg pc hpc hg hlock hclose hidle hfull hnext =>
    refine ledgerStep_stay (by simp [Sys.ledgerEvent, hpc]) rfl ?_ rfl rfl rfl rfl
      (size_setGroup hg rfl)
    rw [hpc]
    rcases hnext with rfl | rfl <;> rfl
  | full g w tg pc hpc hg hlock hclose hidle hfull hnext =>
    refine ledgerStep_stay (by simp [Sys.ledgerEvent, hpc]) rfl ?_ rfl rfl rfl rfl rfl
    rw [hpc]
    rcases hnext with rfl | rfl <;> rfl
  | reserve g w tg t rest hpc hg =>
    exact ledgerStep_stay (by simp [Sys.ledgerEvent, hpc]) rfl (by rw [hpc]; rfl) rfl rfl rfl rfl
      (size_setGroup hg rfl)
  | flag g gs before tg hpc hg =>
    exact ledgerStep_stay (by simp [Sys.ledgerEvent, hpc]) rfl (by rw [hpc]; rfl) rfl rfl rfl rfl
      (size_setGroup hg rfl)
  | block before hpc =>
    rcases hpc with hpc | ⟨hpc, _⟩ <;>
      exact ledgerStep_stay (by simp only [Sys.ledgerEvent, hpc]) rfl (by simp only [hpc, CallPc.phase])
        rfl rfl rfl rfl rfl
  | endWait before hpc =>
    rcases hpc with hpc | ⟨hpc, _⟩ <;>
      exact ledgerStep_stay (by simp only [Sys.ledgerEvent, hpc]) rfl (by simp only [hpc, CallPc.phase])
        rfl rfl rfl rfl rfl
  | _ =>
    refine ledgerStep_stay ?_ rfl ?_ rfl rfl rfl rfl rfl <;>
      simp [Sys.ledgerEvent, CallPc.phase, *]

theorem ledger_worker {t : Nat} (hs : WorkerStep s t s') : s'.ledger = s.ledger := by
  cases hs with
  | fetch tt tg w rest ht hpc hg =>
    rw [ledger_setThrd, ledger_assign]
    exact ledger_setGroup hg rfl
  | goIdle tt tg wait ht hpc hg =>
    rw [ledger_setThrd]
    exact ledger_setGroup hg rfl
  | leave tt tg ht hpc hg =>
    rw [ledger_freeThrd]
    exact ledger_setGroup hg rfl
  | _ => rfl

theorem ledger_manager {m : Nat} (hs : ManagerStep s m s') : s'.ledger = s.ledger := by
  cases hs with
  | look g gs tg hpc hg =>
    rw [ledger_setManager]
    exact ledger_setGroup hg rfl
  | spawnTask g n gs tg w rest hpc hg =>
    rw [ledger_setManager, ledger_assign]
    exact ledger_spawn hg rfl
  | spawnNone g n gs tg hpc hg =>
    rw [ledger_setManager]
    exact ledger_spawn hg rfl
  | endSpawn g gs tg hpc hg =>
    rw [ledger_setManager]
    exact ledger_setGroup hg rfl
  | _ => rfl

theorem ledgerStep {a : Action} (h : Fresh s) (hs : Step s a s')
    : Ledger.Step s.ledger (s.ledgerEvent a) s'.ledger := by
  cases hs with
  | start req s' hs => apply ledgerStep_start h hs
  | caller k s' hs => apply ledgerStep_caller h hs
  | worker t s' hs =>
    rw [ledger_worker hs]
    apply Ledger.Step.stay
  | manager m timedOut s' hs =>
    rw [ledger_manager hs]
    apply Ledger.Step.stay

end

theorem owned_init (tp : TPool) (h : tp.groups.items = []) : Ledger.Owned (Sys.init tp).ledger := by
  constructor <;> simp [Sys.ledger, Sys.init, CallPc.phase, Ledger.Phase.owned, h]

theorem owned_step {s s' : Sys} {a : Action} (h : Fresh s) (ho : Ledger.Owned s.ledger)
    (hs : Step s a s')
    : Ledger.Owned s'.ledger :=
  ho.step (ledgerStep h hs)

end Pool
