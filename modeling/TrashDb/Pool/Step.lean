import TrashDb.Lib.Lts
import TrashDb.Pool.Impl

/-!
This module contains the steps of the system in `TrashDb.Pool.Impl` as relations with one constructor
per outcome, so that a property of all steps is a case analysis that does not unfold the step
functions again.
-/

namespace Pool

abbrev run : Sys → List Action → Option Sys := Lts.run Sys.step

theorem qFetch_eq_none {q q' : Q} (h : q.qFetch = some (none, q')) : q.work.len = 0 ∧ q' = q := by
  unfold Q.qFetch Q.qEmpty LL.emptyList at h
  split at h
  . next hlen =>
    cases h
    simpa using hlen
  . next hlen =>
    split at h
    . next hpop => simp [(LL.listPop_eq_none hpop).1] at hlen
    . cases h
    . cases h

theorem qFetch_eq_some {q q' : Q} {w : Nat} (h : q.qFetch = some (some w, q'))
    : q.work.len ≠ 0 ∧
        ∃ rest, q.work.items = w :: rest ∧ q' = { q with work := ⟨rest, q.work.len - 1⟩ } := by
  unfold Q.qFetch at h
  split at h
  . cases h
  . split at h
    . cases h
    . cases h
    . next hpop =>
      obtain ⟨hlen, rest, hitems, rfl⟩ := LL.listPop_eq_item hpop
      cases h
      exact ⟨hlen, rest, hitems, rfl⟩

theorem qAppend_eq_success {q q' : Q} {w : Nat} (h : q.qAppend w = (.poolSuccess, q'))
    : q.work.len ≠ q.capacity ∧ q' = { q with work := q.work.listAppend w } := by
  unfold Q.qAppend Q.qFull at h
  split at h
  . cases h
  . next hfull =>
    cases h
    exact ⟨by simpa using hfull, rfl⟩

theorem unlocked_iff {tp : TPool} : tp.unlocked = true ↔ tp.mutexPool = none ∧ tp.freed = false := by
  simp [TPool.unlocked]

inductive StartStep (s : Sys) : Req → Sys → Prop where
  | addGroup (min max : Nat) (flags : Int) :
    StartStep s (.addGroup min max flags) (s.startCall (.addCheck min max flags))
  | destroyGroup (g : Nat) (hg : g ∈ s.published) :
    StartStep s (.destroyGroup g) (s.startCall (.unlink g))
  | destroyPool : StartStep s .destroyPool (s.startCall .killManager)
  | doWork (g w : Nat) (hg : g ∈ s.published) (hw : w ∉ s.given) :
    StartStep s (.doWork g w) { s.startCall (.offer g w) with given := w :: s.given }
  | waitPool : StartStep s .waitPool (s.startCall (.waitStart s.returned))

inductive CallStep (s : Sys) (k : Nat) : Sys → Prop where
  | checkFail (min max : Nat) (flags : Int) (hpc : s.calls k = .addCheck min max flags)
    (hlock : s.pool.mutexPool = none) (hcheck : s.pool.addGroupCheck min max = none) :
    CallStep s k (s.setCall k .returned)
  | check (min max min' max' : Nat) (flags : Int) (hpc : s.calls k = .addCheck min max flags)
    (hlock : s.pool.mutexPool = none) (hcheck : s.pool.addGroupCheck min max = some (min', max')) :
    CallStep s k (s.setCall k (.addBuild min' max' flags))
  | build (min max : Nat) (flags : Int) (hpc : s.calls k = .addBuild min max flags) :
    CallStep s k
      ({ s.setGroup s.nextGroup (.newGroup min max flags (.call k)) with
        nextGroup := s.nextGroup + 1 }.setCall k (.addSpawn s.nextGroup min max))
  | spawn (g n max : Nat) (tg : TGroup) (hpc : s.calls k = .addSpawn g (n + 1) max)
    (hg : s.groups g = some tg) :
    CallStep s k ((s.spawn g tg none).setCall k (.addSpawn g n max))
  | endSpawn (g max : Nat) (tg : TGroup) (hpc : s.calls k = .addSpawn g 0 max)
    (hg : s.groups g = some tg) :
    CallStep s k ((s.setGroup g { tg with mutexGrp := none }).setCall k (.addCharge g max))
  | chargeFirst (g max : Nat) (hpc : s.calls k = .addCharge g max) (hlock : s.pool.mutexPool = none)
    (hfreed : s.pool.freed = false) (hlen : s.pool.groups.len = 0) :
    CallStep s k
      (({ s.setPool (s.pool.addGroupCharge g max s.nextManager) with
        published := g :: s.published
        nextManager := s.nextManager + 1 }.setManager s.nextManager .wait).setCall k .returned)
  | charge (g max : Nat) (hpc : s.calls k = .addCharge g max) (hlock : s.pool.mutexPool = none)
    (hfreed : s.pool.freed = false) (hlen : s.pool.groups.len ≠ 0) :
    CallStep s k
      ({ s.setPool (s.pool.addGroupCharge g max s.nextManager) with
        published := g :: s.published }.setCall k .returned)
  | unlink (g : Nat) (hpc : s.calls k = .unlink g) (hlock : s.pool.mutexPool = none)
    (hg : g ∈ s.pool.groups.items) :
    CallStep s k
      ((s.setPool { s.pool with groups := s.pool.groups.itemRemove g }).setCall k
        (.close g .destroyGroup))
  | close (g : Nat) (by_ : Destroyer) (tg : TGroup) (hpc : s.calls k = .close g by_)
    (hg : s.groups g = some tg) (hlock : tg.mutexGrp = none) :
    CallStep s k
      ((s.setGroup g
        { tg with groupClose := true, softKill := true, mutexGrp := some (.call k) }).setCall k
        (.wake g tg.thrds by_))
  | wake (g : Nat) (ts : List Nat) (by_ : Destroyer) (tg : TGroup) (t : Nat) (rest : List Nat)
    (tt : TThread) (hpc : s.calls k = .wake g ts by_) (hg : s.groups g = some tg)
    (hlen : tg.idleThrds.len ≠ 0) (hitems : tg.idleThrds.items = t :: rest)
    (ht : s.thrds t = some tt) (hlock : tt.pc.locked = false) :
    CallStep s k
      ((s.setGroup g
        {
          tg with
          idleThrds := ⟨rest, tg.idleThrds.len - 1⟩
          activeThrds := tg.activeThrds.listAppend t
        }).setThrd t { tt with state := .running })
  | endWake (g : Nat) (ts : List Nat) (by_ : Destroyer) (tg : TGroup)
    (hpc : s.calls k = .wake g ts by_) (hg : s.groups g = some tg) (hlen : tg.idleThrds.len = 0) :
    CallStep s k ((s.setGroup g { tg with mutexGrp := none }).setCall k (.join g ts by_))
  | join (g t : Nat) (ts : List Nat) (by_ : Destroyer) (hpc : s.calls k = .join g (t :: ts) by_)
    (ht : s.thrds t = none) : CallStep s k (s.setCall k (.join g ts by_))
  | endJoinGroup (g : Nat) (hpc : s.calls k = .join g [] .destroyGroup) :
    CallStep s k (s.setCall k (.refund g))
  | endJoinPool (g : Nat) (tg : TGroup) (hpc : s.calls k = .join g [] .destroyPool)
    (hg : s.groups g = some tg) :
    CallStep s k (((s.setPool (s.pool.refund tg.thrdMax)).freeGroup g).setCall k .popGroups)
  | refund (g : Nat) (tg : TGroup) (hpc : s.calls k = .refund g) (hg : s.groups g = some tg)
    (hlock : s.pool.mutexPool = none) :
    CallStep s k
      (((s.setPool ({ s.pool with
        groups := { s.pool.groups with len := s.pool.groups.len - 1 } }.refund
          tg.thrdMax)).freeGroup g).setCall k .returned)
  | killDead (hpc : s.calls k = .killManager) (hlock : s.pool.mutexPool = none)
    (hfreed : s.pool.freed = false) (hstate : s.pool.state = .dead) :
    CallStep s k ((s.setPool { s.pool with mutexPool := some (.call k) }).setCall k .popGroups)
  | kill (hpc : s.calls k = .killManager) (hlock : s.pool.mutexPool = none)
    (hstate : s.pool.state ≠ .dead) :
    CallStep s k
      ((s.setPool { s.pool with hardKill := true, state := .running }).setCall k .readManager)
  | readManager (m : Nat) (hpc : s.calls k = .readManager) (hm : s.pool.manager = some m) :
    CallStep s k (s.setCall k (.joinManager m))
  | joinManager (m : Nat) (hpc : s.calls k = .joinManager m) (hm : s.managers m = .exited) :
    CallStep s k (s.setCall k .relock)
  | relock (hpc : s.calls k = .relock) (hlock : s.pool.mutexPool = none)
    (hfreed : s.pool.freed = false) :
    CallStep s k ((s.setPool { s.pool with mutexPool := some (.call k) }).setCall k .popGroups)
  | popGroup (g : Nat) (rest : List Nat) (hpc : s.calls k = .popGroups)
    (hlen : s.pool.groups.len ≠ 0) (hitems : s.pool.groups.items = g :: rest) :
    CallStep s k
      ((s.setPool { s.pool with groups := ⟨rest, s.pool.groups.len - 1⟩ }).setCall k
        (.close g .destroyPool))
  | freePool (hpc : s.calls k = .popGroups) (hlen : s.pool.groups.len = 0) :
    CallStep s k
      ((s.setPool { s.pool with mutexPool := none, freed := true }).setCall k .returned)
  | refuse (g w : Nat) (tg : TGroup) (hpc : s.calls k = .offer g w) (hg : s.groups g = some tg)
    (hlock : tg.mutexGrp = none) (hclose : tg.groupClose = true) :
    CallStep s k (s.setCall k (.done w .poolError))
  | queue (g w : Nat) (tg : TGroup) (pc : CallPc) (hpc : s.calls k = .offer g w)
    (hg : s.groups g = some tg) (hlock : tg.mutexGrp = none) (hclose : tg.groupClose = false)
    (hidle : tg.idleThrds.len = 0) (hfull : tg.q.work.len ≠ tg.q.capacity)
    (hnext : pc = .done w .poolSuccess ∨ pc = .notify w .poolSuccess) :
    CallStep s k
      (((s.setGroup g
        { tg with q := { tg.q with work := tg.q.work.listAppend w } }).accept g w).setCall k pc)
  | full (g w : Nat) (tg : TGroup) (pc : CallPc) (hpc : s.calls k = .offer g w)
    (hg : s.groups g = some tg) (hlock : tg.mutexGrp = none) (hclose : tg.groupClose = false)
    (hidle : tg.idleThrds.len = 0) (hfull : tg.q.work.len = tg.q.capacity)
    (hnext : pc = .done w .groupFull ∨ pc = .notify w .groupFull) :
    CallStep s k (s.setCall k pc)
  | reserve (g w : Nat) (tg : TGroup) (t : Nat) (rest : List Nat) (hpc : s.calls k = .offer g w)
    (hg : s.groups g = some tg) (hlock : tg.mutexGrp = none) (hclose : tg.groupClose = false)
    (hlen : tg.idleThrds.len ≠ 0) (hitems : tg.idleThrds.items = t :: rest) :
    CallStep s k
      ((((s.setGroup g
        {
          tg with
          idleThrds := ⟨rest, tg.idleThrds.len - 1⟩
          activeThrds := tg.activeThrds.listAppend t
        }).accept g w).assign g w).setCall k (.hand g t w))
  | notify (w : Nat) (rc : Rc) (hpc : s.calls k = .notify w rc) (hlock : s.pool.mutexPool = none) :
    CallStep s k ((s.setPool { s.pool with state := .running }).setCall k (.done w rc))
  | hand (g t w : Nat) (tt : TThread) (hpc : s.calls k = .hand g t w) (ht : s.thrds t = some tt)
    (hlock : tt.pc.locked = false) :
    CallStep s k
      ((s.setThrd t { tt with currTask := some w, state := .running }).setCall k
        (.done w .poolSuccess))
  | success (w : Nat) (hpc : s.calls k = .done w .poolSuccess) :
    CallStep s k ({ s with returned := w :: s.returned }.setCall k .returned)
  | failure (w : Nat) (rc : Rc) (hpc : s.calls k = .done w rc) (hrc : rc ≠ .poolSuccess) :
    CallStep s k ({ s with given := s.given.erase w }.setCall k .returned)
  | waitStart (before : List Nat) (hpc : s.calls k = .waitStart before)
    (hlock : s.pool.mutexPool = none) :
    CallStep s k
      ((s.setPool
        {
          s.pool with
          mutexPool := some (.call k)
          groupsWaiting := s.pool.groups.len
        }).setCall k (.waitLook s.pool.groups.items before))
  | skip (g : Nat) (gs before : List Nat) (tg : TGroup) (hpc : s.calls k = .waitLook (g :: gs) before)
    (hg : s.groups g = some tg) (hlock : tg.mutexGrp = none) (hlen : tg.q.work.len = 0) :
    CallStep s k
      ((s.setPool { s.pool with groupsWaiting := s.pool.groupsWaiting - 1 }).setCall k
        (.waitLook gs before))
  | flag (g : Nat) (gs before : List Nat) (tg : TGroup) (hpc : s.calls k = .waitLook (g :: gs) before)
    (hg : s.groups g = some tg) (hlock : tg.mutexGrp = none) (hlen : tg.q.work.len ≠ 0) :
    CallStep s k
      ((s.setGroup g { tg with groupWait := true }).setCall k (.waitLook gs before))
  | block (before : List Nat)
    (hpc : s.calls k = .waitLook [] before ∨
      (s.calls k = .waitBlock before ∧ s.pool.mutexPool = none))
    (hwait : s.pool.groupsWaiting > 0) :
    CallStep s k
      ((s.setPool { s.pool with mutexPool := none, poolWaiting := true }).setCall k
        (.waitBlock before))
  | endWait (before : List Nat)
    (hpc : s.calls k = .waitLook [] before ∨
      (s.calls k = .waitBlock before ∧ s.pool.mutexPool = none))
    (hwait : s.pool.groupsWaiting ≤ 0) :
    CallStep s k
      ((s.setPool { s.pool with mutexPool := none, poolWaiting := false }).setCall k
        (.waitDone before))
  | waitReturn (before : List Nat) (hpc : s.calls k = .waitDone before) :
    CallStep s k (s.setCall k .returned)

inductive WorkerStep (s : Sys) (t : Nat) : Sys → Prop where
  | topTask (tt : TThread) (w : Nat) (ht : s.thrds t = some tt) (hpc : tt.pc = .top)
    (hw : tt.currTask = some w) : WorkerStep s t (s.setThrd t { tt with pc := .call w })
  | topNone (tt : TThread) (ht : s.thrds t = some tt) (hpc : tt.pc = .top)
    (hw : tt.currTask = none) : WorkerStep s t (s.setThrd t { tt with pc := .grp })
  | call (tt : TThread) (w : Nat) (ht : s.thrds t = some tt) (hpc : tt.pc = .call w) :
    WorkerStep s t
      ({ s with called := Function.update s.called w (s.called w + 1) }.setThrd t
        { tt with pc := .inFunc w })
  | inFunc (tt : TThread) (w : Nat) (ht : s.thrds t = some tt) (hpc : tt.pc = .inFunc w) :
    WorkerStep s t (s.setThrd t { tt with pc := .ret w })
  | ret (tt : TThread) (w : Nat) (ht : s.thrds t = some tt) (hpc : tt.pc = .ret w) :
    WorkerStep s t
      ({ s with finished := s.finished ++ tt.currTask.toList }.setThrd t
        { tt with currTask := none, pc := .grp })
  | hardKill (tt : TThread) (tg : TGroup) (ht : s.thrds t = some tt) (hpc : tt.pc = .grp)
    (hg : s.groups tt.tg = some tg) (hlock : tg.mutexGrp = none) (hkill : tg.hardKill = true) :
    WorkerStep s t (s.setThrd t { tt with pc := .leave })
  | fetch (tt : TThread) (tg : TGroup) (w : Nat) (rest : List Nat) (ht : s.thrds t = some tt)
    (hpc : tt.pc = .grp) (hg : s.groups tt.tg = some tg) (hlock : tg.mutexGrp = none)
    (hlen : tg.q.work.len ≠ 0) (hitems : tg.q.work.items = w :: rest) :
    WorkerStep s t
      (((s.setGroup tt.tg
        { tg with q := { tg.q with work := ⟨rest, tg.q.work.len - 1⟩ } }).assign tt.tg w).setThrd t
        { tt with currTask := some w, pc := .call w })
  | softKill (tt : TThread) (tg : TGroup) (ht : s.thrds t = some tt) (hpc : tt.pc = .grp)
    (hg : s.groups tt.tg = some tg) (hlock : tg.mutexGrp = none) (hlen : tg.q.work.len = 0)
    (hkill : tg.softKill = true) :
    WorkerStep s t (s.setThrd t { tt with currTask := none, pc := .leave })
  | goIdle (tt : TThread) (tg : TGroup) (wait : Bool) (ht : s.thrds t = some tt) (hpc : tt.pc = .grp)
    (hg : s.groups tt.tg = some tg) (hlock : tg.mutexGrp = none) (hlen : tg.q.work.len = 0)
    (hkill : tg.softKill = false) (hrun : tt.state = .running)
    (hwait : wait = (tg.groupWait && tg.activeThrds.len == 1)) :
    WorkerStep s t
      ((s.setGroup tt.tg
        {
          tg with
          groupWait := tg.groupWait && !wait
          activeThrds := ⟨tg.activeThrds.items.erase t, tg.activeThrds.len - 1⟩
          idleThrds := (tg.idleThrds.itemRemove t).listAppend t
        }).setThrd t
        { tt with currTask := none, state := .idle, pc := if wait then .decr else .sleep })
  | decr (tt : TThread) (ht : s.thrds t = some tt) (hpc : tt.pc = .decr)
    (hlock : s.pool.mutexPool = none) (hfreed : s.pool.freed = false) :
    WorkerStep s t
      ((s.setPool { s.pool with groupsWaiting := s.pool.groupsWaiting - 1 }).setThrd t
        { tt with pc := .sleep })
  | block (tt : TThread) (ht : s.thrds t = some tt) (hpc : tt.pc = .sleep ∨ tt.pc = .blocked)
    (hstate : tt.state = .idle) : WorkerStep s t (s.setThrd t { tt with pc := .blocked })
  | awake (tt : TThread) (ht : s.thrds t = some tt) (hpc : tt.pc = .sleep ∨ tt.pc = .blocked)
    (hstate : tt.state ≠ .idle) : WorkerStep s t (s.setThrd t { tt with pc := .top })
  | leave (tt : TThread) (tg : TGroup) (ht : s.thrds t = some tt) (hpc : tt.pc = .leave)
    (hg : s.groups tt.tg = some tg) (hlock : tg.mutexGrp = none) (hstate : tt.state ≠ .idle) :
    WorkerStep s t
      ((s.setGroup tt.tg
        {
          tg with
          activeThrds := ⟨tg.activeThrds.items.erase t, tg.activeThrds.len - 1⟩
          idleThrds := tg.idleThrds.itemRemove t
        }).freeThrd t)

inductive ManagerStep (s : Sys) (m : Nat) : Sys → Prop where
  | stay (hpc : s.managers m = .wait) : ManagerStep s m s
  | exit (hpc : s.managers m = .wait) (hlock : s.pool.mutexPool = none)
    (hkill : s.pool.hardKill = true) : ManagerStep s m (s.setManager m .exited)
  | pass (hpc : s.managers m = .wait) (hlock : s.pool.mutexPool = none) (hfreed : s.pool.freed = false)
    (hkill : s.pool.hardKill = false) (hwait : s.pool.poolWaiting = false) :
    ManagerStep s m
      ((s.setPool { s.pool with mutexPool := some (.manager m) }).setManager m
        (.pass s.pool.groups.items))
  | look (g : Nat) (gs : List Nat) (tg : TGroup) (hpc : s.managers m = .pass (g :: gs))
    (hg : s.groups g = some tg) (hlock : tg.mutexGrp = none) :
    ManagerStep s m
      ((s.setGroup g { tg with mutexGrp := some (.manager m) }).setManager m
        (.spawn g tg.addThrds gs))
  | endPass (hpc : s.managers m = .pass []) :
    ManagerStep s m
      ((s.setPool { s.pool with state := .idle, mutexPool := none }).setManager m .wait)
  | spawnTask (g n : Nat) (gs : List Nat) (tg : TGroup) (w : Nat) (rest : List Nat)
    (hpc : s.managers m = .spawn g (n + 1) gs) (hg : s.groups g = some tg)
    (hlen : tg.q.work.len ≠ 0) (hitems : tg.q.work.items = w :: rest) :
    ManagerStep s m
      (((s.spawn g { tg with q := { tg.q with work := ⟨rest, tg.q.work.len - 1⟩ } }
        (some w)).assign g w).setManager m (.spawn g n gs))
  | spawnNone (g n : Nat) (gs : List Nat) (tg : TGroup) (hpc : s.managers m = .spawn g (n + 1) gs)
    (hg : s.groups g = some tg) (hlen : tg.q.work.len = 0) :
    ManagerStep s m ((s.spawn g tg none).setManager m (.spawn g n gs))
  | endSpawn (g : Nat) (gs : List Nat) (tg : TGroup) (hpc : s.managers m = .spawn g 0 gs)
    (hg : s.groups g = some tg) :
    ManagerStep s m ((s.setGroup g { tg with mutexGrp := none }).setManager m (.pass gs))

theorem startStep_of_callStart {s s' : Sys} {req : Req} (h : s.callStart req = some s')
    : StartStep s req s' := by
  cases req with
  | addGroup min max flags =>
    cases h
    apply StartStep.addGroup
  | destroyGroup g =>
    simp only [Sys.callStart] at h
    split at h
    . next hg =>
      cases h
      apply StartStep.destroyGroup _ hg
    . cases h
  | destroyPool =>
    cases h
    apply StartStep.destroyPool
  | doWork g w =>
    simp only [Sys.callStart] at h
    split at h
    . next hg =>
      cases h
      apply StartStep.doWork _ _ hg.1 hg.2
    . cases h
  | waitPool =>
    cases h
    apply StartStep.waitPool

theorem workerStep_of_workerSection {s s' : Sys} {t : Nat} {tt : TThread} {tg : TGroup}
    (ht : s.thrds t = some tt) (hpc : tt.pc = .grp) (hg : s.groups tt.tg = some tg)
    (hlock : tg.mutexGrp = none) (h : s.workerSection t tt tg = some s')
    : WorkerStep s t s' := by
  unfold Sys.workerSection at h
  split at h
  . next hkill =>
    cases h
    apply WorkerStep.hardKill tt tg ht hpc hg hlock hkill
  . split at h
    . cases h
    . split at h
      . cases h
      . next hfetch =>
        obtain ⟨hlen, rest, hitems, rfl⟩ := qFetch_eq_some hfetch
        cases h
        apply WorkerStep.fetch tt tg _ rest ht hpc hg hlock hlen hitems
      . next hfetch =>
        obtain ⟨hlen, rfl⟩ := qFetch_eq_none hfetch
        dsimp only at h
        split at h
        . next hkill =>
          cases h
          apply WorkerStep.softKill tt tg ht hpc hg hlock hlen hkill
        . next hkill =>
          split at h
          . next hrun =>
            cases h
            exact WorkerStep.goIdle tt tg _ ht hpc hg hlock hlen (by simpa using hkill) hrun rfl
          . cases h

theorem workerStep_of_workerStep {s s' : Sys} {t : Nat} (h : s.workerStep t = some s')
    : WorkerStep s t s' := by
  unfold Sys.workerStep at h
  split at h
  . cases h
  . next tt ht =>
    split at h
    . next hpc =>
      split at h
      . next w hw =>
        cases h
        apply WorkerStep.topTask tt w ht hpc hw
      . next hw =>
        cases h
        apply WorkerStep.topNone tt ht hpc hw
    . next w hpc =>
      cases h
      apply WorkerStep.call tt w ht hpc
    . next w hpc =>
      cases h
      apply WorkerStep.inFunc tt w ht hpc
    . next w hpc =>
      cases h
      apply WorkerStep.ret tt w ht hpc
    . next hpc =>
      split at h
      . cases h
      . next tg hg =>
        split at h
        . next hlock => exact workerStep_of_workerSection ht hpc hg (by simpa using hlock) h
        . cases h
    . next hpc =>
      split at h
      . next hlock =>
        cases h
        have := unlocked_iff.mp hlock
        apply WorkerStep.decr tt ht hpc this.1 this.2
      . cases h
    . next hpc =>
      split at h
      . next hstate =>
        cases h
        apply WorkerStep.block tt ht (.inl hpc) hstate
      . next hstate =>
        cases h
        apply WorkerStep.awake tt ht (.inl hpc) hstate
    . next hpc =>
      split at h
      . next hstate =>
        cases h
        apply WorkerStep.block tt ht (.inr hpc) hstate
      . next hstate =>
        cases h
        apply WorkerStep.awake tt ht (.inr hpc) hstate
    . next hpc =>
      split at h
      . cases h
      . next tg hg =>
        split at h
        . next hlock =>
          unfold Sys.leaveSection at h
          dsimp only at h
          split at h
          . cases h
          . next hstate =>
            cases h
            exact WorkerStep.leave tt tg ht hpc hg (by simpa using hlock) hstate
        . cases h

theorem managerStep_of_managerStep {s s' : Sys} {m : Nat} {timedOut : Bool}
    (h : s.managerStep m timedOut = some s')
    : ManagerStep s m s' := by
  unfold Sys.managerStep at h
  split at h
  . next hpc =>
    split at h
    . next hlock =>
      have hlock := unlocked_iff.mp hlock
      split at h
      . cases h
        apply ManagerStep.stay hpc
      . next hwait =>
        split at h
        . next hkill =>
          cases h
          apply ManagerStep.exit hpc hlock.1 hkill
        . next hkill =>
          cases h
          apply ManagerStep.pass hpc hlock.1 hlock.2 (by simpa using hkill)
          simp only [Bool.or_eq_true, not_or, Bool.not_eq_true] at hwait
          exact hwait.2
    . cases h
  . next g gs hpc =>
    split at h
    . cases h
    . next tg hg =>
      split at h
      . next hlock =>
        cases h
        apply ManagerStep.look g gs tg hpc hg (by simpa using hlock)
      . cases h
  . next hpc =>
    cases h
    apply ManagerStep.endPass hpc
  . next g n gs hpc =>
    split at h
    . cases h
    . next tg hg =>
      split at h
      . cases h
      . next hfetch =>
        obtain ⟨hlen, rest, hitems, rfl⟩ := qFetch_eq_some hfetch
        cases h
        apply ManagerStep.spawnTask g n gs tg _ rest hpc hg hlen hitems
      . next hfetch =>
        obtain ⟨hlen, rfl⟩ := qFetch_eq_none hfetch
        cases h
        apply ManagerStep.spawnNone g n gs tg hpc hg hlen
  . next g gs hpc =>
    split at h
    . cases h
    . next tg hg =>
      cases h
      apply ManagerStep.endSpawn g gs tg hpc hg
  . cases h

theorem callStep_of_doWorkSection {s s' : Sys} {k g w : Nat} {tg : TGroup}
    (hpc : s.calls k = .offer g w) (hg : s.groups g = some tg) (hlock : tg.mutexGrp = none)
    (h : s.doWorkSection k g w tg = some s')
    : CallStep s k s' := by
  unfold Sys.doWorkSection at h
  split at h
  . next hclose =>
    cases h
    apply CallStep.refuse g w tg hpc hg hlock hclose
  . next hclose =>
    have hclose : tg.groupClose = false := by simpa using hclose
    split at h
    . next hpop =>
      have hidle := (LL.listPop_eq_none hpop).1
      split at h
      . next happend =>
        obtain ⟨hfull, rfl⟩ := qAppend_eq_success happend
        cases h
        apply CallStep.queue g w tg _ hpc hg hlock hclose hidle hfull
        split
        . left; rfl
        . right; rfl
      . next hrc happend =>
        have hfull : tg.q.work.len = tg.q.capacity := by
          unfold Q.qAppend Q.qFull at happend
          split at happend
          . next hfull => simpa using hfull
          . cases happend
            exact (hrc rfl).elim
        cases h
        apply CallStep.full g w tg _ hpc hg hlock hclose hidle hfull
        split
        . left; rfl
        . right; rfl
    . cases h
    . next hpop =>
      obtain ⟨hlen, rest, hitems, rfl⟩ := LL.listPop_eq_item hpop
      cases h
      apply CallStep.reserve g w tg _ rest hpc hg hlock hclose hlen hitems

theorem callStep_of_wakeSection {s s' : Sys} {k g : Nat} {ts : List Nat} {by_ : Destroyer}
    {tg : TGroup} (hpc : s.calls k = .wake g ts by_) (hg : s.groups g = some tg)
    (h : s.wakeSection k g ts by_ tg = some s')
    : CallStep s k s' := by
  unfold Sys.wakeSection at h
  split at h
  . next hpop =>
    cases h
    apply CallStep.endWake g ts by_ tg hpc hg (LL.listPop_eq_none hpop).1
  . cases h
  . next hpop =>
    obtain ⟨hlen, rest, hitems, rfl⟩ := LL.listPop_eq_item hpop
    split at h
    . cases h
    . next tt ht =>
      split at h
      . cases h
      . next hlock =>
        cases h
        apply CallStep.wake g ts by_ tg _ rest tt hpc hg hlen hitems ht (by simpa using hlock)

theorem callStep_of_waitTest {s : Sys} {k : Nat} {before : List Nat}
    (hpc : s.calls k = .waitLook [] before ∨
      (s.calls k = .waitBlock before ∧ s.pool.mutexPool = none))
    : CallStep s k (s.waitTest k before) := by
  unfold Sys.waitTest
  split
  . next hwait => apply CallStep.block before hpc hwait
  . next hwait => apply CallStep.endWait before hpc (by omega)

theorem callStep_of_callStep {s s' : Sys} {k : Nat} (h : s.callStep k = some s')
    : CallStep s k s' := by
  unfold Sys.callStep at h
  split at h
  . next min max flags hpc =>
    split at h
    . next hlock =>
      have hlock := (unlocked_iff.mp hlock).1
      split at h
      . next hcheck =>
        cases h
        apply CallStep.checkFail min max flags hpc hlock hcheck
      . next hcheck =>
        cases h
        apply CallStep.check min max _ _ flags hpc hlock hcheck
    . cases h
  . next min max flags hpc =>
    cases h
    apply CallStep.build min max flags hpc
  . next g n max hpc =>
    split at h
    . cases h
    . next tg hg =>
      cases h
      apply CallStep.spawn g n max tg hpc hg
  . next g max hpc =>
    split at h
    . cases h
    . next tg hg =>
      cases h
      apply CallStep.endSpawn g max tg hpc hg
  . next g max hpc =>
    split at h
    . next hlock =>
      have hlock := unlocked_iff.mp hlock
      dsimp only at h
      split at h
      . next hlen =>
        cases h
        apply CallStep.chargeFirst g max hpc hlock.1 hlock.2 hlen
      . next hlen =>
        cases h
        apply CallStep.charge g max hpc hlock.1 hlock.2 hlen
    . cases h
  . next g hpc =>
    split at h
    . next hlock =>
      cases h
      apply CallStep.unlink g hpc (unlocked_iff.mp hlock.1).1 hlock.2
    . cases h
  . next g by_ hpc =>
    split at h
    . cases h
    . next tg hg =>
      split at h
      . next hlock =>
        cases h
        apply CallStep.close g by_ tg hpc hg (by simpa using hlock)
      . cases h
  . next g ts by_ hpc =>
    split at h
    . cases h
    . next tg hg => apply callStep_of_wakeSection hpc hg h
  . next g t ts by_ hpc =>
    split at h
    . next ht =>
      cases h
      apply CallStep.join g t ts by_ hpc (by simpa using ht)
    . cases h
  . next g hpc =>
    cases h
    apply CallStep.endJoinGroup g hpc
  . next g hpc =>
    split at h
    . cases h
    . next tg hg =>
      cases h
      apply CallStep.endJoinPool g tg hpc hg
  . next g hpc =>
    split at h
    . cases h
    . next tg hg =>
      split at h
      . next hlock =>
        cases h
        apply CallStep.refund g tg hpc hg (unlocked_iff.mp hlock).1
      . cases h
  . next hpc =>
    split at h
    . next hlock =>
      have hlock := unlocked_iff.mp hlock
      split at h
      . next hstate =>
        cases h
        apply CallStep.killDead hpc hlock.1 hlock.2 hstate
      . next hstate =>
        cases h
        apply CallStep.kill hpc hlock.1 hstate
    . cases h
  . next hpc =>
    split at h
    . cases h
    . next m hm =>
      split at h
      . cases h
      . cases h
        apply CallStep.readManager m hpc hm
  . next m hpc =>
    split at h
    . next hm =>
      cases h
      apply CallStep.joinManager m hpc hm
    . cases h
  . next hpc =>
    split at h
    . next hlock =>
      have hlock := unlocked_iff.mp hlock
      cases h
      apply CallStep.relock hpc hlock.1 hlock.2
    . cases h
  . next hpc =>
    split at h
    . next hpop =>
      cases h
      apply CallStep.freePool hpc (LL.listPop_eq_none hpop).1
    . cases h
    . next hpop =>
      obtain ⟨hlen, rest, hitems, rfl⟩ := LL.listPop_eq_item hpop
      cases h
      apply CallStep.popGroup _ rest hpc hlen hitems
  . next g w hpc =>
    split at h
    . cases h
    . next tg hg =>
      split at h
      . next hlock => exact callStep_of_doWorkSection hpc hg (by simpa using hlock) h
      . cases h
  . next w rc hpc =>
    split at h
    . next hlock =>
      cases h
      apply CallStep.notify w rc hpc (unlocked_iff.mp hlock).1
    . cases h
  . next g t w hpc =>
    split at h
    . cases h
    . next tt ht =>
      split at h
      . cases h
      . next hlock =>
        cases h
        apply CallStep.hand g t w tt hpc ht (by simpa using hlock)
  . next w rc hpc =>
    split at h
    . next hrc =>
      subst hrc
      cases h
      apply CallStep.success w hpc
    . next hrc =>
      cases h
      apply CallStep.failure w rc hpc hrc
  . next before hpc =>
    split at h
    . next hlock =>
      cases h
      apply CallStep.waitStart before hpc (unlocked_iff.mp hlock).1
    . cases h
  . next g gs before hpc =>
    split at h
    . cases h
    . next tg hg =>
      split at h
      . next hlock =>
        have hlock : tg.mutexGrp = none := by simpa using hlock
        split at h
        . next hempty =>
          cases h
          apply CallStep.skip g gs before tg hpc hg hlock
          simpa [Q.qEmpty, LL.emptyList] using hempty
        . next hempty =>
          cases h
          apply CallStep.flag g gs before tg hpc hg hlock
          simpa [Q.qEmpty, LL.emptyList] using hempty
      . cases h
  . next before hpc =>
    cases h
    apply callStep_of_waitTest (.inl hpc)
  . next before hpc =>
    split at h
    . next hlock =>
      cases h
      apply callStep_of_waitTest (.inr ⟨hpc, (unlocked_iff.mp hlock).1⟩)
    . cases h
  . next before hpc =>
    cases h
    apply CallStep.waitReturn before hpc
  . cases h

inductive Step (s : Sys) : Action → Sys → Prop where
  | start (req : Req) (s' : Sys) (h : StartStep s req s') : Step s (.call req) s'
  | caller (k : Nat) (s' : Sys) (h : CallStep s k s') : Step s (.caller k) s'
  | worker (t : Nat) (s' : Sys) (h : WorkerStep s t s') : Step s (.worker t) s'
  | manager (m : Nat) (timedOut : Bool) (s' : Sys) (h : ManagerStep s m s') :
    Step s (.manager m timedOut) s'

theorem step_of_step {s s' : Sys} {a : Action} (h : s.step a = some s') : Step s a s' := by
  cases a with
  | call req => apply Step.start req s' (startStep_of_callStart h)
  | caller k => apply Step.caller k s' (callStep_of_callStep h)
  | worker t => apply Step.worker t s' (workerStep_of_workerStep h)
  | manager m timedOut => apply Step.manager m timedOut s' (managerStep_of_managerStep h)

section

variable {s s' : Sys}

theorem StartStep.calls_of_ne {req : Req} (hs : StartStep s req s') {i : Nat} (hi : i ≠ s.nextCall)
    : s'.calls i = s.calls i := by
  cases hs <;> exact Function.update_of_ne hi _ _

theorem CallStep.ne_returned {k : Nat} (hs : CallStep s k s') : s.calls k ≠ .returned := by
  cases hs with
  | block before hpc => rcases hpc with hpc | hpc <;> simp [hpc]
  | endWait before hpc => rcases hpc with hpc | hpc <;> simp [hpc]
  | _ => simp [*]

theorem CallStep.calls_of_ne {k : Nat} (hs : CallStep s k s') {i : Nat} (hi : i ≠ k)
    : s'.calls i = s.calls i := by
  cases hs with
  | wake => rfl
  | _ => exact Function.update_of_ne hi _ _

theorem WorkerStep.calls_eq {t : Nat} (hs : WorkerStep s t s') : s'.calls = s.calls := by
  cases hs <;> rfl

theorem WorkerStep.thrds_of_ne {t : Nat} (hs : WorkerStep s t s') {i : Nat} (hi : i ≠ t)
    : s'.thrds i = s.thrds i := by
  cases hs <;> exact Function.update_of_ne hi _ _

theorem ManagerStep.ne_exited {m : Nat} (hs : ManagerStep s m s') : s.managers m ≠ .exited := by
  cases hs <;> simp [*]

theorem ManagerStep.calls_eq {m : Nat} (hs : ManagerStep s m s') : s'.calls = s.calls := by
  cases hs <;> rfl

end

end Pool
