import TrashDb.Pool.Lemmas.Wakes
import TrashDb.Pool.Worker

/-!
This module contains that the loop of a worker does what the steps of the system say, and that it never runs
into one of its `assert`s or reads `wait` before it was assigned. Between two places a worker has locked its
own mutex or none.
-/

namespace Pool

open Function Prog

namespace Worker

def heldAt (t : Nat) : Option TThread → List Lock
  | none => []
  | some tt => if tt.pc.locked then [.thrd t] else []

section

variable {f : Frame} {l : Lock} {g t : Nat} {tt : TThread} {tg : TGroup}

theorem run_getThrd (ht : f.sys.thrds t = some tt) : (getThrd t).run f = .ok tt f := by
  simp [getThrd, ht]

theorem run_getThrd_gone (ht : f.sys.thrds t = none) : (getThrd t).run f = .error .undefined f := by
  simp [getThrd, ht]

theorem run_getGroup (hg : f.sys.groups g = some tg) : (getGroup g).run f = .ok tg f := by
  simp [getGroup, hg]

@[simp]
theorem run_modifySys (h : Sys → Sys) : (modifySys h).run f = .ok () { f with sys := h f.sys } := rfl

@[simp]
theorem run_setWait (wait : Option Bool) : (setWait wait).run f = .ok () { f with wait := wait } := rfl

theorem run_readWait {wait : Bool} (hwait : f.wait = some wait) : readWait.run f = .ok wait f := by
  simp [readWait, hwait]

theorem run_lock (htaken : taken f.sys l = some false) (hheld : l ∉ f.held)
    : (pthreadMutexLock l).run f = .ok () { f with held := l :: f.held } := by
  simp [pthreadMutexLock, htaken, hheld]

theorem run_lock_taken (htaken : taken f.sys l = some true) : (pthreadMutexLock l).run f = .error .blocked f := by
  simp [pthreadMutexLock, htaken]

theorem run_lock_gone (htaken : taken f.sys l = none) : (pthreadMutexLock l).run f = .error .undefined f := by
  simp [pthreadMutexLock, htaken]

theorem run_unlock (hheld : l ∈ f.held)
    : (pthreadMutexUnlock l).run f = .ok () { f with held := f.held.erase l } := by
  simp [pthreadMutexUnlock, hheld]

theorem run_setPlace (pc : WorkerPc) (ht : f.sys.thrds t = some tt)
    : (setPlace t pc).run f = .ok () { f with sys := f.sys.setThrd t { tt with pc := pc } } := by
  rw [setPlace, bind_of_ok (run_getThrd ht), run_modifySys]

theorem run_top_task {w : Nat} (ht : f.sys.thrds t = some tt) (hw : tt.currTask = some w)
    (hheld : .thrd t ∈ f.held)
    : (top t).run f = .ok (.place (.call w)) { f with held := f.held.erase (.thrd t) } := by
  rw [top, bind_of_ok (run_getThrd ht)]
  simp only [hw]
  rw [bind_of_ok (run_unlock hheld), EStateM.run_pure]

theorem run_top_none (ht : f.sys.thrds t = some tt) (hw : tt.currTask = none)
    : (top t).run f = .ok (.place .grp) f := by
  rw [top, bind_of_ok (run_getThrd ht)]
  simp only [hw]
  rw [EStateM.run_pure]

theorem run_testIdle (ht : f.sys.thrds t = some tt) (hheld : .thrd t ∈ f.held)
    : (testIdle t).run f =
        .ok (.place (if tt.state = .idle then .blocked else .top)) { f with held := f.held.erase (.thrd t) } := by
  rw [testIdle, bind_of_ok (run_getThrd ht), bind_of_ok (run_unlock hheld), EStateM.run_pure]

theorem taken_thrd (ht : f.sys.thrds t = some tt) : taken f.sys (.thrd t) = some false := by
  simp [taken, ht]

theorem run_lock_thrd (ht : f.sys.thrds t = some tt) (hheld : f.held = [])
    : (pthreadMutexLock (.thrd t)).run f = .ok () { f with held := [.thrd t] } := by
  rw [run_lock (taken_thrd ht) (by simp [hheld]), hheld]

end

/--
What a worker does from its place to the next one. If it leaves the loop then it is an active thread of its
group, and it has locked its own mutex and no other.
-/
inductive Turn (s : Sys) (t : Nat) : EStateM.Result Stop Frame Goto → Prop where
  | place (pc : WorkerPc) (f : Frame) (tt : TThread) (ht : f.sys.thrds t = some tt)
    (hheld : f.held = heldAt t (some { tt with pc := pc }))
    (hstep : s.workerStep t = some (f.sys.setThrd t { tt with pc := pc })) :
    Turn s t (.ok (.place pc) f)
  | break_ (f : Frame) (tt : TThread) (tg : TGroup) (ht : f.sys.thrds t = some tt)
    (hg : f.sys.groups tt.tg = some tg) (hheld : f.held = [.thrd t]) (hrun : tt.state = .running)
    (hactive : t ∈ tg.activeThrds.items)
    (hstep : s.workerStep t = some (f.sys.setThrd t { tt with pc := .leave })) :
    Turn s t (.ok .break_ f)
  | error (e : Stop) (f : Frame) (hstep : s.workerStep t = none)
    (he : e = .blocked ∨ e = .undefined ∧ s.pool.freed = true) :
    Turn s t (.error e f)

namespace Turn

variable {s : Sys} {f : Frame} {t : Nat} {tt : TThread}

theorem top (hsys : f.sys = s) (ht : s.thrds t = some tt) (hpc : tt.pc = .top) (hheld : f.held = [])
    : Turn s t ((loopBody t .top).run f) := by
  subst hsys
  have ht' : ({ f with wait := none, held := [.thrd t] } : Frame).sys.thrds t = some tt := ht
  have hlock := run_lock_thrd (f := { f with wait := none }) ht hheld
  rw [loopBody, bind_of_ok (run_setWait none), bind_of_ok hlock]
  cases hw : tt.currTask with
  | some w =>
    rw [run_top_task ht' hw (by simp)]
    refine .place (.call w) _ tt ht ?_ ?_
    . simp [heldAt, WorkerPc.locked]
    . simp [Sys.workerStep, ht, hpc, hw]
  | none =>
    rw [run_top_none ht' hw]
    refine .place .grp _ tt ht ?_ ?_
    . simp [heldAt, WorkerPc.locked]
    . simp [Sys.workerStep, ht, hpc, hw]

theorem call {w : Nat} (hsys : f.sys = s) (ht : s.thrds t = some tt) (hpc : tt.pc = .call w) (hheld : f.held = [])
    : Turn s t ((loopBody t (.call w)).run f) := by
  subst hsys
  rw [loopBody, bind_of_ok (run_modifySys _), EStateM.run_pure]
  refine .place (.inFunc w) _ tt ht ?_ ?_
  . simp [heldAt, WorkerPc.locked, hheld]
  . simp [Sys.workerStep, ht, hpc]

theorem inFunc {w : Nat} (hsys : f.sys = s) (ht : s.thrds t = some tt) (hpc : tt.pc = .inFunc w)
    (hheld : f.held = [])
    : Turn s t ((loopBody t (.inFunc w)).run f) := by
  subst hsys
  rw [loopBody, EStateM.run_pure]
  refine .place (.ret w) _ tt ht ?_ ?_
  . simp [heldAt, WorkerPc.locked, hheld]
  . simp [Sys.workerStep, ht, hpc]

theorem ret {w : Nat} (hsys : f.sys = s) (ht : s.thrds t = some tt) (hpc : tt.pc = .ret w) (hheld : f.held = [])
    : Turn s t ((loopBody t (.ret w)).run f) := by
  subst hsys
  have ht' : ({ f with held := [.thrd t] } : Frame).sys.thrds t = some tt := ht
  rw [loopBody, bind_of_ok (run_lock_thrd ht hheld), bind_of_ok (run_getThrd ht'), bind_of_ok (run_modifySys _),
    bind_of_ok (run_modifySys _), EStateM.run_pure]
  refine .place .grp _ { tt with currTask := none } ?_ ?_ ?_
  . simp
  . simp [heldAt, WorkerPc.locked]
  . simp [Sys.workerStep, ht, hpc]

theorem testIdle_ (hsys : f.sys = s) (ht : s.thrds t = some tt) (hpc : tt.pc = .sleep ∨ tt.pc = .blocked)
    (hheld : f.held = [.thrd t])
    : Turn s t ((testIdle t).run f) := by
  subst hsys
  rw [run_testIdle ht (by simp [hheld])]
  refine .place _ _ tt ht ?_ ?_
  . rw [hheld]
    split <;> simp [heldAt, WorkerPc.locked]
  . rcases hpc with hpc | hpc <;> simp only [Sys.workerStep, ht, hpc] <;> split <;> rfl

theorem sleep (hsys : f.sys = s) (ht : s.thrds t = some tt) (hpc : tt.pc = .sleep) (hheld : f.held = [.thrd t])
    : Turn s t ((loopBody t .sleep).run f) :=
  testIdle_ hsys ht (.inl hpc) hheld

theorem blocked (hsys : f.sys = s) (ht : s.thrds t = some tt) (hpc : tt.pc = .blocked) (hheld : f.held = [])
    : Turn s t ((loopBody t .blocked).run f) := by
  subst hsys
  rw [loopBody, bind_of_ok (run_lock_thrd ht hheld)]
  exact testIdle_ rfl ht (.inr hpc) rfl

theorem decr (hsys : f.sys = s) (ht : s.thrds t = some tt) (hpc : tt.pc = .decr) (hheld : f.held = [.thrd t])
    : Turn s t ((loopBody t .decr).run f) := by
  subst hsys
  rw [loopBody]
  by_cases hfreed : f.sys.pool.freed = true
  . rw [bind_of_error (run_lock_gone (by simp [taken, hfreed]))]
    refine .error .undefined f ?_ (.inr ⟨rfl, hfreed⟩)
    simp [Sys.workerStep, ht, hpc, TPool.unlocked, hfreed]
  . cases hmutex : f.sys.pool.mutexPool with
    | some o =>
      rw [bind_of_error (run_lock_taken (by simp [taken, hfreed, hmutex]))]
      refine .error .blocked f ?_ (.inl rfl)
      simp [Sys.workerStep, ht, hpc, TPool.unlocked, hmutex]
    | none =>
      rw [bind_of_ok (run_lock (by simp [taken, hfreed, hmutex]) (by simp [hheld])), bind_of_ok (run_modifySys _),
        bind_of_ok (run_unlock (by simp)), EStateM.run_pure]
      refine .place .sleep _ tt ht ?_ ?_
      . simp [heldAt, WorkerPc.locked, hheld]
      . simp [Sys.workerStep, ht, hpc, TPool.unlocked, hmutex, hfreed]

end Turn

theorem qFetch_of_nil {q : Q} (h : q.work.Coherent) (hitems : q.work.items = []) : q.qFetch = some (none, q) := by
  have hlen : q.work.len = 0 := by rw [h, hitems, List.length_nil]
  simp [Q.qFetch, Q.qEmpty, LL.emptyList, hlen]

theorem qFetch_of_cons {q : Q} {w : Nat} {rest : List Nat} (h : q.work.Coherent)
    (hitems : q.work.items = w :: rest)
    : q.qFetch = some (some w, { q with work := ⟨rest, q.work.len - 1⟩ }) := by
  have hlen : q.work.len = rest.length + 1 := by rw [h, hitems, List.length_cons]
  simp [Q.qFetch, Q.qEmpty, LL.emptyList, LL.listPop, hlen, hitems]

theorem setGroup_self {s : Sys} {g : Nat} {tg : TGroup} (hg : s.groups g = some tg) : s.setGroup g tg = s := by
  rw [Sys.setGroup, ← hg, update_eq_self]

/--
The part of the section in front of the test of the state. If the test is reached then the queue of the group
was empty, and the worker is running.
-/
inductive Reaches (s : Sys) (t : Nat) (tt : TThread) : EStateM.Result Stop Frame (Option Goto) → Prop where
  | ends (goto : Goto) (f : Frame) (h : Turn s t (.ok goto f)) : Reaches s t tt (.ok (some goto) f)
  | test (f : Frame) (tg : TGroup) (hg : s.groups tt.tg = some tg) (hmutex : tg.mutexGrp = none)
    (hhard : tg.hardKill = false) (hclean : tg.groupClean = false) (hitems : tg.q.work.items = [])
    (hsoft : tg.softKill = false) (hsys : f.sys = s.setThrd t { tt with currTask := none })
    (hheld : f.held = [.grp tt.tg, .thrd t]) :
    Reaches s t tt (.ok none f)
  | error (e : Stop) (f : Frame) (h : Turn s t (.error e f)) : Reaches s t tt (.error e f)

section

variable {s : Sys} {f : Frame} {t : Nat} {tt : TThread} {tg : TGroup}

theorem reaches_upToTest (hsys : f.sys = s) (ht : s.thrds t = some tt) (hpc : tt.pc = .grp)
    (hheld : f.held = [.thrd t]) (hrun : tt.state = .running) (hg : s.groups tt.tg = some tg)
    (hactive : t ∈ tg.activeThrds.items) (hclean : tg.groupClean = false) (hcoherent : tg.q.work.Coherent)
    : Reaches s t tt ((upToTest t).run f) := by
  subst hsys
  rw [upToTest, bind_of_ok (run_getThrd ht)]
  cases hmutex : tg.mutexGrp with
  | some o =>
    rw [bind_of_error (run_lock_taken (by simp [taken, hg, hmutex]))]
    refine .error .blocked f (.error .blocked f ?_ (.inl rfl))
    simp [Sys.workerStep, ht, hpc, hg, hmutex]
  | none =>
    have hgrp : Lock.grp tt.tg ∉ f.held := by simp [hheld]
    rw [bind_of_ok (run_lock (by simp [taken, hg, hmutex]) hgrp)]
    have hg' : ({ f with held := .grp tt.tg :: f.held } : Frame).sys.groups tt.tg = some tg := hg
    rw [bind_of_ok (run_getGroup hg')]
    by_cases hhard : tg.hardKill = true
    . rw [if_pos hhard, bind_of_ok (run_unlock (by simp)), EStateM.run_pure]
      refine .ends .break_ _ (.break_ _ tt tg ht hg ?_ hrun hactive ?_)
      . simp [hheld]
      . simp [Sys.workerStep, Sys.workerSection, ht, hpc, hg, hmutex, hhard]
    . rw [if_neg hhard, if_neg (by simp [hclean])]
      cases hitems : tg.q.work.items with
      | cons w rest =>
        simp only [qFetch_of_cons hcoherent hitems]
        rw [bind_of_ok (run_modifySys _), bind_of_ok (run_modifySys _), bind_of_ok (run_unlock (by simp)), run_map,
          run_top_task (w := w)]
        . refine .ends (.place (.call w)) _ (.place (.call w) _ { tt with currTask := some w } ?_ ?_ ?_)
          . simp
          . simp [heldAt, WorkerPc.locked, hheld]
          . simp [Sys.workerStep, Sys.workerSection, ht, hpc, hg, hmutex, hhard, hclean,
              qFetch_of_cons hcoherent hitems]
        . exact update_self _ _ _
        . rfl
        . simp [hheld]
      | nil =>
        simp only [qFetch_of_nil hcoherent hitems]
        rw [bind_of_ok (run_modifySys _), bind_of_ok (run_modifySys _), setGroup_self hg]
        by_cases hsoft : tg.softKill = true
        . rw [if_pos hsoft, bind_of_ok (run_unlock (by simp)), EStateM.run_pure]
          refine .ends .break_ _ (.break_ _ { tt with currTask := none } tg ?_ hg ?_ hrun hactive ?_)
          . simp
          . simp [hheld]
          . simp [Sys.workerStep, Sys.workerSection, ht, hpc, hg, hmutex, hhard, hclean, hsoft,
              qFetch_of_nil hcoherent hitems]
        . rw [if_neg hsoft, EStateM.run_pure]
          simp only [Bool.not_eq_true] at hhard hsoft
          exact .test _ tg hg hmutex hhard hclean hitems hsoft rfl (by simp [hheld])

/--
The variable is read after there was an assignment to it, since the worker is running.
-/
theorem turn_fromTest (hpc : tt.pc = .grp) (ht : s.thrds t = some tt) (hrun : tt.state = .running)
    (hg : s.groups tt.tg = some tg) (hmutex : tg.mutexGrp = none) (hhard : tg.hardKill = false)
    (hclean : tg.groupClean = false) (hcoherent : tg.q.work.Coherent) (hitems : tg.q.work.items = [])
    (hsoft : tg.softKill = false) (hsys : f.sys = s.setThrd t { tt with currTask := none })
    (hheld : f.held = [.grp tt.tg, .thrd t])
    : Turn s t ((fromTest t).run f) := by
  have ht' : f.sys.thrds t = some { tt with currTask := none } := by
    rw [hsys]
    exact update_self _ _ _
  have hg' : f.sys.groups tt.tg = some tg := by
    rw [hsys]
    exact hg
  have hfirst : (State.running == State.running) = true := rfl
  rw [fromTest, bind_of_ok (run_getThrd ht'), bind_of_ok (run_getGroup hg')]
  simp only [hrun, hfirst, when_true, bind_assoc]
  rw [bind_of_ok (run_modifySys _), bind_of_ok (run_setWait _), bind_of_ok (run_modifySys _),
    bind_of_ok (run_unlock (by simp [hheld])), bind_of_ok (run_readWait rfl), EStateM.run_pure]
  refine .place _ _ { tt with currTask := none, state := .idle } ?_ ?_ ?_
  . simp
  . simp only [hheld]
    split <;> simp [heldAt, WorkerPc.locked]
  . simp [Sys.workerStep, Sys.workerSection, ht, hpc, hg, hmutex, hhard, hclean, hsoft, hrun, hsys,
      qFetch_of_nil hcoherent hitems]

theorem turn_loopBody (hinv : WakeInv s) (hclean : ∀ g tg, s.groups g = some tg → tg.groupClean = false)
    (hsys : f.sys = s) (ht : s.thrds t = some tt) (hpc : tt.pc ≠ .leave) (hheld : f.held = heldAt t (some tt))
    : Turn s t ((loopBody t tt.pc).run f) := by
  cases hplace : tt.pc with
  | top => exact Turn.top hsys ht hplace (by simpa [heldAt, hplace, WorkerPc.locked] using hheld)
  | call w => exact Turn.call hsys ht hplace (by simpa [heldAt, hplace, WorkerPc.locked] using hheld)
  | inFunc w => exact Turn.inFunc hsys ht hplace (by simpa [heldAt, hplace, WorkerPc.locked] using hheld)
  | ret w => exact Turn.ret hsys ht hplace (by simpa [heldAt, hplace, WorkerPc.locked] using hheld)
  | decr => exact Turn.decr hsys ht hplace (by simpa [heldAt, hplace, WorkerPc.locked] using hheld)
  | sleep => exact Turn.sleep hsys ht hplace (by simpa [heldAt, hplace, WorkerPc.locked] using hheld)
  | blocked => exact Turn.blocked hsys ht hplace (by simpa [heldAt, hplace, WorkerPc.locked] using hheld)
  | leave => exact absurd hplace hpc
  | grp =>
    have hok := hinv.threads.ok t tt ht
    simp only [TThread.Ok, hplace] at hok
    obtain ⟨tg, hg⟩ := hinv.housed t tt ht
    have hactive := hinv.threads.active t tt tg ht hok.1 hg
    have hheld : f.held = [.thrd t] := by simpa [heldAt, hplace, WorkerPc.locked] using hheld
    have hcoherent := (hinv.drain.sound tt.tg tg hg).coherent
    have hreaches := reaches_upToTest hsys ht hplace hheld hok.1 hg hactive (hclean tt.tg tg hg) hcoherent
    rw [loopBody]
    cases hrun : (upToTest t).run f with
    | error e f' =>
      rw [hrun] at hreaches
      rw [bind_of_error hrun]
      cases hreaches with
      | error e f h => exact h
    | ok goto f' =>
      rw [hrun] at hreaches
      rw [bind_of_ok hrun]
      cases hreaches with
      | ends goto f h => exact h
      | test f tg' hg' hmutex hhard hclean hitems hsoft hsys hheld =>
        cases hg.symm.trans hg'
        exact turn_fromTest hplace ht hok.1 hg hmutex hhard hclean hcoherent hitems hsoft hsys hheld

/--
The worker does what the step of the system says. It stops if it has to wait for a mutex, or if it needs the
mutex of a pool that has been freed.
-/
inductive Agrees (s : Sys) (t : Nat) : EStateM.Result Stop Frame Unit → Prop where
  | ok (f : Frame) (hstep : s.workerStep t = some f.sys) (hheld : f.held = heldAt t (f.sys.thrds t)) :
    Agrees s t (.ok () f)
  | error (e : Stop) (f : Frame) (hstep : s.workerStep t = none)
    (he : e = .blocked ∨ e = .undefined ∧ s.pool.freed = true) :
    Agrees s t (.error e f)

theorem agrees_internalDestroyThread (hsys : f.sys = s) (ht : s.thrds t = some tt) (hpc : tt.pc = .leave)
    (hheld : f.held = []) (hrun : tt.state = .running) (hg : s.groups tt.tg = some tg)
    : Agrees s t ((internalDestroyThread t).run f) := by
  subst hsys
  rw [internalDestroyThread, bind_of_ok (run_getThrd ht)]
  cases hmutex : tg.mutexGrp with
  | some o =>
    rw [bind_of_error (run_lock_taken (by simp [taken, hg, hmutex]))]
    refine .error .blocked f ?_ (.inl rfl)
    simp [Sys.workerStep, ht, hpc, hg, hmutex]
  | none =>
    have hg' : ({ f with held := .grp tt.tg :: f.held } : Frame).sys.groups tt.tg = some tg := hg
    have hawake : (tt.state != .idle) = true := by simp [hrun]
    rw [bind_of_ok (run_lock (by simp [taken, hg, hmutex]) (by simp [hheld])), bind_of_ok (run_getGroup hg')]
    simp only [hawake]
    rw [bind_of_ok (run_ensure_true _), bind_of_ok (run_modifySys _), bind_of_ok (run_unlock (by simp)),
      run_modifySys]
    refine .ok _ ?_ ?_
    . simp [Sys.workerStep, Sys.leaveSection, ht, hpc, hg, hmutex, hrun]
    . simp [heldAt, hheld]

theorem agrees_workerThreadFunction (hinv : WakeInv s)
    (hclean : ∀ g tg, s.groups g = some tg → tg.groupClean = false) (hsys : f.sys = s)
    (ht : s.thrds t = some tt) (hheld : f.held = heldAt t (some tt))
    : Agrees s t ((workerThreadFunction t).run f) := by
  rw [workerThreadFunction, bind_of_ok (run_getThrd (hsys ▸ ht))]
  by_cases hpc : tt.pc = .leave
  . rw [if_pos hpc]
    have hok := hinv.threads.ok t tt ht
    simp only [TThread.Ok, hpc] at hok
    obtain ⟨tg, hg⟩ := hinv.housed t tt ht
    refine agrees_internalDestroyThread hsys ht hpc ?_ hok.1 hg
    simpa [heldAt, hpc, WorkerPc.locked] using hheld
  . rw [if_neg hpc]
    have hturn := turn_loopBody hinv hclean hsys ht hpc hheld
    cases hrun : (loopBody t tt.pc).run f with
    | error e f' =>
      rw [hrun] at hturn
      rw [bind_of_error hrun]
      cases hturn with
      | error e _ hstep he => exact .error e f' hstep he
    | ok goto f' =>
      rw [hrun] at hturn
      rw [bind_of_ok hrun]
      cases hturn with
      | place pc f tt' ht' hheld' hstep =>
        rw [proceed, run_setPlace pc ht']
        refine .ok _ hstep ?_
        simpa using hheld'
      | break_ f tt' tg ht' hg hheld' hrun' hactive hstep =>
        have hset := run_setPlace (f := { f' with held := f'.held.erase (.thrd t) }) .leave ht'
        rw [proceed, bind_of_ok (run_unlock (by simp [hheld'])), hset]
        refine .ok _ hstep ?_
        simp [heldAt, WorkerPc.locked, hheld']

end

end Worker

theorem clean_step {s s' : Sys} {a : Action} (h : ∀ g tg, s.groups g = some tg → tg.groupClean = false)
    (hs : Step s a s')
    : ∀ g tg, s'.groups g = some tg → tg.groupClean = false := by
  have hkeep : Keeps TGroup.groupClean s s' → ∀ g tg, s'.groups g = some tg → tg.groupClean = false := by
    intro hkeeps g tg' hg'
    obtain ⟨tg, hg, heq⟩ := hkeeps g tg' hg'
    rw [heq, h g tg hg]
  cases hs with
  | start req s' hs => cases hs <;> exact hkeep (keeps_of_eq rfl)
  | caller k s' hs =>
    cases hs with
    | build min max flags hpc =>
      intro g tg hg
      rcases setGroup_cases rfl hg with ⟨_, rfl⟩ | ⟨_, hg⟩
      . rfl
      . exact h g tg hg
    | spawn g n max tg hpc hg | endSpawn g max tg hpc hg | close g by_ tg hpc hg
    | wake g ts by_ tg t rest tt hpc hg | endWake g ts by_ tg hpc hg | queue g w tg pc hpc hg
    | reserve g w tg t rest hpc hg | flag g gs before tg hpc hg =>
      exact hkeep (keeps_setGroup rfl hg rfl)
    | endJoinPool g tg hpc hg | refund g tg hpc hg => exact hkeep (keeps_freeGroup rfl)
    | _ => exact hkeep (keeps_of_eq rfl)
  | worker t s' hs =>
    cases hs with
    | fetch tt tg w rest ht hpc hg | goIdle tt tg wait ht hpc hg | leave tt tg ht hpc hg =>
      exact hkeep (keeps_setGroup rfl hg rfl)
    | _ => exact hkeep (keeps_of_eq rfl)
  | manager m timedOut s' hs =>
    cases hs with
    | look g gs tg hpc hg | spawnTask g n gs tg w rest hpc hg | spawnNone g n gs tg hpc hg
    | endSpawn g gs tg hpc hg =>
      exact hkeep (keeps_setGroup rfl hg rfl)
    | _ => exact hkeep (keeps_of_eq rfl)

open Worker

section

variable {s s' : Sys} {a : Action} {i : Nat}

theorem heldAt_of_step (hf : Fresh s) (hs : Step s a s') (ha : ∀ t, a ≠ .worker t)
    : heldAt i (s'.thrds i) = heldAt i (s.thrds i) := by
  have hset : ∀ {t tt tt'}, s.thrds t = some tt → s'.thrds = update s.thrds t (some tt') → tt'.pc = tt.pc →
      heldAt i (s'.thrds i) = heldAt i (s.thrds i) := by
    intro t tt tt' ht hthrds hpc
    rw [hthrds, update_apply]
    split
    . next heq => rw [heq, ht, heldAt, heldAt, hpc]
    . rfl
  have hnew : ∀ {g tg work}, s'.thrds = (s.spawn g tg work).thrds →
      heldAt i (s'.thrds i) = heldAt i (s.thrds i) := by
    intro g tg work hthrds
    simp only [Sys.spawn, Sys.setThrd, Sys.setGroup] at hthrds
    rw [hthrds, update_apply]
    split
    . next heq =>
      rw [heq, hf.nextThrd_eq_none]
      rfl
    . rfl
  cases hs with
  | start req s' hs => cases hs <;> rfl
  | caller k s' hs =>
    cases hs with
    | spawn => exact hnew rfl
    | wake g ts by_ tg t rest tt hpc hg hlen hitems htt => exact hset htt rfl rfl
    | hand g t w tt hpc htt => exact hset htt rfl rfl
    | _ => rfl
  | worker t s' hs => exact absurd rfl (ha t)
  | manager m timedOut s' hs =>
    cases hs with
    | spawnTask | spawnNone => exact hnew rfl
    | _ => rfl

end

structure LoopInv (x : Loops) : Prop where
  wake : WakeInv x.sys
  clean : ∀ g tg, x.sys.groups g = some tg → tg.groupClean = false
  held : ∀ t, x.held t = heldAt t (x.sys.thrds t)

namespace LoopInv

variable {x x' : Loops} {s : Sys} {a : Action} {t : Nat}

theorem init {maxThrds : Nat} {tp : TPool} (h : TPool.initPool maxThrds = some tp) : LoopInv (.init tp) := by
  refine ⟨WakeInv.init h, ?_, fun _ => rfl⟩
  intro g tg hg
  cases hg

theorem agrees {tt : TThread} (h : LoopInv x) (ht : x.sys.thrds t = some tt)
    : Agrees x.sys t ((workerThreadFunction t).run (x.frame t)) := by
  refine agrees_workerThreadFunction h.wake h.clean rfl ht ?_
  rw [← ht]
  exact h.held t

theorem of_workerStep (h : LoopInv x) (hs : x.sys.workerStep t = some s)
    : ∃ f, (workerThreadFunction t).run (x.frame t) = .ok () f ∧ f.sys = s ∧ f.held = heldAt t (s.thrds t) := by
  cases ht : x.sys.thrds t with
  | none => simp [Sys.workerStep, ht] at hs
  | some tt =>
    have hagrees := h.agrees ht
    cases hrun : (workerThreadFunction t).run (x.frame t) with
    | ok u f =>
      rw [hrun] at hagrees
      cases hagrees with
      | ok f hstep hheld =>
        cases hs.symm.trans hstep
        exact ⟨f, rfl, rfl, hheld⟩
    | error e f =>
      rw [hrun] at hagrees
      cases hagrees with
      | error e f hstep he =>
        rw [hstep] at hs
        cases hs

theorem workerStep_of_ok {f : Frame} (h : LoopInv x) (hrun : (workerThreadFunction t).run (x.frame t) = .ok () f)
    : x.sys.workerStep t = some f.sys := by
  cases ht : x.sys.thrds t with
  | none =>
    rw [workerThreadFunction, bind_of_error (run_getThrd_gone ht)] at hrun
    cases hrun
  | some tt =>
    have hagrees := h.agrees ht
    rw [hrun] at hagrees
    cases hagrees with
    | ok f hstep hheld => exact hstep

theorem step_iff (h : LoopInv x) : (∃ x', x.step a = some x' ∧ x'.sys = s) ↔ x.sys.step a = some s := by
  cases a with
  | worker t =>
    constructor
    . rintro ⟨x', hs, rfl⟩
      simp only [Loops.step] at hs
      split at hs
      . next u f hrun =>
        cases hs
        exact h.workerStep_of_ok hrun
      . cases hs
    . intro hs
      obtain ⟨f, hrun, hsys, _⟩ := h.of_workerStep hs
      refine ⟨x.setFrame t f, ?_, hsys⟩
      simp only [Loops.step, hrun]
  | call req | caller k | manager m timedOut => simp [Loops.step]

theorem step (h : LoopInv x) (hs : x.step a = some x') : LoopInv x' := by
  have hsys := h.step_iff.mp ⟨x', hs, rfl⟩
  have hstep := step_of_step hsys
  refine ⟨h.wake.step hstep, clean_step h.clean hstep, ?_⟩
  intro i
  cases a with
  | worker t =>
    obtain ⟨f, hrun, hf, hheld⟩ := h.of_workerStep hsys
    simp only [Loops.step, hrun] at hs
    cases hs
    cases hstep with
    | worker t s' hstep =>
      simp only [Loops.setFrame, update_apply]
      split
      . next heq =>
        rw [heq]
        exact hheld
      . next hne =>
        rw [h.held, ← hstep.thrds_of_ne hne]
        rfl
  | call req | caller k | manager m timedOut =>
    simp only [Loops.step, Option.map_eq_some_iff] at hs
    obtain ⟨s, hs, rfl⟩ := hs
    rw [heldAt_of_step h.wake.fresh hstep (by simp)]
    exact h.held i

theorem of_run {maxThrds : Nat} {tp : TPool} {as : List Action} {x : Loops}
    (hinit : TPool.initPool maxThrds = some tp) (hrun : Lts.run Loops.step (.init tp) as = some x)
    : LoopInv x := by
  refine Lts.invariant_run ?_ (LoopInv.init hinit) hrun
  intro x a x' h hs
  exact h.step hs

theorem run_iff {as : List Action} (h : LoopInv x)
    : (∃ x', Lts.run Loops.step x as = some x' ∧ x'.sys = s) ↔ run x.sys as = some s := by
  induction as generalizing x with
  | nil => simp
  | cons a as ih =>
    simp only [run, Lts.run_cons, Option.bind_eq_some_iff]
    constructor
    . rintro ⟨x', ⟨y, hs, hrun⟩, hsys⟩
      exact ⟨y.sys, h.step_iff.mp ⟨y, hs, rfl⟩, (ih (h.step hs)).mp ⟨x', hrun, hsys⟩⟩
    . rintro ⟨s', hs, hrun⟩
      obtain ⟨y, hy, rfl⟩ := h.step_iff.mpr hs
      obtain ⟨x', hx', hsys⟩ := (ih (h.step hy)).mpr hrun
      exact ⟨x', ⟨y, hy, hx'⟩, hsys⟩

end LoopInv

structure LoopSafe (x : Loops) : Prop where
  test : ∀ t tt f, x.sys.thrds t = some tt → tt.pc = .grp → (upToTest t).run (x.frame t) = .ok none f →
    ∃ tt', f.sys.thrds t = some tt' ∧ tt'.state = .running
  stop : ∀ t e f, (workerThreadFunction t).run (x.frame t) = .error e f → e ≠ .assertFailed ∧ e ≠ .uninitialized
  break_ : ∀ t tt f, x.sys.thrds t = some tt → (loopBody t tt.pc).run (x.frame t) = .ok .break_ f →
    f.held = [.thrd t] ∧ ∃ tt' tg, f.sys.thrds t = some tt' ∧ tt'.state = .running ∧
      f.sys.groups tt'.tg = some tg ∧ t ∈ tg.activeThrds.items

theorem LoopInv.loopSafe {x : Loops} (h : LoopInv x) : LoopSafe x := by
  constructor
  . intro t tt f ht hpc hrun
    have hok := h.wake.threads.ok t tt ht
    simp only [TThread.Ok, hpc] at hok
    obtain ⟨tg, hg⟩ := h.wake.housed t tt ht
    have hheld : (x.frame t).held = [.thrd t] := by
      show x.held t = [.thrd t]
      rw [h.held, ht]
      simp [heldAt, hpc, WorkerPc.locked]
    have hactive := h.wake.threads.active t tt tg ht hok.1 hg
    have hreaches := reaches_upToTest rfl ht hpc hheld hok.1 hg hactive (h.clean tt.tg tg hg)
      (h.wake.drain.sound tt.tg tg hg).coherent
    rw [hrun] at hreaches
    cases hreaches with
    | test f tg' hg' hmutex hhard hclean hitems hsoft hsys hheld =>
      refine ⟨{ tt with currTask := none }, ?_, hok.1⟩
      rw [hsys]
      exact update_self _ _ _
  . intro t e f hrun
    cases ht : x.sys.thrds t with
    | none =>
      rw [workerThreadFunction, bind_of_error (run_getThrd_gone ht)] at hrun
      cases hrun
      simp
    | some tt =>
      have hagrees := h.agrees ht
      rw [hrun] at hagrees
      cases hagrees with
      | error e f hstep he => rcases he with rfl | ⟨rfl, _⟩ <;> simp
  . intro t tt f ht hrun
    have hpc : tt.pc ≠ .leave := by
      intro hpc
      rw [hpc] at hrun
      cases hrun
    have hheld : (x.frame t).held = heldAt t (some tt) := by
      rw [← ht]
      exact h.held t
    have hturn := turn_loopBody h.wake h.clean rfl ht hpc hheld
    rw [hrun] at hturn
    cases hturn with
    | break_ f tt' tg ht' hg hheld hrun hactive hstep => exact ⟨hheld, tt', tg, ht', hrun, hg, hactive⟩

theorem loopSafe_of_run {maxThrds : Nat} {tp : TPool} {as : List Action} {x : Loops}
    (hinit : TPool.initPool maxThrds = some tp) (hrun : Lts.run Loops.step (.init tp) as = some x)
    : LoopSafe x :=
  (LoopInv.of_run hinit hrun).loopSafe

theorem loopSafe_leaving_worker
    : ∃ tp x, TPool.initPool 4 = some tp ∧
        Lts.run Loops.step (.init tp) (.call (.addGroup 1 1 0) :: List.replicate 5 (.caller 0) ++
          .call (.destroyGroup 0) :: List.replicate 3 (.caller 1) ++ [.worker 0]) = some x ∧
        LoopSafe x ∧ x.held 0 = [.thrd 0] := by
  refine ⟨_, _, rfl, rfl, ?_, rfl⟩
  exact @loopSafe_of_run 4 _ (.call (.addGroup 1 1 0) :: List.replicate 5 (.caller 0) ++
    .call (.destroyGroup 0) :: List.replicate 3 (.caller 1) ++ [.worker 0]) _ rfl rfl

end Pool
