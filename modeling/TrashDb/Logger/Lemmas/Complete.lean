import TrashDb.Logger.Lemmas.Mutex

/-!
This module contains what the log file holds when `close_logger` has joined the log thread: the
records of the calls of `trash_log` that returned `LOGGED` in the cycle, once each and in the order in
which they were appended. The records that were appended are at all times those written, the one the
log thread has popped and those in the queue; the log thread leaves with an empty queue and keeps the
mutex, so that nothing is appended behind it.
-/

namespace Logger

def CallPc.accepted : CallPc → Bool
  | .signal | .unlock .logged | .returned .logged => true
  | _ => false

def CallPc.pending : CallPc → Bool
  | .lock | .check | .append => true
  | _ => false

def ThreadPc.inHand : ThreadPc → List Nat
  | .write k => [k]
  | _ => []

def Sys.written (s : Sys) : List Line := s.file.drop s.start

theorem not_pending_of_accepted {pc : CallPc} (h : pc.accepted = true) : pc.pending = false := by
  cases pc <;> first | rfl | cases h

structure Accounted (s : Sys) : Prop where
  coherent : s.logs.Coherent
  start_le : s.start ≤ s.file.length
  account : s.appended = s.written.map Line.record ++ (s.thread.inHand ++ s.logs.items)
  drained : s.thread = .exited ∨ s.main.down = true → s.logs.items = []

namespace Accounted

variable {s s' : Sys}

theorem init : Accounted .init := ⟨rfl, Nat.le_refl _, rfl, fun _ => rfl⟩

theorem frame (h : Accounted s) (hlogs : s'.logs = s.logs) (hfile : s'.file = s.file)
    (hstart : s'.start = s.start) (happended : s'.appended = s.appended)
    (hhand : s'.thread.inHand = s.thread.inHand)
    (hdrained : s'.thread = .exited ∨ s'.main.down = true → s.logs.items = [])
    : Accounted s' := by
  constructor
  . rw [hlogs]
    exact h.coherent
  . rw [hstart, hfile]
    exact h.start_le
  . rw [happended, Sys.written, hfile, hstart, hhand, hlogs]
    exact h.account
  . rw [hlogs]
    exact hdrained

theorem condSignal (h : Accounted s) : Accounted s.condSignal := by
  rcases condSignal_cases s with heq | ⟨hpc, heq⟩ <;> rw [heq]
  . exact h
  . refine h.frame rfl rfl rfl rfl (by rw [hpc]; rfl) ?_
    rintro (hexited | hdown)
    . cases hexited
    . exact h.drained (.inr hdown)

theorem callStep {k : Nat} (h : Accounted s) (howned : Owned s) (hstep : CallStep s k s')
    : Accounted s' := by
  cases hstep with
  | append hpc =>
    have hk : s.holds (.call k) = true := by rw [Sys.holds, hpc]; rfl
    refine ⟨h.coherent.listAppend k, h.start_le, ?_, ?_⟩
    . simp only [LL.listAppend_items]
      rw [h.account]
      simp [Sys.written, Sys.setCall]
    . rintro (hexited | hdown)
      . have hthread : s.holds .thread = true := by
          have hexited : s.thread = .exited := hexited
          rw [Sys.holds, hexited]
          rfl
        cases howned.excl.unique hk hthread
      . have hdown : s.main.down = true := hdown
        rw [howned.not_down hk] at hdown
        cases hdown
  | signal hpc hlen =>
    have hsignal := h.condSignal
    exact hsignal.frame rfl rfl rfl rfl rfl hsignal.drained
  | _ => exact h.frame rfl rfl rfl rfl rfl h.drained

theorem threadStep {now : String} (h : Accounted s) (howned : Owned s) (hstep : ThreadStep s now s')
    : Accounted s' := by
  have hdown : s.thread.holds = true → s.main.down = true → False := by
    intro hpc hd
    rw [not_down_of_up (howned.up_of_holds hpc)] at hd
    cases hd
  have hgo : ∀ pc : ThreadPc, ∀ m, pc ≠ .exited → pc.inHand = s.thread.inHand →
      Accounted { s with thread := pc, logMutex := m } := by
    intro pc m hpc hhand
    refine h.frame rfl rfl rfl rfl hhand ?_
    rintro (hexited | hd)
    . exact absurd hexited hpc
    . exact h.drained (.inr hd)
  cases hstep with
  | lock hpc hfree =>
    apply hgo .testWait _ (by simp)
    rcases hpc with hpc | hpc <;> rw [hpc] <;> rfl
  | wait hpc hlen hopen => exact hgo .asleep _ (by simp) (by rw [hpc]; rfl)
  | noWait hpc htest => exact hgo .testClose _ (by simp) (by rw [hpc]; rfl)
  | exit hpc hlen hclose =>
    refine h.frame rfl rfl rfl rfl (by rw [hpc]; rfl) fun _ => ?_
    have := h.coherent
    rw [LL.Coherent, hlen] at this
    exact List.length_eq_zero_iff.mp this.symm
  | noExit hpc htest => exact hgo .pop _ (by simp) (by rw [hpc]; rfl)
  | pop k rest hpc hlen hitems =>
    refine ⟨?_, h.start_le, ?_, ?_⟩
    . have := h.coherent
      rw [LL.Coherent, hitems, List.length_cons] at this
      show s.logs.len - 1 = rest.length
      omega
    . have := h.account
      rw [hpc, hitems] at this
      exact this
    . rintro (hexited | hd)
      . cases hexited
      . exact (hdown (by rw [hpc]; rfl) hd).elim
  | write k log hpc hlog =>
    refine ⟨h.coherent, ?_, ?_, ?_⟩
    . simp only [List.length_append]
      exact Nat.le_add_right_of_le h.start_le
    . have := h.account
      rw [hpc, Sys.written] at this
      simp only [Sys.written, List.drop_append_of_le_length h.start_le, List.map_append]
      rw [this]
      simp [ThreadPc.inHand]
    . rintro (hexited | hd)
      . cases hexited
      . exact (hdown (by rw [hpc]; rfl) hd).elim
  | unlock hpc => exact hgo .lock _ (by simp) (by rw [hpc]; rfl)

theorem mainStep (h : Accounted s) (hstep : MainStep s s') : Accounted s' := by
  -- the caller goes on to a place at which the queue need not be empty
  have hgo : ∀ pc : MainPc, ∀ m f, pc.down = false →
      Accounted { s with main := pc, logMutex := m, flags := f } := by
    intro pc m f hpc
    refine h.frame rfl rfl rfl rfl rfl ?_
    rintro (hexited | hd)
    . exact h.drained (.inl hexited)
    . rw [show pc.down = true from hd] at hpc
      cases hpc
  cases hstep with
  | initMutex hpc => exact hgo .initCond _ _ rfl
  | initCond hpc => exact hgo (.fopen 0) _ _ rfl
  | setOpen hpc => exact hgo .create _ _ rfl
  | closeLock hpc hfree => exact hgo .setClose _ _ rfl
  | setClose hpc => exact hgo .signal _ _ rfl
  | signal hpc =>
    have hsignal := h.condSignal
    refine hsignal.frame rfl rfl rfl rfl rfl ?_
    rintro (hexited | hd)
    . exact hsignal.drained (.inl hexited)
    . cases hd
  | unlock hpc => exact hgo .join _ _ rfl
  | join hpc hexited =>
    exact h.frame rfl rfl rfl rfl (by rw [hexited]; rfl) fun _ => h.drained (.inl hexited)
  | destroyMutex hpc =>
    exact h.frame rfl rfl rfl rfl rfl fun _ => h.drained (.inr (by rw [hpc]; rfl))
  | destroyCond hpc =>
    exact h.frame rfl rfl rfl rfl rfl fun _ => h.drained (.inr (by rw [hpc]; rfl))

theorem step {a : Action} (h : Accounted s) (howned : Owned s) (hstep : Step s a s')
    : Accounted s' := by
  have hgo : ∀ pc : MainPc, pc.down = false → Accounted { s with main := pc } := by
    intro pc hpc
    refine h.frame rfl rfl rfl rfl rfl ?_
    rintro (hexited | hd)
    . exact h.drained (.inl hexited)
    . rw [show pc.down = true from hd] at hpc
      cases hpc
  cases hstep with
  | trashLog log => exact h.frame rfl rfl rfl rfl rfl h.drained
  | call k _ hcall => exact h.callStep howned hcall
  | thread now _ hthread => exact h.threadStep howned hthread
  | spuriousWakeup hpc =>
    refine h.frame rfl rfl rfl rfl (by rw [hpc]; rfl) ?_
    rintro (hexited | hd)
    . cases hexited
    . exact h.drained (.inr hd)
  | initLogger hpc =>
    refine ⟨LL.coherent_initList, Nat.le_refl _, ?_, fun _ => rfl⟩
    simp [Sys.written, LL.initList, howned.absent (by rw [hpc]; rfl), ThreadPc.inHand]
  | closeLogger hpc => exact hgo .closeLock rfl
  | fopen attempts res pc hpc hnext => rcases hnext with rfl | rfl | rfl <;> exact hgo _ rfl
  | create rc hpc hrc =>
    refine h.frame rfl rfl rfl rfl (by rw [howned.absent (by rw [hpc]; rfl)]; rfl) ?_
    rintro (hexited | hd)
    . cases hexited
    . cases hd
  | createFail rc hpc hrc => exact hgo .failed rfl
  | main _ hmain => exact h.mainStep hmain

end Accounted

/--
Which calls a cycle is made of: those that took the mutex in it. A call is in the middle of
`trash_log` only in the cycle in which it took the mutex.
-/
structure Taken (s : Sys) : Prop where
  mem_iff : ∀ k, k ∈ s.appended ↔ s.takenIn k = some s.cycle ∧ (s.calls k).accepted = true
  inside : ∀ k, (s.calls k).holds = true → s.takenIn k = some s.cycle
  le : ∀ k c, s.takenIn k = some c → c ≤ s.cycle
  fresh : ∀ k, s.nextCall ≤ k → s.calls k = .absent ∧ s.takenIn k = none
  nodup : s.appended.Nodup

namespace Taken

variable {s s' : Sys}

theorem init : Taken .init := by
  constructor
  . intro k
    exact ⟨nofun, nofun⟩
  . intro k hk
    cases hk
  . intro k c hc
    cases hc
  . intro k _
    exact ⟨rfl, rfl⟩
  . exact List.nodup_nil

theorem frame (h : Taken s) (happended : s'.appended = s.appended) (htaken : s'.takenIn = s.takenIn)
    (hcycle : s'.cycle = s.cycle) (hcalls : s'.calls = s.calls) (hnext : s'.nextCall = s.nextCall)
    : Taken s' := by
  constructor
  . rw [happended, htaken, hcycle, hcalls]
    exact h.mem_iff
  . rw [htaken, hcycle, hcalls]
    exact h.inside
  . rw [htaken, hcycle]
    exact h.le
  . rw [htaken, hcalls, hnext]
    exact h.fresh
  . rw [happended]
    exact h.nodup

theorem lt_nextCall (h : Taken s) {k : Nat} (hk : s.calls k ≠ .absent) : k < s.nextCall := by
  by_contra hge
  exact hk (h.fresh k (Nat.le_of_not_lt hge)).1

theorem inside_update {k : Nat} (pc : CallPc) (h : Taken s) (hk : (s.calls k).holds = true) {i : Nat}
    (hi : (Function.update s.calls k pc i).holds = true)
    : s.takenIn i = some s.cycle := by
  rw [Function.update_apply] at hi
  split at hi
  . next heq =>
    rw [heq]
    exact h.inside k hk
  . exact h.inside i hi

theorem fresh_update {k : Nat} (pc : CallPc) (h : Taken s) (hk : s.calls k ≠ .absent) {i : Nat}
    (hi : s.nextCall ≤ i)
    : Function.update s.calls k pc i = .absent ∧ s.takenIn i = none := by
  have hlt := h.lt_nextCall hk
  rw [Function.update_of_ne (by omega)]
  exact h.fresh i hi

theorem setCall {k : Nat} {pc : CallPc} (h : Taken s) (hk : (s.calls k).holds = true)
    (haccepted : pc.accepted = (s.calls k).accepted)
    : Taken (s.setCall k pc) := by
  have hne : s.calls k ≠ .absent := by
    intro habsent
    rw [habsent] at hk
    cases hk
  constructor
  . intro i
    show i ∈ s.appended ↔ s.takenIn i = some s.cycle ∧ (Function.update s.calls k pc i).accepted = true
    rw [h.mem_iff, Function.update_apply]
    split
    . next heq => rw [heq, haccepted]
    . rfl
  . exact fun i => h.inside_update pc hk
  . exact h.le
  . exact fun i => h.fresh_update pc hne
  . exact h.nodup

theorem condSignal (h : Taken s) : Taken s.condSignal := by
  rcases condSignal_cases s with heq | ⟨hpc, heq⟩ <;> rw [heq]
  . exact h
  . exact h.frame rfl rfl rfl rfl rfl

theorem lock {k : Nat} (h : Taken s) (hpc : s.calls k = .lock)
    : Taken { s.setCall k .check with
        logMutex := some (some (.call k)), takenIn := Function.update s.takenIn k (some s.cycle) } := by
  have hne : s.calls k ≠ .absent := by rw [hpc]; nofun
  constructor
  . intro i
    show i ∈ s.appended ↔
      Function.update s.takenIn k (some s.cycle) i = some s.cycle ∧
        (Function.update s.calls k .check i).accepted = true
    rw [h.mem_iff, Function.update_apply, Function.update_apply]
    split
    . next heq => simp [heq, hpc, CallPc.accepted]
    . rfl
  . intro i hi
    show Function.update s.takenIn k (some s.cycle) i = some s.cycle
    replace hi : (Function.update s.calls k .check i).holds = true := hi
    rw [Function.update_apply] at hi ⊢
    split
    . rfl
    . next hne =>
      rw [if_neg hne] at hi
      exact h.inside i hi
  . intro i c hc
    replace hc : Function.update s.takenIn k (some s.cycle) i = some c := hc
    rw [Function.update_apply] at hc
    split at hc
    . cases hc
      exact Nat.le_refl _
    . exact h.le i c hc
  . intro i hi
    have hlt := h.lt_nextCall hne
    have hik : i ≠ k := by
      have : s.nextCall ≤ i := hi
      omega
    simp only [Sys.setCall, Function.update_of_ne hik]
    exact h.fresh i hi
  . exact h.nodup

theorem append {k : Nat} (h : Taken s) (hpc : s.calls k = .append)
    : Taken { s.setCall k .signal with
        logs := s.logs.listAppend k, appended := s.appended ++ [k] } := by
  have hk : (s.calls k).holds = true := by rw [hpc]; rfl
  have hne : s.calls k ≠ .absent := by rw [hpc]; nofun
  have hnot : k ∉ s.appended := by
    rw [h.mem_iff, hpc]
    exact fun ⟨_, hacc⟩ => nomatch hacc
  constructor
  . intro i
    show i ∈ s.appended ++ [k] ↔
      s.takenIn i = some s.cycle ∧ (Function.update s.calls k .signal i).accepted = true
    rw [List.mem_append, List.mem_singleton, h.mem_iff, Function.update_apply]
    split
    . next heq => simp [heq, h.inside k hk, CallPc.accepted]
    . next hne => simp [hne]
  . exact fun i => h.inside_update .signal hk
  . exact h.le
  . exact fun i => h.fresh_update .signal hne
  . refine List.nodup_append.mpr ⟨h.nodup, by simp, ?_⟩
    rintro i hi j hj rfl
    rw [List.mem_singleton.mp hj] at hi
    exact hnot hi

theorem callStep {k : Nat} (h : Taken s) (hstep : CallStep s k s') : Taken s' := by
  cases hstep with
  | lock hpc hfree => exact h.lock hpc
  | accept hpc hopen => exact h.setCall (by rw [hpc]; rfl) (by rw [hpc]; rfl)
  | refuse hpc hopen => exact h.setCall (by rw [hpc]; rfl) (by rw [hpc]; rfl)
  | append hpc => exact h.append hpc
  | signal hpc hlen =>
    apply h.condSignal.setCall <;> rw [condSignal_calls, hpc] <;> rfl
  | noSignal hpc hlen => exact h.setCall (by rw [hpc]; rfl) (by rw [hpc]; rfl)
  | unlock rc hpc =>
    have hset : Taken (s.setCall k (.returned rc)) := by
      apply h.setCall <;> rw [hpc]
      . rfl
      . cases rc <;> rfl
    exact hset.frame rfl rfl rfl rfl rfl

theorem callTrashLog (h : Taken s) (log : LogInfo) : Taken (s.callTrashLog log) := by
  have hfresh := h.fresh s.nextCall (Nat.le_refl _)
  constructor
  . intro i
    show i ∈ s.appended ↔
      s.takenIn i = some s.cycle ∧ (Function.update s.calls s.nextCall .lock i).accepted = true
    rw [h.mem_iff, Function.update_apply]
    split
    . next heq => simp [heq, hfresh]
    . rfl
  . intro i hi
    replace hi : (Function.update s.calls s.nextCall .lock i).holds = true := hi
    rw [Function.update_apply] at hi
    split at hi
    . cases hi
    . exact h.inside i hi
  . exact h.le
  . intro i hi
    replace hi : s.nextCall + 1 ≤ i := hi
    have hne : i ≠ s.nextCall := by omega
    simp only [Sys.callTrashLog, Sys.setCall, Function.update_of_ne hne]
    exact h.fresh i (by omega)
  . exact h.nodup

theorem initLogger (h : Taken s) (howned : Owned s) (hpc : s.main = .idle)
    : Taken { s with
        main := .initMutex, logs := .initList, cycle := s.cycle + 1, start := s.file.length,
        appended := [] } := by
  constructor
  . intro k
    refine ⟨nofun, fun ⟨htaken, _⟩ => ?_⟩
    exact absurd (h.le k _ htaken) (Nat.not_succ_le_self _)
  . intro k hk
    have := howned.not_down (k := k) hk
    rw [hpc] at this
    cases this
  . intro k c hc
    exact Nat.le_succ_of_le (h.le k c hc)
  . exact h.fresh
  . exact List.nodup_nil

theorem step {a : Action} (h : Taken s) (howned : Owned s) (hstep : Step s a s') : Taken s' := by
  cases hstep with
  | trashLog log => exact h.callTrashLog log
  | call k _ hcall => exact h.callStep hcall
  | thread now _ hthread => cases hthread <;> exact h.frame rfl rfl rfl rfl rfl
  | initLogger hpc => exact h.initLogger howned hpc
  | main _ hmain =>
    cases hmain with
    | signal hpc => exact h.condSignal.frame rfl rfl rfl rfl rfl
    | _ => exact h.frame rfl rfl rfl rfl rfl
  | _ => exact h.frame rfl rfl rfl rfl rfl

end Taken

/--
What becomes of the memory of a record: it stays as the call filled it until the log thread has
written and freed it.
-/
structure Records (s : Sys) : Prop where
  pending : ∀ k, (s.calls k).pending = true → s.heap k = s.args k
  queued : ∀ k ∈ s.thread.inHand ++ s.logs.items, s.heap k = s.args k
  lines : ∀ l ∈ s.file, s.args l.record = some l.log
  accepted : ∀ k, k ∈ s.file.map Line.record ++ (s.thread.inHand ++ s.logs.items) →
    (s.calls k).accepted = true

namespace Records

variable {s s' : Sys}

theorem init : Records .init := by
  constructor
  . intro k hk
    cases hk
  . intro k hk
    cases hk
  . intro l hl
    cases hl
  . intro k hk
    cases hk

theorem frame (h : Records s) (hcalls : s'.calls = s.calls) (hheap : s'.heap = s.heap)
    (hargs : s'.args = s.args) (hfile : s'.file = s.file)
    (hqueue : ∀ k ∈ s'.thread.inHand ++ s'.logs.items, k ∈ s.thread.inHand ++ s.logs.items)
    : Records s' := by
  constructor
  . rw [hcalls, hheap, hargs]
    exact h.pending
  . rw [hheap, hargs]
    exact fun k hk => h.queued k (hqueue k hk)
  . rw [hfile, hargs]
    exact h.lines
  . rw [hfile, hcalls]
    intro k hk
    apply h.accepted k
    rcases List.mem_append.mp hk with hk | hk
    . exact List.mem_append_left _ hk
    . exact List.mem_append_right _ (hqueue k hk)

theorem condSignal (h : Records s) : Records s.condSignal := by
  rcases condSignal_cases s with heq | ⟨hpc, heq⟩ <;> rw [heq]
  . exact h
  . exact h.frame rfl rfl rfl rfl (by simp [hpc, ThreadPc.inHand])

theorem setCall {k : Nat} {pc : CallPc} (h : Records s)
    (hpending : pc.pending = true → (s.calls k).pending = true)
    (haccepted : (s.calls k).accepted = true → pc.accepted = true)
    : Records (s.setCall k pc) := by
  constructor
  . intro i hi
    replace hi : (Function.update s.calls k pc i).pending = true := hi
    rw [Function.update_apply] at hi
    split at hi
    . next heq =>
      rw [heq]
      exact h.pending k (hpending hi)
    . exact h.pending i hi
  . exact h.queued
  . exact h.lines
  . intro i hi
    show (Function.update s.calls k pc i).accepted = true
    have hacc := h.accepted i hi
    rw [Function.update_apply]
    split
    . next heq =>
      rw [heq] at hacc
      exact haccepted hacc
    . exact hacc

theorem append {k : Nat} (h : Records s) (hpc : s.calls k = .append)
    : Records { s.setCall k .signal with
        logs := s.logs.listAppend k, appended := s.appended ++ [k] } := by
  have hset : Records (s.setCall k .signal) :=
    h.setCall nofun (fun hacc => by rw [hpc] at hacc; cases hacc)
  have hheap : s.heap k = s.args k := h.pending k (by rw [hpc]; rfl)
  have hmem : ∀ i, i ∈ s.thread.inHand ++ (s.logs.listAppend k).items →
      i ∈ s.thread.inHand ++ s.logs.items ∨ i = k := by
    intro i hi
    simpa [or_assoc] using hi
  refine ⟨hset.pending, ?_, hset.lines, ?_⟩
  . intro i hi
    rcases hmem i hi with hi | rfl
    . exact h.queued i hi
    . exact hheap
  . intro i hi
    rcases List.mem_append.mp hi with hi | hi
    . exact hset.accepted i (List.mem_append_left _ hi)
    . rcases hmem i hi with hi | rfl
      . exact hset.accepted i (List.mem_append_right _ hi)
      . show (Function.update s.calls i .signal i).accepted = true
        rw [Function.update_self]
        rfl

theorem callStep {k : Nat} (h : Records s) (hstep : CallStep s k s') : Records s' := by
  cases hstep with
  | lock hpc hfree =>
    have hset : Records (s.setCall k .check) := by
      apply h.setCall <;> rw [hpc]
      . exact fun _ => rfl
      . exact nofun
    exact hset.frame rfl rfl rfl rfl fun _ => id
  | accept hpc hopen =>
    apply h.setCall <;> rw [hpc]
    . exact fun _ => rfl
    . exact nofun
  | refuse hpc hopen => apply h.setCall <;> rw [hpc] <;> exact nofun
  | append hpc => exact h.append hpc
  | signal hpc hlen => exact h.condSignal.setCall nofun fun _ => rfl
  | noSignal hpc hlen => exact h.setCall nofun fun _ => rfl
  | unlock rc hpc =>
    have hset : Records (s.setCall k (.returned rc)) := by
      apply h.setCall <;> rw [hpc]
      . exact nofun
      . cases rc <;> exact id
    exact hset.frame rfl rfl rfl rfl fun _ => id

theorem threadStep {now : String} (h : Records s) (haccounted : Accounted s) (htaken : Taken s)
    (hstep : ThreadStep s now s')
    : Records s' := by
  cases hstep with
  | lock hpc hfree =>
    refine h.frame rfl rfl rfl rfl ?_
    rcases hpc with hpc | hpc <;> simp [hpc, ThreadPc.inHand]
  | pop k rest hpc hlen hitems =>
    exact h.frame rfl rfl rfl rfl (by simp [hpc, hitems, ThreadPc.inHand])
  | write k log hpc hlog =>
    have hhand : k ∈ s.thread.inHand ++ s.logs.items := by simp [hpc, ThreadPc.inHand]
    have hacc : (s.calls k).accepted = true := h.accepted k (List.mem_append_right _ hhand)
    -- the record is in the queue only once
    have hnot : k ∉ s.logs.items := by
      have hnodup := htaken.nodup
      rw [haccounted.account, hpc] at hnodup
      exact (List.nodup_cons.mp (List.nodup_append.mp hnodup).2.1).1
    have hold : ∀ i, i ≠ k → Function.update s.heap k none i = s.heap i :=
      fun i hi => Function.update_of_ne hi ..
    constructor
    . intro i hi
      have hne : i ≠ k := by
        rintro rfl
        rw [not_pending_of_accepted hacc] at hi
        cases hi
      exact (hold i hne).trans (h.pending i hi)
    . intro i hi
      have hne : i ≠ k := by
        rintro rfl
        exact hnot hi
      exact (hold i hne).trans (h.queued i (List.mem_append_right _ hi))
    . intro l hl
      rcases List.mem_append.mp hl with hl | hl
      . exact h.lines l hl
      . rw [List.mem_singleton.mp hl]
        exact (h.queued k hhand).symm.trans hlog
    . intro i hi
      apply h.accepted i
      simpa [hpc, ThreadPc.inHand, or_assoc] using hi
  | _ hpc => exact h.frame rfl rfl rfl rfl (by simp [hpc, ThreadPc.inHand])

theorem callTrashLog (h : Records s) (htaken : Taken s) (log : LogInfo)
    : Records (s.callTrashLog log) := by
  have hfresh := (htaken.fresh s.nextCall (Nat.le_refl _)).1
  have hne : ∀ i, (s.calls i).accepted = true → i ≠ s.nextCall := by
    rintro i hi rfl
    rw [hfresh] at hi
    cases hi
  constructor
  . intro i hi
    show Function.update s.heap s.nextCall (some log) i = Function.update s.args s.nextCall (some log) i
    replace hi : (Function.update s.calls s.nextCall .lock i).pending = true := hi
    rw [Function.update_apply] at hi
    rw [Function.update_apply, Function.update_apply]
    split
    . rfl
    . next hi' =>
      rw [if_neg hi'] at hi
      exact h.pending i hi
  . intro i hi
    have := hne i (h.accepted i (List.mem_append_right _ hi))
    simp only [Sys.callTrashLog, Function.update_of_ne this]
    exact h.queued i hi
  . intro l hl
    have := hne l.record (h.accepted _ (List.mem_append_left _ (List.mem_map_of_mem hl)))
    simp only [Sys.callTrashLog, Function.update_of_ne this]
    exact h.lines l hl
  . intro i hi
    have hacc := h.accepted i hi
    simp only [Sys.callTrashLog, Sys.setCall, Function.update_of_ne (hne i hacc)]
    exact hacc

theorem step {a : Action} (h : Records s) (howned : Owned s) (haccounted : Accounted s)
    (htaken : Taken s) (hstep : Step s a s')
    : Records s' := by
  cases hstep with
  | trashLog log => exact h.callTrashLog htaken log
  | call k _ hcall => exact h.callStep hcall
  | thread now _ hthread => exact h.threadStep haccounted htaken hthread
  | spuriousWakeup hpc => exact h.frame rfl rfl rfl rfl (by simp [hpc, ThreadPc.inHand])
  | initLogger hpc =>
    refine h.frame rfl rfl rfl rfl ?_
    simp [howned.absent (by rw [hpc]; rfl), ThreadPc.inHand, LL.initList]
  | create rc hpc hrc =>
    refine h.frame rfl rfl rfl rfl ?_
    simp [howned.absent (by rw [hpc]; rfl), ThreadPc.inHand]
  | main _ hmain =>
    cases hmain with
    | signal hpc => exact h.condSignal.frame rfl rfl rfl rfl fun _ => id
    | join hpc hexited => exact h.frame rfl rfl rfl rfl (by simp [hexited, ThreadPc.inHand])
    | _ => exact h.frame rfl rfl rfl rfl fun _ => id
  | _ => exact h.frame rfl rfl rfl rfl fun _ => id

end Records

/--
`close_logger` has set `CLOSE_Q`, and `init_logger` has not been called since.
-/
def MainPc.closed : MainPc → Bool
  | .signal | .unlock | .join | .destroyMutex | .destroyCond | .idle => true
  | _ => false

structure Inv (s : Sys) : Prop where
  owned : Owned s
  accounted : Accounted s
  taken : Taken s
  records : Records s
  flags : s.main = .signal ∨ s.main = .unlock ∨ s.main = .join → s.flags = closeQ

namespace Inv

variable {s s' : Sys}

theorem init : Inv .init := ⟨.init, .init, .init, .init, by simp [Sys.init]⟩

theorem step {a : Action} (h : Inv s) (hstep : Step s a s') : Inv s' := by
  refine ⟨h.owned.step hstep, h.accounted.step h.owned hstep, h.taken.step h.owned hstep,
    h.records.step h.owned h.accounted h.taken hstep, ?_⟩
  have hflags := h.flags
  cases hstep with
  | call k _ hcall =>
    cases hcall with
    | signal hpc hlen => rcases condSignal_cases s with heq | ⟨_, heq⟩ <;> rw [heq] <;> exact hflags
    | _ => exact hflags
  | thread now _ hthread => cases hthread <;> exact hflags
  | main _ hmain =>
    cases hmain with
    | setClose hpc => exact fun _ => rfl
    | signal hpc =>
      intro _
      have := hflags (.inl hpc)
      rcases condSignal_cases s with heq | ⟨_, heq⟩ <;> rw [heq] <;> exact this
    | unlock hpc => exact fun _ => hflags (.inr (.inl hpc))
    | _ => simp
  | fopen attempts res pc hpc hnext => rcases hnext with rfl | rfl | rfl <;> simp
  | trashLog log => exact hflags
  | spuriousWakeup hpc => exact hflags
  | _ => simp

theorem of_run {as : List Action} (hrun : run .init as = some s) : Inv s :=
  Lts.invariant_run (fun _ _ _ h hstep => h.step (step_of_run hstep)) init hrun

end Inv

structure Complete (s : Sys) : Prop where
  once : s.appended.Nodup
  order : s.written.map Line.record = s.appended
  logged : ∀ k, k ∈ s.appended ↔ s.takenIn k = some s.cycle ∧ s.calls k = .returned .logged
  record : ∀ l ∈ s.written, s.args l.record = some l.log

theorem Inv.complete {s : Sys} (h : Inv s) (hpc : s.main = .destroyMutex) : Complete s := by
  have hdown : s.main.down = true := by rw [hpc]; rfl
  have hempty := h.accounted.drained (.inr hdown)
  have habsent := h.owned.absent (by rw [hpc]; rfl)
  constructor
  . exact h.taken.nodup
  . have := h.accounted.account
    rw [hempty, habsent] at this
    simpa [ThreadPc.inHand] using this.symm
  . intro k
    have hout : (s.calls k).holds = false := by
      cases hk : (s.calls k).holds with
      | false => rfl
      | true =>
        have := h.owned.not_down (k := k) hk
        rw [hdown] at this
        cases this
    rw [h.taken.mem_iff]
    cases hcall : s.calls k with
    | returned rc => cases rc <;> simp [CallPc.accepted]
    | signal =>
      rw [hcall] at hout
      cases hout
    | unlock rc =>
      rw [hcall] at hout
      cases hout
    | _ => simp [CallPc.accepted]
  . intro l hl
    exact h.records.lines l (List.mem_of_mem_drop hl)

/--
A call that is refused: whatever has happened since it took the mutex, its record is neither in the
queue nor in the file, and its own next steps return `LOG_ERROR`.
-/
structure Refused (s : Sys) (k : Nat) : Prop where
  notQueued : k ∉ s.logs.items
  notWritten : k ∉ s.file.map Line.record
  returns : ∃ n t, run s (List.replicate n (.call k)) = some t ∧ t.calls k = .returned .logError

/--
The call found the logger closed, or it holds the mutex and will find it closed.
-/
def Late (s : Sys) (k : Nat) : Prop :=
  s.calls k = .check ∧ s.main = .join ∨ s.calls k = .unlock .logError ∨ s.calls k = .returned .logError

theorem eq_join {pc : MainPc} (hclosed : pc.closed = true) (hdown : pc.down = false)
    (hholds : pc.holds = false)
    : pc = .join := by
  cases pc <;> simp_all [MainPc.closed, MainPc.down, MainPc.holds]

namespace Late

variable {s s' : Sys} {k : Nat}

theorem of_calls (h : Late s k) (hcalls : s'.calls k = s.calls k) (hmain : s'.main = s.main)
    : Late s' k := by
  unfold Late
  rw [hcalls, hmain]
  exact h

theorem callStep {i : Nat} (h : Late s k) (hinv : Inv s) (hstep : CallStep s i s') : Late s' k := by
  by_cases hne : i = k
  . subst hne
    have hset : ∀ (t : Sys) (pc : CallPc), Function.update t.calls i pc i = pc :=
      fun t pc => Function.update_self ..
    cases hstep with
    | lock hpc hfree => simp [Late, hpc] at h
    | accept hpc hopen =>
      obtain ⟨-, hmain⟩ | hout | hout := h
      . rw [Sys.isOpen, hinv.flags (.inr (.inr hmain))] at hopen
        cases hopen
      . rw [hpc] at hout
        cases hout
      . rw [hpc] at hout
        cases hout
    | refuse hpc hopen => exact .inr (.inl (hset ..))
    | append hpc => simp [Late, hpc] at h
    | signal hpc hlen => simp [Late, hpc] at h
    | noSignal hpc hlen => simp [Late, hpc] at h
    | unlock rc hpc =>
      obtain ⟨hout, -⟩ | hout | hout := h
      . rw [hpc] at hout
        cases hout
      . rw [hpc] at hout
        cases hout
        exact .inr (.inr (hset ..))
      . rw [hpc] at hout
        cases hout
  . have hother : ∀ (t : Sys) (pc : CallPc), Function.update t.calls i pc k = t.calls k :=
      fun t pc => Function.update_of_ne (Ne.symm hne) ..
    cases hstep with
    | signal hpc hlen =>
      exact h.of_calls ((hother ..).trans (by rw [condSignal_calls])) (condSignal_main s)
    | _ => exact h.of_calls (hother ..) rfl

theorem step {a : Action} (h : Late s k) (hinv : Inv s) (hstep : Step s a s') : Late s' k := by
  -- as long as the call holds the mutex, the log thread does not end
  have hmoves : ∀ t : Sys, t.calls = s.calls → (s.main = .join → t.main = .join) → Late t k := by
    intro t hcalls hmain
    unfold Late at h ⊢
    rw [hcalls]
    exact h.imp_left (And.imp_right hmain)
  cases hstep with
  | trashLog log =>
    have hne : k ≠ s.nextCall := by
      rintro rfl
      have := (hinv.taken.fresh _ (Nat.le_refl _)).1
      simp [Late, this] at h
    exact h.of_calls (Function.update_of_ne hne ..) rfl
  | call i _ hcall => exact h.callStep hinv hcall
  | thread now _ hthread => cases hthread <;> exact hmoves _ rfl id
  | spuriousWakeup hpc => exact hmoves _ rfl id
  | main _ hmain =>
    cases hmain with
    | join hpc hexited =>
      have hthread : s.holds .thread = true := by rw [Sys.holds, hexited]; rfl
      refine .inr (h.resolve_left fun hleft => ?_)
      have hcheck := hleft.1
      have hcall : s.holds (.call k) = true := by rw [Sys.holds, hcheck]; rfl
      cases hinv.owned.excl.unique hcall hthread
    | signal hpc => exact hmoves _ (condSignal_calls s) (by simp [hpc])
    | _ hpc => exact hmoves _ rfl (by simp [hpc])
  | fopen attempts res pc hpc hnext => exact hmoves _ rfl (by simp [hpc])
  | create rc hpc hrc => exact hmoves _ rfl (by simp [hpc])
  | createFail rc hpc hrc => exact hmoves _ rfl (by simp [hpc])
  | _ hpc => exact hmoves _ rfl (by simp [hpc])

theorem of_lock (hinv : Inv s) (hclosed : s.main.closed = true) (hpc : s.calls k = .lock)
    (hstep : CallStep s k s')
    : Late s' k := by
  cases hstep with
  | lock _ hfree =>
    refine .inl ⟨Function.update_self .., ?_⟩
    show s.main = .join
    have hdown := hinv.owned.not_down_of_free hfree
    have hholds : s.holds .main = false := hinv.owned.excl.not_of_ne (by rw [hfree]; nofun)
    exact eq_join hclosed hdown hholds
  | unlock rc hpc' => exact absurd (hpc.symm.trans hpc') nofun
  | _ hpc' => exact absurd (hpc.symm.trans hpc') nofun

theorem refused (h : Late s k) (hinv : Inv s) : Refused s k := by
  have hout : (s.calls k).accepted = false := by
    obtain ⟨hpc, -⟩ | hpc | hpc := h <;> rw [hpc] <;> rfl
  have hnot : k ∉ s.file.map Line.record ++ (s.thread.inHand ++ s.logs.items) := by
    intro hk
    rw [hinv.records.accepted k hk] at hout
    cases hout
  simp only [List.mem_append, not_or] at hnot
  have hunlock : ∀ t : Sys, t.calls k = .unlock .logError →
      ∃ t', t.step (.call k) = some t' ∧ t'.calls k = .returned .logError := by
    intro t ht
    simp only [Sys.step, Sys.stepCall, ht]
    exact ⟨_, rfl, Function.update_self ..⟩
  refine ⟨hnot.2.2, hnot.1, ?_⟩
  obtain ⟨hpc, hmain⟩ | hpc | hpc := h
  . have hcheck : s.step (.call k) = some (s.setCall k (.unlock .logError)) := by
      have hclosed : s.isOpen = false := by
        rw [Sys.isOpen, hinv.flags (.inr (.inr hmain))]
        rfl
      simp [Sys.step, Sys.stepCall, hpc, hclosed]
    obtain ⟨t, hstep, ht⟩ := hunlock (s.setCall k (.unlock .logError)) (Function.update_self ..)
    refine ⟨2, t, ?_, ht⟩
    simp [List.replicate, hcheck, hstep]
  . obtain ⟨t, hstep, ht⟩ := hunlock s hpc
    refine ⟨1, t, ?_, ht⟩
    simp [hstep]
  . exact ⟨0, s, rfl, hpc⟩

end Late

theorem complete_of_run {as : List Action} {s : Sys} (hrun : run .init as = some s)
    : (s.main = .destroyMutex → Complete s) ∧
      ∀ (k : Nat) (s' t : Sys) (bs : List Action), s.main.closed = true → s.calls k = .lock →
        s.step (.call k) = some s' → run s' bs = some t → Refused t k := by
  have hinv := Inv.of_run hrun
  refine ⟨hinv.complete, ?_⟩
  intro k s' t bs hclosed hpc hstep hrun'
  have hcall := callStep_of_stepCall hstep
  have hlate : Inv s' ∧ Late s' k := ⟨hinv.step (.call k s' hcall), .of_lock hinv hclosed hpc hcall⟩
  have ht : Inv t ∧ Late t k := by
    refine Lts.invariant_run (I := fun s => Inv s ∧ Late s k) ?_ hlate hrun'
    intro u a u' hu hstep
    exact ⟨hu.1.step (step_of_run hstep), hu.2.step hu.1 (step_of_run hstep)⟩
  exact ht.2.refused ht.1

/--
The logger is opened and closed, and opened again for one record; a second call comes to the mutex
between `close_logger` and the end of the log thread and is refused.
-/
def reopened : List Action :=
  [.initLogger, .main, .main, .fopen (.enoent 0 false), .fopen .ok, .main, .create 0,
    .closeLogger, .main, .main, .main, .main] ++
  [.thread "", .thread "", .thread "", .main, .main, .main] ++
  [.initLogger, .main, .main, .fopen .ok, .main, .create 0,
    .trashLog ⟨"test info", "loggertest.c", 8, .info⟩, .call 0, .call 0, .call 0, .call 0, .call 0,
    .closeLogger, .main, .main, .main, .main] ++
  [.trashLog ⟨"test warn", "loggertest.c", 7, .warn⟩, .call 1, .call 1, .call 1] ++
  [.thread "", .thread "", .thread "", .thread "", .thread "Mon Jan 01 23:59:59 2024", .thread "",
    .thread "", .thread "", .thread "", .main]

theorem complete_reopened
    : ∃ s, run .init reopened = some s ∧ s.main = .destroyMutex ∧ Complete s ∧
        s.written.map Line.log = [⟨"test info", "loggertest.c", 8, .info⟩] := by
  have hruns : ∃ s ∈ run .init reopened, s.main = .destroyMutex ∧
      s.written.map Line.log = [⟨"test info", "loggertest.c", 8, .info⟩] := by
    decide +kernel
  obtain ⟨s, hrun, hmain, hlogs⟩ := hruns
  exact ⟨s, hrun, hmain, (complete_of_run hrun).1 hmain, hlogs⟩

end Logger
