import TrashDb.Lib.Reach
import TrashDb.Logger.Lemmas.Complete

/-!
This module contains how the logger goes on. `close_logger` can always come to its end, with steps of the
log thread and of the calls that hold the mutex only, and the queue is in the log file then. A call of
`trash_log` can return without any other call, unless it waits for the mutex that the log thread ends with. It is
left to the next `init_logger` then, which initializes a mutex that is locked and waited for.
-/

open Reach

namespace Logger

/--
Between the opening of the queue by `init_logger` and its closing by `close_logger`
-/
def MainPc.accepts : MainPc → Bool
  | .create | .opened | .closeLock | .setClose => true
  | _ => false

def MainPc.closing : MainPc → Bool
  | .closeLock | .setClose | .signal | .unlock | .join | .destroyMutex | .destroyCond => true
  | _ => false

def CallPc.left : CallPc → Nat
  | .check => 4
  | .append => 3
  | .signal => 2
  | .unlock _ => 1
  | .absent | .lock | .returned _ => 0

def ThreadPc.left : ThreadPc → Nat
  | .write _ => 8
  | .unlock => 7
  | .lock | .woken => 6
  | .testWait => 5
  | .testClose => 4
  | .pop => 3
  | .absent | .asleep | .exited => 0

def Sys.left (s : Sys) : Nat := 8 * s.logs.items.length + s.thread.left

/--
Where the log thread may be, given where `close_logger` is and what is in the queue
-/
def ThreadPc.placed (pc : ThreadPc) (main : MainPc) (items : List Nat) : Prop :=
  match pc with
  | .asleep => main ≠ .unlock ∧ main ≠ .join
  | .testClose => items = [] → main = .join
  | .pop => items ≠ []
  | .exited => main = .join
  | _ => True

/--
The mutex is initialized as long as there is a log thread, and whoever is recorded as its owner is at a place
where it is held; the log thread does not look for a record in an empty queue.
-/
structure Ready (s : Sys) : Prop where
  inv : Inv s
  opened : s.main.accepts = true → s.isOpen = true
  set : s.logMutex = none → s.main.down = true
  held : ∀ o, s.logMutex = some (some o) → s.holds o = true ∨ s.main.down = true
  placed : s.thread.placed s.main s.logs.items
  args : ∀ k, s.calls k ≠ .absent → (s.args k).isSome = true

@[simp]
theorem condSignal_flags (s : Sys) : s.condSignal.flags = s.flags := by
  unfold Sys.condSignal
  split <;> rfl

@[simp]
theorem condSignal_logs (s : Sys) : s.condSignal.logs = s.logs := by
  unfold Sys.condSignal
  split <;> rfl

@[simp]
theorem condSignal_logMutex (s : Sys) : s.condSignal.logMutex = s.logMutex := by
  unfold Sys.condSignal
  split <;> rfl

@[simp]
theorem condSignal_appended (s : Sys) : s.condSignal.appended = s.appended := by
  unfold Sys.condSignal
  split <;> rfl

@[simp]
theorem condSignal_cycle (s : Sys) : s.condSignal.cycle = s.cycle := by
  unfold Sys.condSignal
  split <;> rfl

theorem condSignal_thread_ne (s : Sys) : s.condSignal.thread ≠ .asleep := by
  rcases condSignal_cases s with heq | ⟨_, heq⟩
  . unfold Sys.condSignal at heq ⊢
    split at heq <;> simp_all
  . simp [heq]

theorem empty_of_len {s : Sys} (h : Inv s) (hlen : s.logs.len = 0) : s.logs.items = [] := by
  have := h.accounted.coherent
  rw [LL.Coherent, hlen] at this
  exact List.length_eq_zero_iff.mp this.symm

theorem or_and_openQ (flags : BitVec 32) : (flags ||| openQ) &&& openQ = openQ := by
  ext i hi
  rw [BitVec.getElem_and, BitVec.getElem_or]
  cases openQ[i] <;> simp

namespace Ready

variable {s s' : Sys} {k : Nat} {a : Action}

theorem init : Ready .init := by
  refine ⟨.init, ?_, fun _ => rfl, ?_, trivial, ?_⟩
  . rintro ⟨⟩
  . rintro o ⟨⟩
  . intro k hk
    exact absurd rfl hk

/--
The log thread holds the mutex where `close_logger` has nothing more to do than to join it.
-/
theorem eq_join (h : Ready s) (hthread : s.thread.holds = true) (hopen : s.isOpen = false) : s.main = .join := by
  have hup := h.inv.owned.up_of_holds hthread
  have hfree : s.main.holds = false := by
    cases hmain : s.main.holds with
    | false => rfl
    | true =>
      have hholds : s.holds .main = true := hmain
      have hthread : s.holds .thread = true := hthread
      cases h.inv.owned.excl.unique hholds hthread
  have haccepts : s.main.accepts = false := by
    cases hmain : s.main.accepts with
    | false => rfl
    | true =>
      rw [h.opened hmain] at hopen
      cases hopen
  cases hmain : s.main <;> simp_all [MainPc.up, MainPc.holds, MainPc.accepts]

theorem opened_step (h : Ready s) (hstep : Step s a s') : s'.main.accepts = true → s'.isOpen = true := by
  have hopen (hflags : s'.flags = s.flags) (hmain : s'.main.accepts = true → s.main.accepts = true)
      : s'.main.accepts = true → s'.isOpen = true := by
    intro haccepts
    rw [Sys.isOpen, hflags]
    exact h.opened (hmain haccepts)
  cases hstep with
  | call k _ hcall => cases hcall <;> exact hopen (by simp [Sys.setCall]) (by simp [Sys.setCall])
  | thread now _ hthread => cases hthread <;> exact hopen rfl id
  | closeLogger hpc => exact hopen rfl (by simp [hpc, MainPc.accepts])
  | create rc hpc hrc => exact hopen rfl (by simp [hpc, MainPc.accepts])
  | main _ hmain =>
    cases hmain with
    | setOpen hpc =>
      intro _
      show ((s.flags ||| openQ) &&& openQ != 0) = true
      rw [or_and_openQ]
      rfl
    | closeLock hpc hfree => exact hopen rfl (by simp [hpc, MainPc.accepts])
    | _ => rintro ⟨⟩
  | fopen attempts res pc hpc hnext => rcases hnext with rfl | rfl | rfl <;> rintro ⟨⟩
  | trashLog log => exact hopen rfl id
  | spuriousWakeup hpc => exact hopen rfl id
  | _ => rintro ⟨⟩

theorem set_step (h : Ready s) (hstep : Step s a s') : s'.logMutex = none → s'.main.down = true := by
  have hset (hmutex : s'.logMutex = s.logMutex) (hmain : s.main.down = true → s'.main.down = true)
      : s'.logMutex = none → s'.main.down = true := by
    rw [hmutex]
    exact fun hnone => hmain (h.set hnone)
  cases hstep with
  | call k _ hcall =>
    cases hcall with
    | signal hpc hlen => exact hset (condSignal_logMutex s) (by simp [Sys.setCall])
    | lock hpc hfree => rintro ⟨⟩
    | unlock rc hpc => rintro ⟨⟩
    | _ => exact hset rfl id
  | thread now _ hthread =>
    cases hthread with
    | lock hpc hfree => rintro ⟨⟩
    | wait hpc hlen hopen => rintro ⟨⟩
    | unlock hpc => rintro ⟨⟩
    | _ => exact hset rfl id
  | main _ hmain =>
    cases hmain with
    | signal hpc => exact hset (condSignal_logMutex s) (by simp [hpc, MainPc.down])
    | initMutex hpc => rintro ⟨⟩
    | closeLock hpc hfree => rintro ⟨⟩
    | unlock hpc => rintro ⟨⟩
    | join hpc hexited => exact fun _ => rfl
    | destroyMutex hpc => exact fun _ => rfl
    | destroyCond hpc => exact fun _ => rfl
    | _ hpc => exact hset rfl (by simp [hpc, MainPc.down])
  | trashLog log => exact hset rfl id
  | spuriousWakeup hpc => exact hset rfl id
  | initLogger hpc => exact fun _ => rfl
  | _ => exact hset rfl (by simp_all [MainPc.down])

theorem held_of_update {s' : Sys} (h : Ready s) (pc : CallPc) (hmutex : s'.logMutex = s.logMutex)
    (hcalls : s'.calls = Function.update s.calls k pc) (hthread : s'.thread.holds = s.thread.holds)
    (hmain : s'.main = s.main) (hpc : (s.calls k).holds = true → pc.holds = true)
    : ∀ o, s'.logMutex = some (some o) → s'.holds o = true ∨ s'.main.down = true := by
  intro o ho
  rw [hmutex] at ho
  rw [hmain]
  refine (h.held o ho).imp_left fun hholds => ?_
  cases o with
  | call i =>
    simp only [Sys.holds, hcalls, Function.update_apply]
    split
    . next heq => exact hpc (heq ▸ hholds)
    . exact hholds
  | thread =>
    rw [Sys.holds, hthread]
    exact hholds
  | main =>
    rw [Sys.holds, hmain]
    exact hholds

theorem condSignal_holds (s : Sys) : s.condSignal.thread.holds = s.thread.holds := by
  rcases condSignal_cases s with heq | ⟨hpc, heq⟩ <;> rw [heq]
  rw [hpc]
  rfl

theorem held_step (h : Ready s) (hstep : Step s a s')
    : ∀ o, s'.logMutex = some (some o) → s'.holds o = true ∨ s'.main.down = true := by
  have hfresh : s.calls s.nextCall = .absent := (h.inv.taken.fresh _ (Nat.le_refl _)).1
  -- a thread that takes the mutex is at a place where it holds it
  have htake (o : Owner) (hmutex : s'.logMutex = some (some o)) (ho : s'.holds o = true)
      : ∀ o, s'.logMutex = some (some o) → s'.holds o = true ∨ s'.main.down = true := by
    intro o' ho'
    rw [hmutex] at ho'
    cases ho'
    exact .inl ho
  -- the log thread, or the caller of `init_logger`, goes on and holds the mutex as before
  have hkeep (hmutex : s'.logMutex = s.logMutex) (hcalls : s'.calls = s.calls)
      (hthread : s.thread.holds = true → s'.thread.holds = true ∨ s'.main.down = true)
      (hmain : s.main.holds = true → s'.main.holds = true)
      (hdown : s.main.down = true → s'.main.down = true)
      : ∀ o, s'.logMutex = some (some o) → s'.holds o = true ∨ s'.main.down = true := by
    intro o ho
    rw [hmutex] at ho
    rcases h.held o ho with hholds | hd
    . cases o with
      | call i =>
        rw [Sys.holds, hcalls]
        exact .inl hholds
      | thread => exact hthread hholds
      | main => exact .inl (hmain hholds)
    . exact .inr (hdown hd)
  cases hstep with
  | trashLog log => exact h.held_of_update .lock rfl rfl rfl rfl (by simp [hfresh, CallPc.holds])
  | call k _ hcall =>
    cases hcall with
    | lock hpc hfree => exact htake (.call k) rfl (by simp [Sys.holds, Sys.setCall, CallPc.holds])
    | unlock rc hpc => rintro o ⟨⟩
    | signal hpc hlen =>
      exact h.held_of_update (k := k) (.unlock .logged) (condSignal_logMutex s) (by simp [Sys.setCall])
        (condSignal_holds s) (condSignal_main s) fun _ => rfl
    | _ => exact h.held_of_update _ rfl rfl rfl rfl fun _ => rfl
  | thread now _ hthread =>
    cases hthread with
    | lock hpc hfree => exact htake .thread rfl rfl
    | wait hpc hlen hopen => rintro o ⟨⟩
    | unlock hpc => rintro o ⟨⟩
    | _ => exact hkeep rfl rfl (fun _ => .inl rfl) id id
  | spuriousWakeup hpc => exact hkeep rfl rfl (by simp [hpc, ThreadPc.holds]) id id
  | main _ hmain =>
    cases hmain with
    | initMutex hpc => rintro o ⟨⟩
    | closeLock hpc hfree => exact htake .main rfl rfl
    | unlock hpc => rintro o ⟨⟩
    | signal hpc =>
      refine hkeep (condSignal_logMutex s) (condSignal_calls s) ?_ (fun _ => rfl) (by simp [hpc, MainPc.down])
      intro hholds
      exact .inl (by rw [condSignal_holds]; exact hholds)
    | join hpc hexited =>
      exact hkeep rfl rfl (fun _ => .inr rfl) (by simp [hpc, MainPc.holds]) fun _ => rfl
    | destroyMutex hpc => exact fun _ _ => .inr rfl
    | destroyCond hpc => exact fun _ _ => .inr rfl
    | _ hpc => exact hkeep rfl rfl .inl (by simp [hpc, MainPc.holds]) (by simp [hpc, MainPc.down])
  | initLogger hpc => exact fun _ _ => .inr rfl
  | create rc hpc hrc =>
    refine hkeep rfl rfl ?_ (by simp [hpc, MainPc.holds]) (by simp [hpc, MainPc.down])
    simp [h.inv.owned.absent (by rw [hpc]; rfl), ThreadPc.holds]
  | fopen attempts res pc hpc hnext =>
    exact hkeep rfl rfl .inl (by simp [hpc, MainPc.holds]) (by simp [hpc, MainPc.down])
  | createFail rc hpc hrc =>
    exact hkeep rfl rfl .inl (by simp [hpc, MainPc.holds]) (by simp [hpc, MainPc.down])
  | closeLogger hpc =>
    exact hkeep rfl rfl .inl (by simp [hpc, MainPc.holds]) (by simp [hpc, MainPc.down])

theorem placed_step (h : Ready s) (hstep : Step s a s') : s'.thread.placed s'.main s'.logs.items := by
  have hplaced := h.placed
  -- before the join, `close_logger` and `init_logger` go on without regard to the log thread
  have hgo {pc pc' : MainPc} (hpc : s.main = pc) (hne : pc ≠ .join) (hunlock : pc' ≠ .unlock)
      (hjoin : pc' ≠ .join)
      : s.thread.placed pc' s.logs.items := by
    rw [hpc] at hplaced
    unfold ThreadPc.placed at hplaced ⊢
    split at hplaced <;> simp_all
  cases hstep with
  | trashLog log => exact hplaced
  | call k _ hcall =>
    cases hcall with
    | append hpc =>
      show s.thread.placed s.main (s.logs.items ++ [k])
      unfold ThreadPc.placed at hplaced ⊢
      split at hplaced <;> simp_all
    | signal hpc hlen =>
      show s.condSignal.thread.placed s.condSignal.main s.condSignal.logs.items
      rcases condSignal_cases s with heq | ⟨_, heq⟩ <;> rw [heq]
      . exact hplaced
      . trivial
    | _ => exact hplaced
  | thread now _ hthread =>
    cases hthread with
    | wait hpc hlen hopen =>
      have hopen : ¬s.flags = closeQ := by
        intro hflags
        rw [Sys.isOpen, hflags] at hopen
        cases hopen
      exact ⟨fun hmain => hopen (h.inv.flags (.inr (.inl hmain))),
        fun hmain => hopen (h.inv.flags (.inr (.inr hmain)))⟩
    | noWait hpc htest =>
      intro hitems
      apply h.eq_join (by rw [hpc]; rfl)
      cases hopen : s.isOpen with
      | false => rfl
      | true =>
        have := h.inv.accounted.coherent
        rw [LL.Coherent, hitems] at this
        exact absurd ⟨this, hopen⟩ htest
    | exit hpc hlen hclose =>
      rw [hpc] at hplaced
      exact hplaced (empty_of_len h.inv hlen)
    | noExit hpc htest =>
      intro hitems
      rw [hpc] at hplaced
      have hlen := h.inv.accounted.coherent
      rw [LL.Coherent, hitems] at hlen
      refine htest ⟨hlen, ?_⟩
      rw [Sys.isClose, h.inv.flags (.inr (.inr (hplaced hitems)))]
      rfl
    | _ => trivial
  | spuriousWakeup hpc => trivial
  | initLogger hpc =>
    show s.thread.placed .initMutex []
    rw [h.inv.owned.absent (by rw [hpc]; rfl)]
    trivial
  | closeLogger hpc => exact hgo hpc (by simp) (by simp) (by simp)
  | create rc hpc hrc => trivial
  | createFail rc hpc hrc => exact hgo hpc (by simp) (by simp) (by simp)
  | fopen attempts res pc hpc hnext =>
    rcases hnext with rfl | rfl | rfl <;> exact hgo hpc (by simp) (by simp) (by simp)
  | main _ hmain =>
    cases hmain with
    | signal hpc =>
      show s.condSignal.thread.placed .unlock s.condSignal.logs.items
      have hawake := condSignal_thread_ne s
      rcases condSignal_cases s with heq | ⟨_, heq⟩ <;> rw [heq] at hawake ⊢
      . rw [hpc] at hplaced
        unfold ThreadPc.placed at hplaced ⊢
        split at hplaced <;> simp_all
      . trivial
    | unlock hpc =>
      show s.thread.placed .join s.logs.items
      rw [hpc] at hplaced
      unfold ThreadPc.placed at hplaced ⊢
      split at hplaced <;> simp_all
    | join hpc hexited => trivial
    | _ hpc => exact hgo hpc (by simp) (by simp) (by simp)

theorem args_step (h : Ready s) (hstep : Step s a s')
    : ∀ k, s'.calls k ≠ .absent → (s'.args k).isSome = true := by
  have hcall (k : Nat) (pc : CallPc) (hk : s.calls k ≠ .absent)
      : ∀ i, Function.update s.calls k pc i ≠ .absent → (s.args i).isSome = true := by
    intro i hi
    rw [Function.update_apply] at hi
    split at hi
    . next heq => exact h.args i (heq ▸ hk)
    . exact h.args i hi
  cases hstep with
  | trashLog log =>
    intro i hi
    have hi : Function.update s.calls s.nextCall .lock i ≠ .absent := hi
    show (Function.update s.args s.nextCall (some log) i).isSome = true
    rw [Function.update_apply] at hi ⊢
    split
    . rfl
    . next hne =>
      rw [if_neg hne] at hi
      exact h.args i hi
  | call k _ hstep =>
    cases hstep with
    | signal hpc hlen =>
      rcases condSignal_cases s with heq | ⟨_, heq⟩ <;> rw [heq] <;> exact hcall k _ (by rw [hpc]; nofun)
    | lock hpc hfree => exact hcall k _ (by rw [hpc]; nofun)
    | unlock rc hpc => exact hcall k _ (by rw [hpc]; nofun)
    | _ hpc => exact hcall k _ (by rw [hpc]; nofun)
  | thread now _ hthread => cases hthread <;> exact h.args
  | main _ hmain =>
    cases hmain with
    | signal hpc => rcases condSignal_cases s with heq | ⟨_, heq⟩ <;> rw [heq] <;> exact h.args
    | _ => exact h.args
  | _ => exact h.args

theorem step (h : Ready s) (hstep : Step s a s') : Ready s' :=
  ⟨h.inv.step hstep, h.opened_step hstep, h.set_step hstep, h.held_step hstep, h.placed_step hstep,
    h.args_step hstep⟩

end Ready

/--
A step of `close_logger` or `init_logger`, of the log thread, or of a call that holds the mutex. These leave
alone the calls that wait for it.
-/
def Sys.own (s : Sys) : Action → Prop
  | .main | .thread _ => True
  | .call k => s.holds (.call k) = true
  | _ => False

structure Moves (s s' : Sys) : Prop where
  ready : Ready s
  step : ∃ a, s.own a ∧ s.step a = some s'

structure Onward (s s' : Sys) : Prop where
  appended : s.appended <+: s'.appended
  cycle : s'.cycle = s.cycle
  waits : ∀ k, s.calls k = .lock → s'.calls k = .lock

namespace Onward

instance : Std.Refl Onward := ⟨fun _ => ⟨List.prefix_rfl, rfl, fun _ => id⟩⟩

instance : IsTrans Sys Onward where
  trans _ _ _ h h' :=
    ⟨h.appended.trans h'.appended, h'.cycle.trans h.cycle, fun k hk => h'.waits k (h.waits k hk)⟩

end Onward

namespace Moves

variable {s s' : Sys}

theorem ready' (h : Moves s s') : Ready s' := by
  obtain ⟨a, _, hs⟩ := h.step
  exact h.ready.step (step_of_run hs)

theorem onward (h : Moves s s') : Onward s s' := by
  obtain ⟨a, ha, hs⟩ := h.step
  have hstep := step_of_run hs
  cases hstep with
  | call k _ hcall =>
    have hwaits {s' : Sys} (pc : CallPc) (hcalls : s'.calls = Function.update s.calls k pc)
        : ∀ i, s.calls i = .lock → s'.calls i = .lock := by
      intro i hi
      have hne : i ≠ k := by
        rintro rfl
        have ha : (s.calls i).holds = true := ha
        rw [hi] at ha
        cases ha
      rw [hcalls, Function.update_of_ne hne, hi]
    cases hcall with
    | append hpc => exact ⟨List.prefix_append .., rfl, hwaits _ rfl⟩
    | signal hpc hlen =>
      exact ⟨by simp [Sys.setCall], condSignal_cycle s, hwaits (.unlock .logged) (by simp [Sys.setCall])⟩
    | _ => exact ⟨List.prefix_rfl, rfl, hwaits _ rfl⟩
  | thread now _ hthread => cases hthread <;> exact ⟨List.prefix_rfl, rfl, fun _ => id⟩
  | main _ hmain =>
    cases hmain with
    | signal hpc => exact ⟨by simp, condSignal_cycle s, by simp⟩
    | _ => exact ⟨List.prefix_rfl, rfl, fun _ => id⟩
  | _ => exact ha.elim

end Moves

namespace Ready

variable {s s' : Sys} {k : Nat}

theorem bind {P Q : Sys → Prop} (h : Ready s) (hreach : Reaches Moves P s)
    (hnext : ∀ s', Ready s' → P s' → Reaches Moves Q s')
    : Reaches Moves Q s := by
  refine hreach.bind fun s' hmoves hs' => hnext s' ?_ hs'
  exact invariant (I := Ready) (fun _ _ _ hm => hm.ready') h hmoves

theorem own_step {P : Sys → Prop} {a : Action} (h : Ready s) (ha : s.own a) (hs : s.step a = some s')
    (hnext : Ready s' → Reaches Moves P s')
    : Reaches Moves P s :=
  .of_step ⟨h, a, ha, hs⟩ (hnext (h.step (step_of_run hs)))

theorem main_step {P : Sys → Prop} (h : Ready s) (hs : s.stepMain = some s')
    (hnext : Ready s' → Reaches Moves P s')
    : Reaches Moves P s :=
  h.own_step (a := .main) trivial hs hnext

theorem call_step (hk : (s.calls k).holds = true)
    : ∃ s', s.step (.call k) = some s' ∧ s'.main = s.main ∧
        ((s'.logMutex = some none ∧ ∃ rc, s'.calls k = .returned rc) ∨
          ((s'.calls k).holds = true ∧ (s'.calls k).left < (s.calls k).left)) := by
  simp only [Sys.step, Sys.stepCall]
  cases hpc : s.calls k with
  | check =>
    refine ⟨_, rfl, rfl, .inr ?_⟩
    cases s.isOpen <;> simp [Sys.setCall, CallPc.holds, CallPc.left]
  | append => exact ⟨_, rfl, rfl, .inr (by simp [Sys.setCall, CallPc.holds, CallPc.left])⟩
  | signal =>
    refine ⟨_, rfl, ?_, .inr (by simp [Sys.setCall, CallPc.holds, CallPc.left])⟩
    split
    . exact condSignal_main s
    . rfl
  | unlock rc => exact ⟨_, rfl, rfl, .inl ⟨rfl, rc, Function.update_self ..⟩⟩
  | absent | lock | returned rc =>
    rw [hpc] at hk
    cases hk

theorem unlocks {pc : MainPc} (h : Ready s) (hmain : s.main = pc) (hk : (s.calls k).holds = true)
    : Reaches Moves (fun s' => s'.main = pc ∧ s'.logMutex = some none ∧ ∃ rc, s'.calls k = .returned rc)
        s := by
  refine Reaches.of_measure (I := fun s => Ready s ∧ s.main = pc ∧ (s.calls k).holds = true)
    (fun s => (s.calls k).left) ?_ s ⟨h, hmain, hk⟩
  rintro s ⟨h, hmain, hk⟩
  obtain ⟨s', hs, hmain', hs'⟩ := call_step hk
  refine h.own_step (a := .call k) hk hs fun h' => .of_self ?_
  rw [hmain] at hmain'
  rcases hs' with hfree | ⟨hk', hlt⟩
  . exact .inl ⟨hmain', hfree⟩
  . exact .inr ⟨⟨h', hmain', hk'⟩, hlt⟩

/--
The log thread has the mutex or may take it, and has not ended: it takes a step, after which it goes to sleep
with the mutex unlocked, has ended, or is nearer to that.
-/
theorem thread_step (h : Ready s) (hpc : s.thread.holds = true ∨ s.thread = .lock ∨ s.thread = .woken)
    (hfree : s.thread.holds = false → s.logMutex = some none) (hexited : s.thread ≠ .exited)
    : ∃ s', s.step (.thread "") = some s' ∧ s'.main = s.main ∧ s'.left < s.left ∧
        (s'.thread.holds = false → s'.logMutex = some none) := by
  have hcoherent := h.inv.accounted.coherent
  have hplaced := h.placed
  simp only [Sys.step, Sys.stepThread]
  cases hthread : s.thread with
  | lock | woken =>
    have hfree : s.logMutex = some none := hfree (by rw [hthread]; rfl)
    simp [hfree, Sys.left, hthread, ThreadPc.left, ThreadPc.holds]
  | testWait =>
    by_cases htest : (s.logs.emptyList && s.isOpen) = true
    . simp [htest, Sys.left, hthread, ThreadPc.left, ThreadPc.holds]
    . simp [htest, Sys.left, hthread, ThreadPc.left, ThreadPc.holds]
  | testClose =>
    by_cases htest : (s.logs.emptyList && s.isClose) = true
    . simp [htest, Sys.left, hthread, ThreadPc.left, ThreadPc.holds]
    . simp [htest, Sys.left, hthread, ThreadPc.left, ThreadPc.holds]
  | pop =>
    rw [hthread] at hplaced
    obtain ⟨i, rest, hitems⟩ := List.exists_cons_of_ne_nil hplaced
    have hpop : s.logs.listPop = (some (.item i), ⟨rest, s.logs.len - 1⟩) := by
      rw [LL.Coherent, hitems] at hcoherent
      simp [LL.listPop, LL.emptyList, hcoherent, hitems]
    simp [hpop, Sys.left, hthread, hitems, ThreadPc.left, ThreadPc.holds, Nat.mul_add]
  | write i =>
    have hmem : i ∈ s.thread.inHand ++ s.logs.items := by simp [hthread, ThreadPc.inHand]
    have haccepted := h.inv.records.accepted i (List.mem_append_right _ hmem)
    have hcalled : s.calls i ≠ .absent := by
      rintro heq
      simp [heq, CallPc.accepted] at haccepted
    obtain ⟨log, hlog⟩ := Option.isSome_iff_exists.mp (h.args i hcalled)
    rw [← h.inv.records.queued i hmem] at hlog
    simp [hlog, Sys.left, hthread, ThreadPc.left, ThreadPc.holds]
  | unlock => simp [Sys.left, hthread, ThreadPc.left, ThreadPc.holds]
  | exited => exact absurd hthread hexited
  | absent | asleep => simp [hthread, ThreadPc.holds] at hpc

theorem passes {pc : MainPc} (h : Ready s) (hmain : s.main = pc) (hthread : s.thread.holds = true)
    : Reaches Moves (fun s' => s'.main = pc ∧ (s'.logMutex = some none ∨ s'.thread = .exited)) s := by
  refine Reaches.of_measure (I := fun s => Ready s ∧ s.main = pc ∧ s.thread.holds = true) Sys.left ?_ s
    ⟨h, hmain, hthread⟩
  rintro s ⟨h, hmain, hthread⟩
  by_cases hexited : s.thread = .exited
  . exact .of_self (.inl ⟨hmain, .inr hexited⟩)
  obtain ⟨s', hs, hmain', hlt, hfree⟩ := h.thread_step (.inl hthread) (by simp [hthread]) hexited
  refine h.own_step (a := .thread "") trivial hs fun h' => .of_self ?_
  rw [hmain] at hmain'
  cases hthread' : s'.thread.holds with
  | false => exact .inl ⟨hmain', .inl (hfree hthread')⟩
  | true => exact .inr ⟨⟨h', hmain', rfl⟩, hlt⟩

/--
Once the queue is closed and no call has the mutex, the log thread writes what is left and ends.
-/
theorem exits (h : Ready s) (hmain : s.main = .join) (hfree : s.thread.holds = false → s.logMutex = some none)
    : Reaches Moves (fun s' => s'.main = .join ∧ s'.thread = .exited) s := by
  refine Reaches.of_measure
    (I := fun s => Ready s ∧ s.main = .join ∧ (s.thread.holds = false → s.logMutex = some none)) Sys.left ?_ s
    ⟨h, hmain, hfree⟩
  rintro s ⟨h, hmain, hfree⟩
  by_cases hexited : s.thread = .exited
  . exact .of_self (.inl ⟨hmain, hexited⟩)
  have hpc : s.thread.holds = true ∨ s.thread = .lock ∨ s.thread = .woken := by
    have hup : s.thread ≠ .absent := h.inv.owned.up.mp (by rw [hmain]; rfl)
    have hawake : s.thread ≠ .asleep := by
      intro hasleep
      have := h.placed
      rw [hasleep] at this
      exact this.2 hmain
    cases hthread : s.thread <;> simp_all [ThreadPc.holds]
  obtain ⟨s', hs, hmain', hlt, hfree'⟩ := h.thread_step hpc hfree hexited
  refine h.own_step (a := .thread "") trivial hs fun h' => .of_self (.inr ⟨⟨h', ?_, hfree'⟩, hlt⟩)
  rw [hmain', hmain]

theorem held_cases (h : Ready s) (hmain : s.main.down = false)
    : s.logMutex = some none ∨ s.thread.holds = true ∨ s.main.holds = true ∨ ∃ k, (s.calls k).holds = true := by
  cases hmutex : s.logMutex with
  | none =>
    rw [h.set hmutex] at hmain
    cases hmain
  | some owner =>
    cases owner with
    | none => exact .inl rfl
    | some o =>
      have hholds : s.holds o = true := (h.held o hmutex).resolve_right (by simp [hmain])
      cases o with
      | call k => exact .inr (.inr (.inr ⟨k, hholds⟩))
      | thread => exact .inr (.inl hholds)
      | main => exact .inr (.inr (.inl hholds))

theorem idles (h : Ready s) (hmain : s.main = .join) (hexited : s.thread = .exited)
    : Reaches Moves (fun s' => s'.main = .idle) s := by
  have hjoin : s.stepMain = some { s with main := .destroyMutex, thread := .absent } := by
    simp only [Sys.stepMain, hmain, hexited, if_true]
  refine h.main_step hjoin fun h => ?_
  refine h.main_step rfl fun h => ?_
  exact h.main_step rfl fun _ => .of_self rfl

theorem ends (h : Ready s) (hmain : s.main = .join) : Reaches Moves (fun s' => s'.main = .idle) s := by
  have hexits {s : Sys} (h : Ready s) (hmain : s.main = .join)
      (hfree : s.thread.holds = false → s.logMutex = some none)
      : Reaches Moves (fun s' => s'.main = .idle) s :=
    h.bind (h.exits hmain hfree) fun s' h' hs' => h'.idles hs'.1 hs'.2
  rcases h.held_cases (by rw [hmain]; rfl) with hfree | hthread | hholds | ⟨k, hk⟩
  . exact hexits h hmain fun _ => hfree
  . exact hexits h hmain (by simp [hthread])
  . rw [hmain] at hholds
    cases hholds
  . exact h.bind (h.unlocks hmain hk) fun s' h' hs' => hexits h' hs'.1 fun _ => hs'.2.1

theorem closes (h : Ready s) (hclosing : s.main.closing = true)
    : Reaches Moves (fun s' => s'.main = .idle) s := by
  have hunlock {s : Sys} (h : Ready s) (hmain : s.main = .unlock)
      : Reaches Moves (fun s' => s'.main = .idle) s := by
    have hs : s.stepMain = some { s with main := .join, logMutex := some none } := by
      simp only [Sys.stepMain, hmain]
    exact h.main_step hs fun h' => h'.ends rfl
  have hsignal {s : Sys} (h : Ready s) (hmain : s.main = .signal)
      : Reaches Moves (fun s' => s'.main = .idle) s := by
    have hs : s.stepMain = some { s.condSignal with main := .unlock } := by
      simp only [Sys.stepMain, hmain]
    exact h.main_step hs fun h' => hunlock h' rfl
  have hset {s : Sys} (h : Ready s) (hmain : s.main = .setClose)
      : Reaches Moves (fun s' => s'.main = .idle) s := by
    have hs : s.stepMain = some { s with main := .signal, flags := closeQ } := by
      simp only [Sys.stepMain, hmain]
    exact h.main_step hs fun h' => hsignal h' rfl
  have hlock {s : Sys} (h : Ready s) (hmain : s.main = .closeLock) (hfree : s.logMutex = some none)
      : Reaches Moves (fun s' => s'.main = .idle) s := by
    have hs : s.stepMain = some { s with main := .setClose, logMutex := some (some .main) } := by
      simp only [Sys.stepMain, hmain, hfree, if_true]
    exact h.main_step hs fun h' => hset h' rfl
  cases hmain : s.main with
  | closeLock =>
    rcases h.held_cases (by rw [hmain]; rfl) with hfree | hthread | hholds | ⟨k, hk⟩
    . exact hlock h hmain hfree
    . refine h.bind (h.passes hmain hthread) ?_
      rintro s' h' ⟨hmain', hfree | hexited⟩
      . exact hlock h' hmain' hfree
      . have hjoin := h'.placed
        rw [hexited] at hjoin
        cases hmain'.symm.trans hjoin
    . rw [hmain] at hholds
      cases hholds
    . exact h.bind (h.unlocks hmain hk) fun s' h' hs' => hlock h' hs'.1 hs'.2.1
  | setClose => exact hset h hmain
  | signal => exact hsignal h hmain
  | unlock => exact hunlock h hmain
  | join => exact h.ends hmain
  | destroyMutex =>
    have hs : s.stepMain = some
        { s with main := .destroyCond, logMutex := if s.logMutex = some none then none else s.logMutex } := by
      simp only [Sys.stepMain, hmain]
    refine h.main_step hs fun h' => ?_
    exact h'.main_step rfl fun _ => .of_self rfl
  | destroyCond =>
    have hs : s.stepMain = some { s with main := .idle } := by
      simp only [Sys.stepMain, hmain]
    exact h.main_step hs fun _ => .of_self rfl
  | _ =>
    rw [hmain] at hclosing
    cases hclosing

end Ready

def Action.begins : Action → Bool
  | .trashLog _ | .initLogger | .closeLogger => true
  | _ => false

/--
The call returns although no other one begins.
-/
def Returns (s : Sys) (k : Nat) : Prop :=
  ∃ as s' rc, (∀ a ∈ as, a.begins = false) ∧ run s as = some s' ∧ s'.calls k = .returned rc

/--
The mutex is not unlocked any more: the log thread has ended with it, or finds the queue closed and empty and is
going to end. Or there is no mutex, before the first `init_logger` and after `close_logger`.
-/
def Sys.stranded (s : Sys) : Bool :=
  match s.thread with
  | .absent => s.main.down
  | .exited => true
  | .testWait | .testClose => s.logs.emptyList && !s.isOpen
  | _ => false

structure Drives (s s' : Sys) : Prop where
  step : ∃ a : Action, a.begins = false ∧ s.step a = some s'

theorem Moves.drives {s s' : Sys} (h : Moves s s') : Drives s s' := by
  obtain ⟨a, ha, hs⟩ := h.step
  refine ⟨a, ?_, hs⟩
  cases a <;> first | rfl | exact ha.elim

structure Stranded (k : Nat) (s : Sys) : Prop where
  ready : Ready s
  stranded : s.stranded = true
  main : s.main ≠ .initMutex
  lock : s.calls k = .lock

namespace Ready

variable {s s' : Sys} {k : Nat}

def Waits (k : Nat) (s : Sys) : Prop := Ready s ∧ s.calls k = .lock

theorem waits (h : Waits k s) {P : Sys → Prop} (hreach : Reaches Moves P s)
    : Reaches Drives (fun s' => Waits k s' ∧ P s') s := by
  refine (hreach.keep (I := Waits k) ?_ h).mono fun _ _ hm => hm.drives
  rintro s s' ⟨_, hk⟩ hm
  exact ⟨hm.ready', hm.onward.waits k hk⟩

/--
The log thread looks for the end of an empty queue only after that was closed.
-/
theorem closed (h : Ready s) (hpc : s.thread = .testClose) (hitems : s.logs.items = []) : s.isOpen = false := by
  have hplaced := h.placed
  rw [hpc] at hplaced
  rw [Sys.isOpen, h.inv.flags (.inr (.inr (hplaced hitems)))]
  rfl

theorem stranded_step {now : String} (h : Ready s) (hthread : s.thread.holds = true) (hstranded : s.stranded = false)
    (hthread' : s'.thread.holds = true) (hs : s.step (.thread now) = some s')
    : s'.stranded = false := by
  cases step_of_run hs with
  | thread _ _ hstep =>
    cases hstep with
    | lock hpc hfree => rcases hpc with hpc | hpc <;> simp [hpc, ThreadPc.holds] at hthread
    | wait hpc hlen hopen => cases hthread'
    | noWait hpc htest =>
      rw [Sys.stranded, hpc] at hstranded
      exact hstranded
    | exit hpc hlen hclose =>
      have hclosed := h.closed hpc (empty_of_len h.inv hlen)
      simp [Sys.stranded, hpc, LL.emptyList, hlen, hclosed] at hstranded
    | unlock hpc => cases hthread'
    | _ => rfl

theorem unlocks_thread (h : Ready s) (hthread : s.thread.holds = true) (hstranded : s.stranded = false)
    : Reaches Moves (fun s' => s'.logMutex = some none) s := by
  refine Reaches.of_measure (I := fun s => Ready s ∧ s.thread.holds = true ∧ s.stranded = false) Sys.left ?_ s
    ⟨h, hthread, hstranded⟩
  rintro s ⟨h, hthread, hstranded⟩
  have hexited : s.thread ≠ .exited := by
    intro hexited
    rw [Sys.stranded, hexited] at hstranded
    cases hstranded
  obtain ⟨s', hs, -, hlt, hfree⟩ := h.thread_step (.inl hthread) (by simp [hthread]) hexited
  refine h.own_step (a := .thread "") trivial hs fun h' => .of_self ?_
  cases hthread' : s'.thread.holds with
  | false => exact .inl (hfree hthread')
  | true => exact .inr ⟨⟨h', rfl, h.stranded_step hthread hstranded hthread' hs⟩, hlt⟩

theorem frees (h : Waits k s) (hstranded : s.stranded = false)
    : Reaches Drives (fun s' => Waits k s' ∧ s'.logMutex = some none) s := by
  have hdown : s.main.down = false := by
    cases hdown : s.main.down with
    | false => rfl
    | true =>
      have habsent := h.1.inv.owned.absent (by cases hmain : s.main <;> simp_all [MainPc.down, MainPc.up])
      rw [Sys.stranded, habsent, hdown] at hstranded
      cases hstranded
  have hunlock {s : Sys} (h : Ready s) (hmain : s.main = .unlock)
      : Reaches Moves (fun s' => s'.logMutex = some none) s := by
    have hs : s.stepMain = some { s with main := .join, logMutex := some none } := by
      simp only [Sys.stepMain, hmain]
    exact h.main_step hs fun h' => .of_self rfl
  have hsignal {s : Sys} (h : Ready s) (hmain : s.main = .signal)
      : Reaches Moves (fun s' => s'.logMutex = some none) s := by
    have hs : s.stepMain = some { s.condSignal with main := .unlock } := by
      simp only [Sys.stepMain, hmain]
    exact h.main_step hs fun h' => hunlock h' rfl
  rcases h.1.held_cases hdown with hfree | hthread | hholds | ⟨i, hi⟩
  . exact .of_self ⟨h, hfree⟩
  . exact waits h (h.1.unlocks_thread hthread hstranded)
  . refine waits h ?_
    cases hmain : s.main with
    | setClose =>
      have hs : s.stepMain = some { s with main := .signal, flags := closeQ } := by
        simp only [Sys.stepMain, hmain]
      exact h.1.main_step hs fun h' => hsignal h' rfl
    | signal => exact hsignal h.1 hmain
    | unlock => exact hunlock h.1 hmain
    | _ =>
      rw [hmain] at hholds
      cases hholds
  . exact (waits h (h.1.unlocks rfl hi)).imp fun s' hs' => ⟨hs'.1, hs'.2.2.1⟩

theorem returns (h : Ready s) (hk : s.calls k ≠ .absent) (hstranded : s.calls k = .lock → s.stranded = false)
    : Reaches Drives (fun s' => ∃ rc, s'.calls k = .returned rc) s := by
  have hholds {s : Sys} (h : Ready s) (hk : (s.calls k).holds = true)
      : Reaches Drives (fun s' => ∃ rc, s'.calls k = .returned rc) s :=
    ((h.unlocks rfl hk).imp fun _ hs' => hs'.2.2).mono fun _ _ hm => hm.drives
  cases hpc : s.calls k with
  | absent => exact absurd hpc hk
  | lock =>
    refine (frees ⟨h, hpc⟩ (hstranded hpc)).bind ?_
    rintro s' _ ⟨⟨h', hpc'⟩, hfree⟩
    have hs : s'.step (.call k) = some
        { s'.setCall k .check with
          logMutex := some (some (.call k)), takenIn := Function.update s'.takenIn k (some s'.cycle) } := by
      simp only [Sys.step, Sys.stepCall, hpc', hfree, if_true]
    refine .of_step ⟨.call k, rfl, hs⟩ (hholds (h'.step (step_of_run hs)) ?_)
    simp [Sys.setCall, CallPc.holds]
  | returned rc => exact .of_self ⟨rc, hpc⟩
  | _ => exact hholds h (by rw [hpc]; rfl)

theorem stranded_cases (h : Ready s) (hstranded : s.stranded = true)
    : s.thread = .absent ∧ s.main.down = true ∨
        s.main = .join ∧ s.logs.items = [] ∧ s.isOpen = false ∧
          (s.thread = .testWait ∨ s.thread = .testClose ∨ s.thread = .exited) := by
  have hend (hpc : s.thread = .testWait ∨ s.thread = .testClose) (htest : (s.logs.emptyList && !s.isOpen) = true)
      : s.main = .join ∧ s.logs.items = [] ∧ s.isOpen = false := by
    obtain ⟨hlen, hopen⟩ : s.logs.len = 0 ∧ s.isOpen = false := by simpa [LL.emptyList] using htest
    have hholds : s.thread.holds = true := by rcases hpc with hpc | hpc <;> rw [hpc] <;> rfl
    exact ⟨h.eq_join hholds hopen, empty_of_len h.inv hlen, hopen⟩
  cases hpc : s.thread with
  | absent =>
    rw [Sys.stranded, hpc] at hstranded
    exact .inl ⟨rfl, hstranded⟩
  | exited =>
    have hmain := h.placed
    rw [hpc] at hmain
    refine .inr ⟨hmain, h.inv.accounted.drained (.inl hpc), ?_, .inr (.inr rfl)⟩
    rw [Sys.isOpen, h.inv.flags (.inr (.inr hmain))]
    rfl
  | testWait =>
    rw [Sys.stranded, hpc] at hstranded
    obtain ⟨hmain, hitems, hopen⟩ := hend (.inl hpc) hstranded
    exact .inr ⟨hmain, hitems, hopen, .inl rfl⟩
  | testClose =>
    rw [Sys.stranded, hpc] at hstranded
    obtain ⟨hmain, hitems, hopen⟩ := hend (.inr hpc) hstranded
    exact .inr ⟨hmain, hitems, hopen, .inr (.inl rfl)⟩
  | _ =>
    rw [Sys.stranded, hpc] at hstranded
    cases hstranded

theorem no_call (h : Ready s) (hstranded : s.stranded = true) (i : Nat)
    : s.logMutex ≠ some none ∧ (s.calls i).holds = false := by
  have howner : s.logMutex = none ∨ s.logMutex = some (some .thread) := by
    rcases h.stranded_cases hstranded with ⟨-, hdown⟩ | ⟨-, -, -, hthread⟩
    . exact h.inv.owned.down hdown
    . refine .inr (h.inv.owned.owner (o := .thread) ?_)
      rcases hthread with hpc | hpc | hpc <;> rw [Sys.holds, hpc] <;> rfl
  refine ⟨by rcases howner with heq | heq <;> rw [heq] <;> simp, ?_⟩
  cases hholds : (s.calls i).holds with
  | false => rfl
  | true =>
    have hcall := h.inv.owned.owner (o := .call i) hholds
    rcases howner with heq | heq <;> rw [heq] at hcall <;> cases hcall

theorem stays (h : Stranded k s) {a : Action} (ha : a.begins = false) (hs : s.step a = some s') : Stranded k s' := by
  obtain ⟨hready, hstranded, hmain, hlock⟩ := h
  have hstep := step_of_run hs
  have hready' := hready.step hstep
  have hcases := hready.stranded_cases hstranded
  cases hstep with
  | trashLog log => cases ha
  | initLogger hpc => cases ha
  | closeLogger hpc => cases ha
  | call i _ hcall =>
    obtain ⟨hmutex, hholds⟩ := hready.no_call hstranded i
    cases hcall with
    | lock hpc hfree => exact absurd hfree hmutex
    | unlock rc hpc =>
      rw [hpc] at hholds
      cases hholds
    | _ hpc =>
      rw [hpc] at hholds
      cases hholds
  | thread now _ hthread =>
    have hkeep : s'.main = s.main ∧ s'.calls = s.calls := by cases hthread <;> exact ⟨rfl, rfl⟩
    refine ⟨hready', ?_, by rw [hkeep.1]; exact hmain, by rw [hkeep.2]; exact hlock⟩
    rcases hcases with ⟨habsent, -⟩ | ⟨hjoin, hitems, hopen, hpcs⟩
    . cases hthread <;> simp_all
    have hlen : s.logs.len = 0 := by
      have hcoherent := hready.inv.accounted.coherent
      rw [LL.Coherent, hitems] at hcoherent
      exact hcoherent
    cases hthread with
    | lock hpc hfree => exact absurd hfree (hready.no_call hstranded k).1
    | wait hpc hlen hopen' =>
      rw [hopen] at hopen'
      cases hopen'
    | noWait hpc htest =>
      change (s.logs.emptyList && !s.isOpen) = true
      simp [LL.emptyList, hlen, hopen]
    | exit hpc hlen hclose => rfl
    | noExit hpc htest =>
      refine absurd ⟨hlen, ?_⟩ htest
      rw [Sys.isClose, hready.inv.flags (.inr (.inr hjoin))]
      rfl
    | _ => simp_all
  | main _ hmain' =>
    cases hmain' with
    | initMutex hpc => exact absurd hpc hmain
    | join hpc hexited => exact ⟨hready', rfl, by simp, hlock⟩
    | destroyMutex hpc =>
      rcases hcases with ⟨habsent, -⟩ | ⟨hjoin, -⟩
      . exact ⟨hready', by simp [Sys.stranded, habsent, MainPc.down], by simp, hlock⟩
      . cases hpc.symm.trans hjoin
    | destroyCond hpc =>
      rcases hcases with ⟨habsent, -⟩ | ⟨hjoin, -⟩
      . exact ⟨hready', by simp [Sys.stranded, habsent, MainPc.down], by simp, hlock⟩
      . cases hpc.symm.trans hjoin
    | _ hpc => rcases hcases with ⟨-, hdown⟩ | ⟨hjoin, -⟩ <;> simp_all [MainPc.down]
  | spuriousWakeup hpc => rcases hcases with ⟨habsent, -⟩ | ⟨-, -, -, hpcs⟩ <;> simp_all
  | _ => rcases hcases with ⟨-, hdown⟩ | ⟨hjoin, -⟩ <;> simp_all [MainPc.down]

end Ready

end Logger
