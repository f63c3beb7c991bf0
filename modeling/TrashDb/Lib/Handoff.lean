import Mathlib.Data.List.Nodup
import Mathlib.Logic.Function.Basic

/-!
This module contains works that are passed from callers to workers, through a queue or from hand to
hand. A caller offers a work that nobody has been given before, and either commits to it, which puts
it into a queue or keeps it in flight to a worker, or rejects it. A worker that gets a work has no
task. Then every work that a caller has committed to is at one place, it does not get lost, and it is
called once.
-/

set_option linter.unusedSectionVars false

namespace Handoff

open Function

variable {W : Type u} {G : Type v} {K : Type w} {T : Type x}

structure State (W : Type u) (G : Type v) (K : Type w) (T : Type x) where
  queue : G → List W
  flight : K → Option W
  task : T → Option (W × Bool)
  finished : List W
  called : W → Nat
  deal : K → Option (W × Bool)
  given : List W
  returned : List W

inductive Place (G : Type v) (K : Type w) (T : Type x) where
  | queue (g : G)
  | flight (k : K)
  | task (t : T)
  | finished

namespace State

def At (v : State W G K T) (w : W) : Place G K T → Prop
  | .queue g => w ∈ v.queue g
  | .flight k => v.flight k = some w
  | .task t => ∃ begun, v.task t = some (w, begun)
  | .finished => w ∈ v.finished

def Placed (v : State W G K T) (w : W) : Prop := ∃ p, v.At w p

end State

variable [DecidableEq W] [DecidableEq G] [DecidableEq K] [DecidableEq T]

inductive Step (v : State W G K T) : State W G K T → Prop where
  | stay : Step v v
  | offer (k : K) (w : W) (hk : v.deal k = none) (hw : w ∉ v.given) :
    Step v { v with deal := update v.deal k (some (w, false)), given := w :: v.given }
  | enqueue (k : K) (g : G) (w : W) (hk : v.deal k = some (w, false)) :
    Step v { v with
      deal := update v.deal k (some (w, true))
      queue := update v.queue g (v.queue g ++ [w]) }
  | reserve (k : K) (w : W) (hk : v.deal k = some (w, false)) (hf : v.flight k = none) :
    Step v { v with
      deal := update v.deal k (some (w, true))
      flight := update v.flight k (some w) }
  | handOver (k : K) (t : T) (w : W) (hk : v.flight k = some w) (ht : v.task t = none) :
    Step v { v with
      flight := update v.flight k none
      task := update v.task t (some (w, false)) }
  | fetch (g : G) (t : T) (w : W) (rest : List W) (hg : v.queue g = w :: rest)
    (ht : v.task t = none) :
    Step v { v with
      queue := update v.queue g rest
      task := update v.task t (some (w, false)) }
  | begin_ (t : T) (w : W) (ht : v.task t = some (w, false)) :
    Step v { v with
      task := update v.task t (some (w, true))
      called := update v.called w (v.called w + 1) }
  | finish (t : T) (w : W) (ht : v.task t = some (w, true)) :
    Step v { v with
      task := update v.task t none
      finished := v.finished ++ [w] }
  | accept (k : K) (w : W) (hk : v.deal k = some (w, true)) :
    Step v { v with deal := update v.deal k none, returned := w :: v.returned }
  | reject (k : K) (w : W) (hk : v.deal k = some (w, false)) :
    Step v { v with deal := update v.deal k none, given := v.given.erase w }

def Moves (v v' : State W G K T) (w : W) (q : Place G K T) : Prop :=
  ∀ w' p, v'.At w' p ↔ (w' = w ∧ p = q) ∨ (w' ≠ w ∧ v.At w' p)

structure Once (v : State W G K T) : Prop where
  place : ∀ w p p', v.At w p → v.At w p' → p = p'
  queue : ∀ g, (v.queue g).Nodup
  finished : v.finished.Nodup
  calledFinished : ∀ w, w ∈ v.finished → v.called w = 1
  calledTask : ∀ t w begun, v.task t = some (w, begun) → v.called w = begun.toNat
  calledElse : ∀ w, w ∉ v.finished → (∀ t begun, v.task t ≠ some (w, begun)) → v.called w = 0

structure Dealt (v : State W G K T) : Prop where
  nodup : v.given.Nodup
  given : ∀ k w committed, v.deal k = some (w, committed) → w ∈ v.given
  unique : ∀ k k' w committed committed', v.deal k = some (w, committed) →
    v.deal k' = some (w, committed') → k = k'
  returned : ∀ w, w ∈ v.returned →
    w ∈ v.given ∧ (∀ k committed, v.deal k ≠ some (w, committed)) ∧ v.Placed w
  placed : ∀ w, v.Placed w →
    w ∈ v.given ∧ ∀ k committed, v.deal k = some (w, committed) → committed = true
  committed : ∀ k w, v.deal k = some (w, true) → v.Placed w

namespace Once

variable {v v' : State W G K T} {g : G} {k : K} {t : T} {w : W}

theorem place_of_moves {q : Place G K T} (h : Once v) (hmoves : Moves v v' w q)
    : ∀ w p p', v'.At w p → v'.At w p' → p = p' := by
  intro w' p p' hp hp'
  rcases (hmoves w' p).mp hp with ⟨hw, rfl⟩ | ⟨hw, hp⟩
  . rcases (hmoves w' p').mp hp' with ⟨_, rfl⟩ | ⟨hne, _⟩
    . rfl
    . exact absurd hw hne
  . rcases (hmoves w' p').mp hp' with ⟨heq, _⟩ | ⟨_, hp'⟩
    . exact absurd heq hw
    . apply h.place w' p p' hp hp'

theorem moves_enqueue {o : Option (W × Bool)} (hw : ∀ p, ¬ v.At w p)
    : Moves v
        { v with deal := update v.deal k o, queue := update v.queue g (v.queue g ++ [w]) } w
        (.queue g) := by
  intro w' p
  have hp := hw p
  cases p with
  | queue g' => grind [State.At, update_apply]
  | flight k => grind [State.At]
  | task t => grind [State.At]
  | finished => grind [State.At]

theorem moves_reserve {o : Option (W × Bool)} (hw : ∀ p, ¬ v.At w p) (hk : v.flight k = none)
    : Moves v
        { v with deal := update v.deal k o, flight := update v.flight k (some w) } w
        (.flight k) := by
  intro w' p
  have hp := hw p
  cases p with
  | queue g => grind [State.At]
  | flight k' => grind [State.At, update_apply]
  | task t => grind [State.At]
  | finished => grind [State.At]

theorem moves_handOver (h : Once v) (hk : v.flight k = some w) (ht : v.task t = none)
    : Moves v
        { v with flight := update v.flight k none, task := update v.task t (some (w, false)) } w
        (.task t) := by
  intro w' p
  have hp := h.place w (.flight k) p hk
  cases p with
  | queue g => grind [State.At]
  | flight k' => grind [State.At, update_apply]
  | task t' => grind [State.At, update_apply]
  | finished => grind [State.At]

theorem moves_fetch {rest : List W} (h : Once v) (hg : v.queue g = w :: rest) (ht : v.task t = none)
    : Moves v
        { v with queue := update v.queue g rest, task := update v.task t (some (w, false)) } w
        (.task t) := by
  intro w' p
  have hat : v.At w (.queue g) := by simp [State.At, hg]
  have hp := h.place w (.queue g) p hat
  have hnodup := h.queue g
  rw [hg, List.nodup_cons] at hnodup
  cases p with
  | queue g' => grind [State.At, update_apply]
  | flight k => grind [State.At]
  | task t' => grind [State.At, update_apply]
  | finished => grind [State.At]

theorem moves_finish (h : Once v) (ht : v.task t = some (w, true))
    : Moves v { v with task := update v.task t none, finished := v.finished ++ [w] } w .finished := by
  intro w' p
  have hp := h.place w (.task t) p ⟨true, ht⟩
  cases p with
  | queue g => grind [State.At]
  | flight k => grind [State.At]
  | task t' => grind [State.At, update_apply]
  | finished => grind [State.At]

theorem at_begin (ht : v.task t = some (w, false)) (w' : W) (p : Place G K T)
    : { v with
        task := update v.task t (some (w, true))
        called := update v.called w (v.called w + 1) }.At w' p ↔ v.At w' p := by
  cases p with
  | task t' => grind [State.At, update_apply]
  | _ => rfl

theorem enqueue {o : Option (W × Bool)} (h : Once v) (hw : ∀ p, ¬ v.At w p)
    : Once
        { v with deal := update v.deal k o, queue := update v.queue g (v.queue g ++ [w]) } := by
  refine ⟨h.place_of_moves (moves_enqueue hw), ?_, h.finished, h.calledFinished, h.calledTask,
    h.calledElse⟩
  intro g'
  simp only [update_apply]
  split
  . rw [List.nodup_append]
    refine ⟨h.queue g, List.nodup_singleton w, ?_⟩
    intro a ha b hb
    rw [List.mem_singleton] at hb
    subst hb
    rintro rfl
    apply hw (.queue g) ha
  . apply h.queue g'

theorem reserve {o : Option (W × Bool)} (h : Once v) (hw : ∀ p, ¬ v.At w p)
    (hk : v.flight k = none)
    : Once { v with deal := update v.deal k o, flight := update v.flight k (some w) } :=
  ⟨h.place_of_moves (moves_reserve hw hk), h.queue, h.finished, h.calledFinished, h.calledTask,
    h.calledElse⟩

theorem called_eq_zero {p : Place G K T} (h : Once v) (hp : v.At w p) (htask : ∀ t, p ≠ .task t)
    (hfinished : p ≠ .finished)
    : v.called w = 0 := by
  apply h.calledElse w
  . intro hmem
    apply hfinished (h.place w p .finished hp hmem)
  . intro t begun ht
    apply htask t (h.place w p (.task t) hp ⟨begun, ht⟩)

theorem calledTask_of_zero (h : Once v) (hzero : v.called w = 0)
    : ∀ t' w' begun, update v.task t (some (w, false)) t' = some (w', begun) →
        v.called w' = begun.toNat := by
  intro t' w' begun ht'
  rw [update_apply] at ht'
  split at ht'
  . cases ht'
    exact hzero
  . apply h.calledTask t' w' begun ht'

theorem calledElse_of_zero (h : Once v) (hzero : v.called w = 0) (ht : v.task t = none)
    : ∀ w', w' ∉ v.finished →
        (∀ t' begun, update v.task t (some (w, false)) t' ≠ some (w', begun)) → v.called w' = 0 := by
  intro w' hmem hne
  by_cases hw : w' = w
  . rw [hw]
    exact hzero
  . apply h.calledElse w' hmem
    intro t' begun ht'
    apply hne t' begun
    rw [update_of_ne]
    . exact ht'
    . rintro rfl
      rw [ht] at ht'
      cases ht'

theorem handOver (h : Once v) (hk : v.flight k = some w) (ht : v.task t = none)
    : Once
        { v with flight := update v.flight k none, task := update v.task t (some (w, false)) } := by
  have hzero := h.called_eq_zero (p := .flight k) hk (by nofun) (by nofun)
  exact ⟨h.place_of_moves (h.moves_handOver hk ht), h.queue, h.finished, h.calledFinished,
    h.calledTask_of_zero hzero, h.calledElse_of_zero hzero ht⟩

theorem fetch {rest : List W} (h : Once v) (hg : v.queue g = w :: rest) (ht : v.task t = none)
    : Once { v with queue := update v.queue g rest, task := update v.task t (some (w, false)) } := by
  have hat : v.At w (.queue g) := by simp [State.At, hg]
  have hzero := h.called_eq_zero hat (by nofun) (by nofun)
  refine ⟨h.place_of_moves (h.moves_fetch hg ht), ?_, h.finished, h.calledFinished,
    h.calledTask_of_zero hzero, h.calledElse_of_zero hzero ht⟩
  intro g'
  simp only [update_apply]
  split
  . have hnodup := h.queue g
    rw [hg, List.nodup_cons] at hnodup
    apply hnodup.2
  . apply h.queue g'

theorem begin_ (h : Once v) (ht : v.task t = some (w, false))
    : Once { v with
        task := update v.task t (some (w, true))
        called := update v.called w (v.called w + 1) } := by
  have hzero : v.called w = 0 := h.calledTask t w false ht
  constructor
  . intro w' p p' hp hp'
    rw [at_begin ht] at hp hp'
    apply h.place w' p p' hp hp'
  . exact h.queue
  . exact h.finished
  . intro w' hmem
    have hne : w' ≠ w := by
      rintro rfl
      have := h.calledFinished w' hmem
      omega
    simp only [update_of_ne hne]
    apply h.calledFinished w' hmem
  . intro t' w' begun ht'
    simp only [update_apply] at ht' ⊢
    split at ht'
    . cases ht'
      rw [if_pos rfl, hzero]
      rfl
    . next hne =>
      have hw : w' ≠ w := by
        rintro rfl
        have := h.place w' (.task t') (.task t) ⟨begun, ht'⟩ ⟨false, ht⟩
        cases this
        exact hne rfl
      rw [if_neg hw]
      apply h.calledTask t' w' begun ht'
  . intro w' hmem hne
    have hw : w' ≠ w := by
      rintro rfl
      apply hne t true
      simp only [update_self]
    simp only [update_of_ne hw]
    apply h.calledElse w' hmem
    intro t' begun ht'
    apply hne t' begun
    simp only [update_apply]
    split
    . next heq =>
      rw [heq, ht] at ht'
      cases ht'
      exact absurd rfl hw
    . exact ht'

theorem finish (h : Once v) (ht : v.task t = some (w, true))
    : Once { v with task := update v.task t none, finished := v.finished ++ [w] } := by
  have hone : v.called w = 1 := h.calledTask t w true ht
  constructor
  . exact h.place_of_moves (h.moves_finish ht)
  . exact h.queue
  . rw [List.nodup_append]
    refine ⟨h.finished, List.nodup_singleton w, ?_⟩
    intro a ha b hb
    rw [List.mem_singleton] at hb
    subst hb
    rintro rfl
    cases h.place a .finished (.task t) ha ⟨true, ht⟩
  . intro w' hmem
    simp only [List.mem_append, List.mem_singleton] at hmem
    rcases hmem with hmem | rfl
    . apply h.calledFinished w' hmem
    . exact hone
  . intro t' w' begun ht'
    simp only [update_apply] at ht'
    split at ht'
    . cases ht'
    . apply h.calledTask t' w' begun ht'
  . intro w' hmem hne
    simp only [List.mem_append, List.mem_singleton, not_or] at hmem
    apply h.calledElse w' hmem.1
    intro t' begun ht'
    apply hne t' begun
    simp only [update_apply]
    split
    . next heq =>
      rw [heq, ht] at ht'
      cases ht'
      exact absurd rfl hmem.2
    . exact ht'

theorem not_at (hd : Dealt v) (hk : v.deal k = some (w, false)) : ∀ p, ¬ v.At w p := by
  intro p hp
  cases (hd.placed w ⟨p, hp⟩).2 k false hk

theorem step (h : Once v) (hd : Dealt v) (hs : Step v v') : Once v' := by
  cases hs with
  | stay => exact h
  | enqueue k g w hk => apply h.enqueue (not_at hd hk)
  | reserve k w hk hf => apply h.reserve (not_at hd hk) hf
  | handOver k t w hk ht => apply h.handOver hk ht
  | fetch g t w rest hg ht => apply h.fetch hg ht
  | begin_ t w ht => apply h.begin_ ht
  | finish t w ht => apply h.finish ht
  | offer k w hk hw =>
    exact ⟨h.place, h.queue, h.finished, h.calledFinished, h.calledTask, h.calledElse⟩
  | accept k w hk =>
    exact ⟨h.place, h.queue, h.finished, h.calledFinished, h.calledTask, h.calledElse⟩
  | reject k w hk =>
    exact ⟨h.place, h.queue, h.finished, h.calledFinished, h.calledTask, h.calledElse⟩

theorem placed_of_moves {q : Place G K T} {w' : W} (hmoves : Moves v v' w' q)
    : v'.Placed w ↔ w = w' ∨ v.Placed w := by
  constructor
  . rintro ⟨p, hp⟩
    rcases (hmoves w p).mp hp with ⟨heq, _⟩ | ⟨_, hp⟩
    . exact .inl heq
    . exact .inr ⟨p, hp⟩
  . intro hw
    by_cases heq : w = w'
    . exact ⟨q, (hmoves w q).mpr (.inl ⟨heq, rfl⟩)⟩
    . obtain ⟨p, hp⟩ := hw.resolve_left heq
      exact ⟨p, (hmoves w p).mpr (.inr ⟨heq, hp⟩)⟩

theorem placed_of_moves_at {p q : Place G K T} {w' : W} (hmoves : Moves v v' w' q) (hp : v.At w' p)
    : v'.Placed w ↔ v.Placed w := by
  rw [placed_of_moves hmoves, or_iff_right_iff_imp]
  rintro rfl
  exact ⟨p, hp⟩

theorem called_le (h : Once v) (w : W) : v.called w ≤ 1 := by
  by_cases hmem : w ∈ v.finished
  . apply Nat.le_of_eq (h.calledFinished w hmem)
  . by_cases htask : ∃ t begun, v.task t = some (w, begun)
    . obtain ⟨t, begun, ht⟩ := htask
      rw [h.calledTask t w begun ht]
      apply Bool.toNat_le
    . rw [h.calledElse w hmem]
      . apply Nat.zero_le
      . intro t begun ht
        apply htask ⟨t, begun, ht⟩

end Once

namespace Dealt

variable {v v' : State W G K T} {k : K} {w : W}

theorem frame (h : Dealt v) (hdeal : v'.deal = v.deal) (hgiven : v'.given = v.given)
    (hreturned : v'.returned = v.returned) (hplaced : ∀ w, v'.Placed w ↔ v.Placed w)
    : Dealt v' := by
  constructor
  . rw [hgiven]
    apply h.nodup
  . rw [hdeal, hgiven]
    apply h.given
  . rw [hdeal]
    apply h.unique
  . intro w hw
    rw [hreturned] at hw
    rw [hdeal, hgiven, hplaced]
    apply h.returned w hw
  . intro w hw
    rw [hplaced] at hw
    rw [hdeal, hgiven]
    apply h.placed w hw
  . intro k w hk
    rw [hdeal] at hk
    rw [hplaced]
    apply h.committed k w hk

theorem offer (h : Dealt v) (hw : w ∉ v.given)
    : Dealt { v with deal := update v.deal k (some (w, false)), given := w :: v.given } := by
  have hdeal : ∀ i w' c, update v.deal k (some (w, false)) i = some (w', c) →
      (i = k ∧ w' = w ∧ c = false) ∨ (w' ≠ w ∧ v.deal i = some (w', c)) := by
    intro i w' c hi
    rw [update_apply] at hi
    split at hi
    . next heq =>
      cases hi
      exact .inl ⟨heq, rfl, rfl⟩
    . refine .inr ⟨?_, hi⟩
      rintro rfl
      apply hw (h.given i w' c hi)
  constructor
  . rw [List.nodup_cons]
    exact ⟨hw, h.nodup⟩
  . intro i w' c hi
    rw [List.mem_cons]
    rcases hdeal i w' c hi with ⟨_, rfl, _⟩ | ⟨_, hi⟩
    . exact .inl rfl
    . exact .inr (h.given i w' c hi)
  . intro i i' w' c c' hi hi'
    rcases hdeal i w' c hi with ⟨rfl, rfl, _⟩ | ⟨hne, hi⟩
    . rcases hdeal i' w' c' hi' with ⟨rfl, _⟩ | ⟨hne, _⟩
      . rfl
      . exact absurd rfl hne
    . rcases hdeal i' w' c' hi' with ⟨_, rfl, _⟩ | ⟨_, hi'⟩
      . exact absurd rfl hne
      . apply h.unique i i' w' c c' hi hi'
  . intro w' hw'
    obtain ⟨hgiven, hnone, hplaced⟩ := h.returned w' hw'
    refine ⟨List.mem_cons_of_mem w hgiven, ?_, hplaced⟩
    intro i c hi
    rcases hdeal i w' c hi with ⟨_, rfl, _⟩ | ⟨_, hi⟩
    . apply hw hgiven
    . apply hnone i c hi
  . intro w' hw'
    obtain ⟨hgiven, hcommitted⟩ := h.placed w' hw'
    refine ⟨List.mem_cons_of_mem w hgiven, ?_⟩
    intro i c hi
    rcases hdeal i w' c hi with ⟨_, rfl, _⟩ | ⟨_, hi⟩
    . exact absurd hgiven hw
    . apply hcommitted i c hi
  . intro i w' hi
    rcases hdeal i w' true hi with ⟨_, _, hc⟩ | ⟨_, hi⟩
    . cases hc
    . apply h.committed i w' hi

theorem commit (h : Dealt v) (hk : v.deal k = some (w, false))
    (hdeal : v'.deal = update v.deal k (some (w, true))) (hgiven : v'.given = v.given)
    (hreturned : v'.returned = v.returned) (hplaced : ∀ w', v'.Placed w' ↔ w' = w ∨ v.Placed w')
    : Dealt v' := by
  have hold : ∀ i w' c, v'.deal i = some (w', c) →
      (w' = w ∧ c = true) ∨ v.deal i = some (w', c) := by
    intro i w' c hi
    rw [hdeal, update_apply] at hi
    split at hi
    . cases hi
      exact .inl ⟨rfl, rfl⟩
    . exact .inr hi
  have hsame : ∀ i w' c, v'.deal i = some (w', c) → ∃ c', v.deal i = some (w', c') := by
    intro i w' c hi
    rw [hdeal, update_apply] at hi
    split at hi
    . next heq =>
      cases hi
      exact ⟨false, heq ▸ hk⟩
    . exact ⟨c, hi⟩
  constructor
  . rw [hgiven]
    apply h.nodup
  . intro i w' c hi
    rw [hgiven]
    obtain ⟨c', hi⟩ := hsame i w' c hi
    apply h.given i w' c' hi
  . intro i i' w' c c' hi hi'
    obtain ⟨b, hi⟩ := hsame i w' c hi
    obtain ⟨b', hi'⟩ := hsame i' w' c' hi'
    apply h.unique i i' w' b b' hi hi'
  . intro w' hw'
    rw [hreturned] at hw'
    obtain ⟨hmem, hnone, hp⟩ := h.returned w' hw'
    rw [hgiven, hplaced]
    refine ⟨hmem, ?_, .inr hp⟩
    intro i c hi
    obtain ⟨c', hi⟩ := hsame i w' c hi
    apply hnone i c' hi
  . intro w' hw'
    rw [hplaced] at hw'
    rw [hgiven]
    rcases hw' with rfl | hw'
    . refine ⟨h.given k w' false hk, ?_⟩
      intro i c hi
      rcases hold i w' c hi with ⟨_, hc⟩ | hi'
      . exact hc
      . have heq := h.unique i k w' c false hi' hk
        rw [heq, hdeal, update_self] at hi
        cases hi
        rfl
    . refine ⟨(h.placed w' hw').1, ?_⟩
      intro i c hi
      rcases hold i w' c hi with ⟨_, hc⟩ | hi
      . exact hc
      . apply (h.placed w' hw').2 i c hi
  . intro i w' hi
    rw [hplaced]
    rcases hold i w' true hi with ⟨hw', _⟩ | hi
    . exact .inl hw'
    . exact .inr (h.committed i w' hi)

theorem deal_of_update {c : Bool} {i : K} {w' : W} (hi : update v.deal k none i = some (w', c))
    : i ≠ k ∧ v.deal i = some (w', c) := by
  rw [update_apply] at hi
  split at hi
  . cases hi
  . next hne => exact ⟨hne, hi⟩

theorem accept (h : Dealt v) (hk : v.deal k = some (w, true))
    : Dealt { v with deal := update v.deal k none, returned := w :: v.returned } := by
  constructor
  . apply h.nodup
  . intro i w' c hi
    apply h.given i w' c (deal_of_update hi).2
  . intro i i' w' c c' hi hi'
    apply h.unique i i' w' c c' (deal_of_update hi).2 (deal_of_update hi').2
  . intro w' hw'
    rw [List.mem_cons] at hw'
    rcases hw' with rfl | hw'
    . refine ⟨h.given k w' true hk, ?_, h.committed k w' hk⟩
      intro i c hi
      obtain ⟨hne, hi⟩ := deal_of_update hi
      apply hne (h.unique i k w' c true hi hk)
    . obtain ⟨hmem, hnone, hplaced⟩ := h.returned w' hw'
      exact ⟨hmem, fun i c hi => hnone i c (deal_of_update hi).2, hplaced⟩
  . intro w' hw'
    obtain ⟨hmem, hcommitted⟩ := h.placed w' hw'
    exact ⟨hmem, fun i c hi => hcommitted i c (deal_of_update hi).2⟩
  . intro i w' hi
    apply h.committed i w' (deal_of_update hi).2

theorem reject (h : Dealt v) (hk : v.deal k = some (w, false))
    : Dealt { v with deal := update v.deal k none, given := v.given.erase w } := by
  have hne : ∀ w', v.Placed w' → w' ≠ w := by
    rintro w' hw' rfl
    cases (h.placed w' hw').2 k false hk
  constructor
  . apply h.nodup.erase
  . intro i w' c hi
    obtain ⟨hik, hold⟩ := deal_of_update hi
    rw [h.nodup.mem_erase_iff]
    refine ⟨?_, h.given i w' c hold⟩
    rintro rfl
    apply hik (h.unique i k w' c false hold hk)
  . intro i i' w' c c' hi hi'
    apply h.unique i i' w' c c' (deal_of_update hi).2 (deal_of_update hi').2
  . intro w' hw'
    obtain ⟨hmem, hnone, hplaced⟩ := h.returned w' hw'
    refine ⟨?_, fun i c hi => hnone i c (deal_of_update hi).2, hplaced⟩
    exact (List.mem_erase_of_ne (hne w' hplaced)).mpr hmem
  . intro w' hw'
    obtain ⟨hmem, hcommitted⟩ := h.placed w' hw'
    refine ⟨?_, fun i c hi => hcommitted i c (deal_of_update hi).2⟩
    exact (List.mem_erase_of_ne (hne w' hw')).mpr hmem
  . intro i w' hi
    apply h.committed i w' (deal_of_update hi).2

theorem step (h : Dealt v) (ho : Once v) (hs : Step v v') : Dealt v' := by
  cases hs with
  | stay => exact h
  | offer k w hk hw => apply h.offer hw
  | enqueue k g w hk =>
    have hmoves := Once.moves_enqueue (k := k) (g := g) (o := some (w, true)) (Once.not_at h hk)
    exact h.commit hk rfl rfl rfl (fun w' => Once.placed_of_moves hmoves)
  | reserve k w hk hf =>
    have hmoves := Once.moves_reserve (o := some (w, true)) (Once.not_at h hk) hf
    exact h.commit hk rfl rfl rfl (fun w' => Once.placed_of_moves hmoves)
  | handOver k t w hk ht =>
    have hmoves := ho.moves_handOver hk ht
    exact h.frame rfl rfl rfl (fun w' => Once.placed_of_moves_at (p := .flight k) hmoves hk)
  | fetch g t w rest hg ht =>
    have hmoves := ho.moves_fetch hg ht
    have hat : v.At w (.queue g) := by simp [State.At, hg]
    exact h.frame rfl rfl rfl (fun w' => Once.placed_of_moves_at hmoves hat)
  | begin_ t w ht =>
    refine h.frame rfl rfl rfl ?_
    intro w'
    unfold State.Placed
    simp only [Once.at_begin ht]
  | finish t w ht =>
    have hmoves := ho.moves_finish ht
    exact h.frame rfl rfl rfl (fun w' => Once.placed_of_moves_at (p := .task t) hmoves ⟨true, ht⟩)
  | accept k w hk => apply h.accept hk
  | reject k w hk => apply h.reject hk

end Dealt

/--
The caller has committed to the work, and may have returned since.
-/
def State.Committed (v : State W G K T) (w : W) : Prop :=
  w ∈ v.returned ∨ ∃ k, v.deal k = some (w, true)

theorem existsUnique_at {v : State W G K T} {w : W} (h : Once v) (hd : Dealt v)
    (hw : v.Committed w)
    : ∃! p, v.At w p := by
  have hplaced : v.Placed w := by
    rcases hw with hw | ⟨k, hk⟩
    . apply (hd.returned w hw).2.2
    . apply hd.committed k w hk
  obtain ⟨p, hp⟩ := hplaced
  exact ⟨p, hp, fun p' hp' => h.place w p' p hp' hp⟩

theorem Step.committed {v v' : State W G K T} {w : W} (hs : Step v v') (hw : v.Committed w)
    : v'.Committed w := by
  have hkeep : ∀ k w' o, v.deal k = some (w', false) → v'.deal = update v.deal k o →
      v'.returned = v.returned → v'.Committed w := by
    intro k w' o hk hdeal hreturned
    unfold State.Committed
    rw [hdeal, hreturned]
    refine hw.imp_right ?_
    rintro ⟨i, hi⟩
    refine ⟨i, ?_⟩
    rw [update_of_ne]
    . exact hi
    . rintro rfl
      rw [hk] at hi
      cases hi
  cases hs with
  | stay => exact hw
  | enqueue k g w' hk => exact hkeep k w' _ hk rfl rfl
  | reserve k w' hk hf => exact hkeep k w' _ hk rfl rfl
  | reject k w' hk => exact hkeep k w' _ hk rfl rfl
  | handOver => exact hw
  | fetch => exact hw
  | begin_ => exact hw
  | finish => exact hw
  | offer k w' hk hw' =>
    refine hw.imp_right ?_
    rintro ⟨i, hi⟩
    refine ⟨i, ?_⟩
    simp only [update_apply]
    split
    . next heq =>
      rw [heq, hk] at hi
      cases hi
    . exact hi
  | accept k w' hk =>
    unfold State.Committed
    rcases hw with hw | ⟨i, hi⟩
    . exact .inl (List.mem_cons_of_mem w' hw)
    . by_cases heq : i = k
      . rw [heq, hk] at hi
        cases hi
        exact .inl List.mem_cons_self
      . refine .inr ⟨i, ?_⟩
        simp only [update_of_ne heq]
        exact hi

theorem Step.task_of_some {v v' : State W G K T} {t : T} {w : W} {begun : Bool} (hs : Step v v')
    (ht : v.task t = some (w, begun))
    : (∃ begun', v'.task t = some (w, begun')) ∨ (v'.task t = none ∧ w ∈ v'.finished) := by
  cases hs with
  | handOver k t' w' hk ht' => grind [update_apply]
  | fetch g t' w' rest hg ht' => grind [update_apply]
  | begin_ t' w' ht' => grind [update_apply]
  | finish t' w' ht' => grind [update_apply]
  | _ => exact .inl ⟨begun, ht⟩

end Handoff
