import Mathlib.Data.List.Basic

/-!
This module contains labelled transition systems whose steps are computed by a partial function, and
the rules that carry an invariant from one step to a whole run. `Along` says that every action of a
run is taken in a state that satisfies a predicate together with it, `Throughout` that every state of a run
satisfies a predicate. `record` is the list of what the steps of a run report.
-/

namespace Lts

variable {σ : Type u} {α : Type v} {step : σ → α → Option σ}

def run (step : σ → α → Option σ) (s : σ) : List α → Option σ
  | [] => some s
  | a :: as => (step s a).bind fun s' => run step s' as

def Along (step : σ → α → Option σ) (P : σ → α → Prop) : σ → List α → Prop
  | _, [] => True
  | s, a :: as => P s a ∧ ∀ s' ∈ step s a, Along step P s' as

def Throughout (step : σ → α → Option σ) (P : σ → Prop) : σ → List α → Prop
  | s, [] => P s
  | s, a :: as => P s ∧ ∀ s' ∈ step s a, Throughout step P s' as

def record (step : σ → α → Option σ) (f : σ → α → List ε) : σ → List α → List ε
  | _, [] => []
  | s, a :: as =>
    match step s a with
    | none => []
    | some s' => f s a ++ record step f s' as

@[simp]
theorem run_nil (s : σ) : run step s [] = some s := rfl

@[simp]
theorem run_cons (s : σ) (a : α) (as : List α)
    : run step s (a :: as) = (step s a).bind fun s' => run step s' as := rfl

@[simp]
theorem along_nil (P : σ → α → Prop) (s : σ) : Along step P s [] := trivial

@[simp]
theorem along_cons (P : σ → α → Prop) (s : σ) (a : α) (as : List α)
    : Along step P s (a :: as) ↔ P s a ∧ ∀ s' ∈ step s a, Along step P s' as := Iff.rfl

instance decidableAlong (P : σ → α → Prop) [∀ s a, Decidable (P s a)]
    : (s : σ) → (as : List α) → Decidable (Along step P s as)
  | _, [] => isTrue trivial
  | s, a :: as =>
    match h : step s a with
    | none => decidable_of_iff (P s a) (by simp [h])
    | some s' =>
      have := decidableAlong P s' as
      decidable_of_iff (P s a ∧ Along step P s' as) (by simp [h])

instance decidableThroughout (P : σ → Prop) [DecidablePred P]
    : (s : σ) → (as : List α) → Decidable (Throughout step P s as)
  | s, [] => inferInstanceAs (Decidable (P s))
  | s, a :: as =>
    match h : step s a with
    | none => decidable_of_iff (P s) (by simp [Throughout, h])
    | some s' =>
      have := decidableThroughout P s' as
      decidable_of_iff (P s ∧ Throughout step P s' as) (by simp [Throughout, h])

theorem run_append (s : σ) (as bs : List α)
    : run step s (as ++ bs) = (run step s as).bind fun s' => run step s' bs := by
  induction as generalizing s with
  | nil => simp
  | cons a as ih =>
    simp only [List.cons_append, run_cons]
    cases step s a with
    | none => rfl
    | some s' => exact ih s'

theorem along_append {P : σ → α → Prop} {s s' : σ} {as bs : List α} (h : Along step P s (as ++ bs))
    (hrun : run step s as = some s')
    : Along step P s as ∧ Along step P s' bs := by
  induction as generalizing s with
  | nil =>
    cases hrun
    exact ⟨trivial, h⟩
  | cons a as ih =>
    obtain ⟨t, ht, hrun⟩ := Option.bind_eq_some_iff.mp hrun
    obtain ⟨has, hbs⟩ := ih (h.2 t ht) hrun
    refine ⟨⟨h.1, ?_⟩, hbs⟩
    intro t' ht'
    cases ht.symm.trans ht'
    exact has

theorem forall_snoc_cons {Q : List α → α → Prop} {a : α} {as : List α}
    : (∀ bs b, bs ++ [b] <+: a :: as → Q bs b) ↔ Q [] a ∧ ∀ bs b, bs ++ [b] <+: as → Q (a :: bs) b := by
  constructor
  . intro h
    exact ⟨h [] a (by simp), fun bs b hbs => h (a :: bs) b (by simpa using hbs)⟩
  . rintro ⟨hnil, hcons⟩ bs b hbs
    cases bs with
    | nil =>
      obtain ⟨rfl, _⟩ := List.cons_prefix_cons.mp hbs
      exact hnil
    | cons c bs =>
      obtain ⟨rfl, hrest⟩ := List.cons_prefix_cons.mp hbs
      exact hcons bs b hrest

theorem invariant_along {I : σ → Prop} {P : σ → α → Prop}
    (hstep : ∀ s a s', I s → P s a → step s a = some s' → I s')
    : ∀ {s as s'}, I s → Along step P s as → run step s as = some s' → I s' := by
  intro s as s' hs hP hrun
  induction as generalizing s with
  | nil =>
    simp only [run_nil, Option.some.injEq] at hrun
    exact hrun ▸ hs
  | cons a as ih =>
    obtain ⟨t, ht, hrun⟩ := Option.bind_eq_some_iff.mp hrun
    exact ih (hstep s a t hs hP.1 ht) (hP.2 t ht) hrun

theorem progress_along {I : σ → Prop} {P : σ → α → Prop}
    (hstep : ∀ s a, I s → P s a → ∃ s', step s a = some s' ∧ I s')
    : ∀ {s as}, I s → Along step P s as → ∀ k, ∃ s', run step s (as.take k) = some s' ∧ I s' := by
  intro s as hs hP k
  induction as generalizing s k with
  | nil => exact ⟨s, by simp, hs⟩
  | cons a as ih =>
    cases k with
    | zero => exact ⟨s, rfl, hs⟩
    | succ k =>
      obtain ⟨t, ht, hIt⟩ := hstep s a hs hP.1
      obtain ⟨s', hrun, hs'⟩ := ih hIt (hP.2 t ht) k
      exact ⟨s', by rw [List.take_succ_cons, run_cons, ht]; exact hrun, hs'⟩

theorem along_of_forall {P : α → Prop} {s : σ} {as : List α} (h : ∀ a ∈ as, P a)
    : Along step (fun _ a => P a) s as := by
  induction as generalizing s with
  | nil => trivial
  | cons a as ih =>
    obtain ⟨ha, has⟩ := List.forall_mem_cons.mp h
    exact ⟨ha, fun s' _ => ih has⟩

theorem forall_of_along {P : α → Prop} {s s' : σ} {as : List α} (h : Along step (fun _ a => P a) s as)
    (hrun : run step s as = some s')
    : ∀ a ∈ as, P a := by
  induction as generalizing s with
  | nil => simp
  | cons a as ih =>
    obtain ⟨t, ht, hrun⟩ := Option.bind_eq_some_iff.mp hrun
    exact List.forall_mem_cons.mpr ⟨h.1, ih (h.2 t ht) hrun⟩

theorem Along.imp {P Q : σ → α → Prop} {s : σ} {as : List α} (h : Along step P s as) (hPQ : ∀ s a, P s a → Q s a)
    : Along step Q s as := by
  induction as generalizing s with
  | nil => trivial
  | cons a as ih => exact ⟨hPQ s a h.1, fun s' hs' => ih (h.2 s' hs')⟩

theorem along_true (s : σ) (as : List α) : Along step (fun _ _ => True) s as :=
  along_of_forall fun _ _ => trivial

theorem along_of_runs {P : σ → α → Prop} {s : σ} {as : List α}
    (h : ∀ bs a t, bs ++ [a] <+: as → run step s bs = some t → P t a)
    : Along step P s as := by
  induction as generalizing s with
  | nil => trivial
  | cons a as ih =>
    refine ⟨h [] a s (by simp) rfl, fun s' hs' => ih fun bs b t hbs hrun => ?_⟩
    refine h (a :: bs) b t (by simpa using hbs) ?_
    rw [run_cons, hs']
    exact hrun

theorem invariant_run {I : σ → Prop} (hstep : ∀ s a s', I s → step s a = some s' → I s')
    : ∀ {s as s'}, I s → run step s as = some s' → I s' := by
  intro s as s' hs hrun
  exact invariant_along (fun s a s' hI _ h => hstep s a s' hI h) hs (along_true s as) hrun

theorem Throughout.head {P : σ → Prop} {s : σ} {as : List α} (h : Throughout step P s as) : P s := by
  cases as with
  | nil => exact h
  | cons a as => exact h.1

theorem record_cons {f : σ → α → List ε} {s s' : σ} {a : α} (h : step s a = some s') (as : List α)
    : record step f s (a :: as) = f s a ++ record step f s' as := by
  rw [record, h]

theorem invariant_record {f : σ → α → List ε} {I : σ → List ε → Prop}
    (hstep : ∀ s l a s', I s l → step s a = some s' → I s' (l ++ f s a))
    : ∀ {s l as s'}, I s l → run step s as = some s' → I s' (l ++ record step f s as) := by
  intro s l as s' hs hrun
  induction as generalizing s l with
  | nil =>
    cases hrun
    rw [record, List.append_nil]
    exact hs
  | cons a as ih =>
    obtain ⟨t, ht, hrun⟩ := Option.bind_eq_some_iff.mp hrun
    rw [record_cons ht, ← List.append_assoc]
    exact ih (hstep s l a t hs ht) hrun

theorem invariant_record_throughout {f : σ → α → List ε} {P : σ → Prop} {I : σ → List ε → Prop}
    (hstep : ∀ s l a s', I s l → P s' → step s a = some s' → I s' (l ++ f s a))
    : ∀ {s l as s'}, I s l → Throughout step P s as → run step s as = some s' → I s' (l ++ record step f s as) := by
  intro s l as s' hs hP hrun
  induction as generalizing s l with
  | nil =>
    cases hrun
    rw [record, List.append_nil]
    exact hs
  | cons a as ih =>
    obtain ⟨t, ht, hrun⟩ := Option.bind_eq_some_iff.mp hrun
    rw [record_cons ht, ← List.append_assoc]
    exact ih (hstep s l a t hs (hP.2 t ht).head ht) (hP.2 t ht) hrun

end Lts
