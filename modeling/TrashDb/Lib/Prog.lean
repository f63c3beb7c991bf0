import Mathlib.Order.Defs.Unbundled

/-!
This module contains the rules for programs that change a state and may stop with an error. The state is
kept when they stop.
-/

namespace Prog

variable {ε σ α β : Type} {m : EStateM ε σ α} {f : α → EStateM ε σ β} {s s' s'' : σ}

def final : EStateM.Result ε σ α → σ
  | .ok _ s => s
  | .error _ s => s

def ensure (p : Bool) (e : ε) : EStateM ε σ Unit := if p then pure () else throw e

def when (p : Bool) (m : EStateM ε σ Unit) : EStateM ε σ Unit := if p then m else pure ()

@[simp]
theorem run_throw (e : ε) : (throw e : EStateM ε σ α).run s = .error e s := rfl

@[simp]
theorem run_map (g : α → β)
    : (g <$> m).run s = match m.run s with
        | .ok a s' => .ok (g a) s'
        | .error e s' => .error e s' := rfl

theorem bind_of_ok {a : α} (h : m.run s = .ok a s') : (m >>= f).run s = (f a).run s' := by
  rw [EStateM.run_bind, h]

theorem bind_of_error {e : ε} (h : m.run s = .error e s') : (m >>= f).run s = .error e s' := by
  rw [EStateM.run_bind, h]

theorem final_bind_pure (b : β) : final ((m >>= fun _ => pure b).run s) = final (m.run s) := by
  cases h : m.run s with
  | ok a s' => rw [bind_of_ok h, EStateM.run_pure, final, final]
  | error e s' => rw [bind_of_error h, final, final]

theorem bind_eq_ok {b : β}
    : (m >>= f).run s = .ok b s'' ↔ ∃ a s', m.run s = .ok a s' ∧ (f a).run s' = .ok b s'' := by
  rw [EStateM.run_bind]
  cases m.run s with
  | ok a s' =>
    constructor
    . intro h
      exact ⟨a, s', rfl, h⟩
    . rintro ⟨_, _, heq, h⟩
      cases heq
      exact h
  | error e s' => simp

@[simp]
theorem when_true (m : EStateM ε σ Unit) : when true m = m := rfl

@[simp]
theorem when_false (m : EStateM ε σ Unit) : when false m = pure () := rfl

@[simp]
theorem run_ensure_true (e : ε) : (ensure true e : EStateM ε σ Unit).run s = .ok () s := rfl

@[simp]
theorem run_ensure_false (e : ε) : (ensure false e : EStateM ε σ Unit).run s = .error e s := rfl

theorem ensure_eq_ok {p : Bool} {e : ε} {u : Unit}
    : (ensure p e : EStateM ε σ Unit).run s = .ok u s' ↔ p = true ∧ s' = s := by
  cases p with
  | true => simp [eq_comm]
  | false => simp

/--
If the program returns then what it returns and the state satisfy `Q`, if it stops then the error and the
state satisfy `E`.
-/
def Spec (P : σ → Prop) (m : EStateM ε σ α) (Q : α → σ → Prop) (E : ε → σ → Prop) : Prop :=
  ∀ s, P s → (∀ a s', m.run s = .ok a s' → Q a s') ∧ ∀ e s', m.run s = .error e s' → E e s'

abbrev Returns (P : σ → Prop) (m : EStateM ε σ α) (Q : α → σ → Prop) : Prop :=
  Spec P m Q fun _ _ => True

section

variable {P A : σ → Prop} {Q B : α → σ → Prop} {E : ε → σ → Prop}

theorem spec_weaken (h : Spec A m B E) (hP : ∀ s, P s → A s) (hQ : ∀ a s, B a s → Q a s)
    : Spec P m Q E := by
  intro s hs
  obtain ⟨hok, herror⟩ := h s (hP s hs)
  exact ⟨fun a s' hrun => hQ a s' (hok a s' hrun), herror⟩

theorem spec_assume {p : Prop} (h : p → Spec P m Q E) : Spec (fun s => P s ∧ p) m Q E :=
  fun s hs => h hs.2 s hs.1

theorem spec_exists {ι : Type} {P : ι → σ → Prop} (h : ∀ i, Spec (P i) m Q E)
    : Spec (fun s => ∃ i, P i s) m Q E :=
  fun s ⟨i, hs⟩ => h i s hs

theorem spec_false : Spec (fun _ => False) m Q E := fun _ hs => hs.elim

theorem spec_of_run (h : ∀ s, P s → ∃ a s', m.run s = .ok a s' ∧ Q a s') : Spec P m Q E := by
  intro s hs
  obtain ⟨a, s', hrun, hQ⟩ := h s hs
  constructor
  . intro b s'' hrun'
    rw [hrun] at hrun'
    cases hrun'
    exact hQ
  . intro e s'' hrun'
    rw [hrun] at hrun'
    cases hrun'

theorem spec_pure (a : α) (h : ∀ s, P s → Q a s) : Spec P (pure a : EStateM ε σ α) Q E := by
  intro s hs
  constructor
  . intro b s' hrun
    cases hrun
    exact h s hs
  . nofun

theorem spec_throw (e : ε) (h : ∀ s, P s → E e s) : Spec P (throw e : EStateM ε σ α) Q E := by
  intro s hs
  constructor
  . nofun
  . intro e' s' hrun
    cases hrun
    exact h s hs

theorem spec_modify {Q : PUnit → σ → Prop} (g : σ → σ) (h : ∀ s, P s → Q ⟨⟩ (g s))
    : Spec P (modify g : EStateM ε σ PUnit) Q E := by
  intro s hs
  constructor
  . intro a s' hrun
    cases hrun
    exact h s hs
  . nofun

theorem spec_set {Q : PUnit → σ → Prop} (h : ∀ s, P s → Q ⟨⟩ s')
    : Spec P (set s' : EStateM ε σ PUnit) Q E := by
  intro s hs
  constructor
  . intro a s'' hrun
    cases hrun
    exact h s hs
  . nofun

theorem spec_ensure {Q : Unit → σ → Prop} (p : Bool) (e : ε) (h : ∀ s, P s → p = true → Q () s)
    (hE : ∀ s, P s → p = false → E e s)
    : Spec P (ensure p e : EStateM ε σ Unit) Q E := by
  cases p with
  | true => exact spec_pure () fun s hs => h s hs rfl
  | false => exact spec_throw e fun s hs => hE s hs rfl

theorem spec_when {Q : Unit → σ → Prop} {p : Bool} {m : EStateM ε σ Unit} (hm : p = true → Spec P m Q E)
    (h : ∀ s, p = false → P s → Q () s)
    : Spec P (when p m) Q E := by
  cases p with
  | true => exact hm rfl
  | false => exact spec_pure () fun s => h s rfl

theorem spec_bind {R : β → σ → Prop} (hm : Spec P m Q E) (hf : ∀ a, Spec (Q a) (f a) R E)
    : Spec P (m >>= f) R E := by
  intro s hs
  obtain ⟨hok, herror⟩ := hm s hs
  rw [EStateM.run_bind]
  cases hrun : m.run s with
  | ok a s' => exact hf a s' (hok a s' hrun)
  | error e s' =>
    constructor
    . nofun
    . intro e' s'' heq
      cases heq
      exact herror e s' hrun

theorem spec_get {g : σ → EStateM ε σ α} (h : ∀ s, P s → Spec (· = s) (g s) Q E)
    : Spec P (get >>= g) Q E :=
  fun s hs => h s hs s rfl

theorem Returns.of_run (h : Returns P m Q) {a : α} (hs : P s) (hrun : m.run s = .ok a s') : Q a s' :=
  (h s hs).1 a s' hrun

theorem returns_iff : Returns P m Q ↔ ∀ s a s', P s → m.run s = .ok a s' → Q a s' := by
  constructor
  . intro h s a s' hs hrun
    exact h.of_run hs hrun
  . intro h s hs
    exact ⟨fun a s' hrun => h s a s' hs hrun, fun _ _ _ => trivial⟩

end

def Extends (R : σ → σ → Prop) (m : EStateM ε σ α) : Prop := ∀ s, R s (final (m.run s))

theorem Extends.of_run {R : σ → σ → Prop} {a : α} (h : Extends R m) (hrun : m.run s = .ok a s')
    : R s s' := by
  have hR := h s
  rw [hrun] at hR
  exact hR

section

variable {R : σ → σ → Prop} [Std.Refl R]

theorem extends_pure (a : α) : Extends R (pure a : EStateM ε σ α) := fun s => refl s

theorem extends_get : Extends R (get : EStateM ε σ σ) := fun s => refl s

theorem extends_throw (e : ε) : Extends R (throw e : EStateM ε σ α) := fun s => refl s

theorem extends_ensure (p : Bool) (e : ε) : Extends R (ensure p e : EStateM ε σ Unit) := by
  cases p <;> exact fun s => refl s

theorem extends_when {m : EStateM ε σ Unit} (p : Bool) (h : Extends R m) : Extends R (when p m) := by
  cases p with
  | true => exact h
  | false => exact extends_pure ()

end

theorem extends_bind {R : σ → σ → Prop} [IsTrans σ R] (hm : Extends R m) (hf : ∀ a, Extends R (f a))
    : Extends R (m >>= f) := by
  intro s
  have hms := hm s
  rw [EStateM.run_bind]
  cases h : m.run s with
  | ok a s' =>
    rw [h] at hms
    exact IsTrans.trans _ _ _ hms (hf a s')
  | error e s' =>
    rw [h] at hms
    exact hms

theorem Extends.and {R R' : σ → σ → Prop} (h : Extends R m) (h' : Extends R' m)
    : Extends (fun s s' => R s s' ∧ R' s s') m :=
  fun s => ⟨h s, h' s⟩

theorem spec_of_extends {R : σ → σ → Prop} {I : σ → Prop} (h : Extends R m)
    (hI : ∀ s s', I s → R s s' → I s')
    : Spec I m (fun _ => I) (fun _ => I) := by
  intro s hs
  have hR := h s
  constructor
  . intro a s' hrun
    rw [hrun] at hR
    exact hI s s' hs hR
  . intro e s' hrun
    rw [hrun] at hR
    exact hI s s' hs hR

theorem extends_of_spec {R : σ → σ → Prop} [Std.Refl R]
    (h : ∀ s₀, Spec (R s₀) m (fun _ => R s₀) (fun _ => R s₀))
    : Extends R m := by
  intro s
  obtain ⟨hok, herror⟩ := h s s (refl s)
  cases hrun : m.run s with
  | ok a s' => exact hok a s' hrun
  | error e s' => exact herror e s' hrun

theorem returns_of_extends {R : σ → σ → Prop} {I : σ → Prop} (h : Extends R m)
    (hI : ∀ s s', I s → R s s' → I s')
    : Returns I m (fun _ => I) := by
  intro s hs
  exact ⟨(spec_of_extends h hI s hs).1, fun _ _ _ => trivial⟩

end Prog
