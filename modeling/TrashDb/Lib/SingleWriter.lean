import TrashDb.Lib.Lts

/-!
This module contains a store with one writer at a time: a transaction works on a draft of the data and replaces
the data by the draft when it is committed. The data are always those that the committed transactions make one
after the other, each of them as a whole.
-/

namespace SingleWriter

variable {δ : Type u} {ω : Type v} {apply : δ → ω → δ}

structure Store (δ : Type u) where
  data : δ
  draft : Option δ
  deriving DecidableEq

inductive Op (ω : Type v) where
  | begin
  | write (w : ω)
  | commit
  deriving DecidableEq

def step (apply : δ → ω → δ) : Store δ → Op ω → Option (Store δ)
  | ⟨data, none⟩, .begin => some ⟨data, some data⟩
  | ⟨data, some draft⟩, .write w => some ⟨data, some (apply draft w)⟩
  | ⟨_, some draft⟩, .commit => some ⟨draft, none⟩
  | _, _ => none

/--
The writes of the committed transactions, and of the one that is not committed yet.
-/
structure History (ω : Type v) where
  committed : List (List ω)
  pending : Option (List ω)
  deriving DecidableEq

namespace History

def add : History ω → Op ω → History ω
  | ⟨committed, none⟩, .begin => ⟨committed, some []⟩
  | ⟨committed, some ws⟩, .write w => ⟨committed, some (ws ++ [w])⟩
  | ⟨committed, some ws⟩, .commit => ⟨committed ++ [ws], none⟩
  | h, _ => h

def ofOps (ops : List (Op ω)) : History ω := ops.foldl add ⟨[], none⟩

def data (apply : δ → ω → δ) (h : History ω) (data : δ) : δ := h.committed.foldl (fun data ws => ws.foldl apply data) data

def store (apply : δ → ω → δ) (h : History ω) (data : δ) : Store δ where
  data := h.data apply data
  draft := h.pending.map fun ws => ws.foldl apply (h.data apply data)

theorem step_store {h : History ω} {op : Op ω} {data : δ} {s : Store δ} (hstep : step apply (h.store apply data) op = some s)
    : s = (h.add op).store apply data := by
  obtain ⟨committed, pending⟩ := h
  cases op with
  | begin =>
    cases pending with
    | none =>
      cases hstep
      rfl
    | some ws => cases hstep
  | write w =>
    cases pending with
    | none => cases hstep
    | some ws =>
      cases hstep
      simp [add, store, History.data]
  | commit =>
    cases pending with
    | none => cases hstep
    | some ws =>
      cases hstep
      simp [add, store, History.data]

theorem run_store {h : History ω} {ops : List (Op ω)} {data : δ} {s : Store δ}
    (hrun : Lts.run (step apply) (h.store apply data) ops = some s)
    : s = (ops.foldl add h).store apply data := by
  induction ops generalizing h with
  | nil =>
    cases hrun
    rfl
  | cons op ops ih =>
    obtain ⟨t, hstep, hrest⟩ := Option.bind_eq_some_iff.mp hrun
    rw [step_store hstep] at hrest
    exact ih hrest

end History

theorem history_of_run {ops : List (Op ω)} {data : δ} {s : Store δ} (hrun : Lts.run (step apply) ⟨data, none⟩ ops = some s)
    : s = (History.ofOps ops).store apply data :=
  History.run_store (h := ⟨[], none⟩) hrun

theorem run_writes (data draft : δ) (ws : List ω)
    : Lts.run (step apply) ⟨data, some draft⟩ (ws.map .write) = some ⟨data, some (ws.foldl apply draft)⟩ := by
  induction ws generalizing draft with
  | nil => rfl
  | cons w ws ih => exact ih (apply draft w)

theorem step_begin {s s' : Store δ} (hstep : step apply s .begin = some s') : s' = ⟨s.data, some s.data⟩ := by
  obtain ⟨data, draft⟩ := s
  cases draft with
  | none =>
    cases hstep
    rfl
  | some draft => cases hstep

/--
What holds of the data, and of the draft of them.
-/
def Store.All (p : δ → Prop) (s : Store δ) : Prop := p s.data ∧ ∀ draft ∈ s.draft, p draft

namespace Store.All

variable {p : δ → Prop} {s s' : Store δ}

theorem begin (h : s.All p) (hstep : step apply s .begin = some s') : s'.All p := by
  rw [step_begin hstep]
  refine ⟨h.1, ?_⟩
  rintro _ ⟨⟩
  exact h.1

theorem commit (h : s.All p) (hstep : step apply s .commit = some s') : s'.All p := by
  obtain ⟨data, draft⟩ := s
  cases draft with
  | none => cases hstep
  | some draft =>
    cases hstep
    exact ⟨h.2 draft rfl, nofun⟩

theorem writes {ws : List ω} (h : s.All p) (hrun : Lts.run (step apply) s (ws.map .write) = some s')
    (hws : ∀ draft ∈ s.draft, p draft → p (ws.foldl apply draft))
    : s'.All p := by
  obtain ⟨data, draft⟩ := s
  cases draft with
  | none =>
    cases ws with
    | nil =>
      cases hrun
      exact h
    | cons w ws => cases hrun
  | some draft =>
    rw [run_writes] at hrun
    cases hrun
    refine ⟨h.1, ?_⟩
    rintro _ ⟨⟩
    exact hws draft rfl (h.2 draft rfl)

end Store.All

end SingleWriter
