import Mathlib.Data.List.Basic

/-!
This module contains file systems in which directories are created. A file system is given by what
`mkdir` does and by what is found under a path; `Lawful` is what POSIX says about the two. The rules
are about `mkdirs`, which creates directories one after the other and goes on where one exists.
-/

abbrev Pathname := List UInt8

inductive Errno where
  | eexist
  | enoent
  | enotdir
  | eacces
  | other (errno : Nat)
  deriving DecidableEq, Repr

/--
`mkdir` answers `none` if it has created the directory.
-/
structure FileSystem (σ : Type u) (ν : Type v) where
  mkdir : Pathname → Nat → σ → Option Errno × σ
  lookup : σ → Pathname → Option ν
  Node : σ → ν → Prop

namespace FileSystem

variable {σ : Type u} {ν : Type v} {fs : FileSystem σ ν}

structure Lawful (fs : FileSystem σ ν) : Prop where
  fails : ∀ {p mode s e s'}, fs.mkdir p mode s = (some e, s') → s' = s
  eexist : ∀ {p mode s s'}, fs.mkdir p mode s = (some .eexist, s') → (fs.lookup s p).isSome
  found : ∀ {p mode s n}, fs.lookup s p = some n → fs.mkdir p mode s = (some .eexist, s)
  creates : ∀ {p mode s s'}, fs.mkdir p mode s = (none, s') →
    ∃ n, fs.lookup s' p = some n ∧ ∀ m, fs.Node s' m ↔ fs.Node s m ∨ m = n
  keeps : ∀ {p mode s s' q n}, fs.mkdir p mode s = (none, s') → fs.lookup s q = some n →
    fs.lookup s' q = some n

def Refused (rc : Option Errno) : Prop := rc ≠ none ∧ rc ≠ some .eexist

instance (rc : Option Errno) : Decidable (Refused rc) := by
  unfold Refused
  infer_instance

abbrev Call := Pathname × Option Errno

def mkdirs (fs : FileSystem σ ν) (mode : Nat) : List Pathname → σ → Bool × σ × List Call
  | [], s => (true, s, [])
  | p :: ps, s =>
    let (rc, s) := fs.mkdir p mode s
    if Refused rc then
      (false, s, [(p, rc)])
    else
      let (ok, s, calls) := fs.mkdirs mode ps s
      (ok, s, (p, rc) :: calls)

theorem mkdirs_cons (mode : Nat) (p : Pathname) (ps : List Pathname) (s : σ)
    : fs.mkdirs mode (p :: ps) s =
        if Refused (fs.mkdir p mode s).1 then
          (false, (fs.mkdir p mode s).2, [(p, (fs.mkdir p mode s).1)])
        else
          ((fs.mkdirs mode ps (fs.mkdir p mode s).2).1, (fs.mkdirs mode ps (fs.mkdir p mode s).2).2.1,
            (p, (fs.mkdir p mode s).1) :: (fs.mkdirs mode ps (fs.mkdir p mode s).2).2.2) := rfl

theorem mkdirs_calls (fs : FileSystem σ ν) (mode : Nat) (ps : List Pathname) (s : σ)
    : (fs.mkdirs mode ps s).2.2.map Prod.fst <+: ps ∧
      ((fs.mkdirs mode ps s).1 = true → (fs.mkdirs mode ps s).2.2.map Prod.fst = ps) ∧
      ((fs.mkdirs mode ps s).1 = false ↔ ∃ call ∈ (fs.mkdirs mode ps s).2.2, Refused call.2) := by
  induction ps generalizing s with
  | nil => simp [mkdirs]
  | cons p ps ih =>
    rw [mkdirs_cons]
    split
    . next hrefused => simpa using hrefused
    . next hrefused =>
      obtain ⟨hcalls, hall, hfails⟩ := ih (fs.mkdir p mode s).2
      refine ⟨by simpa using hcalls, fun hok => by simp [hall hok], ?_⟩
      simp only [hfails, List.mem_cons, exists_eq_or_imp, hrefused, false_or]

theorem mkdirs_append {mode : Nat} {ps qs : List Pathname} {s : σ} (h : (fs.mkdirs mode (ps ++ qs) s).1 = true)
    : (fs.mkdirs mode ps s).1 = true ∧ (fs.mkdirs mode qs (fs.mkdirs mode ps s).2.1).1 = true ∧
        (fs.mkdirs mode (ps ++ qs) s).2.1 = (fs.mkdirs mode qs (fs.mkdirs mode ps s).2.1).2.1 := by
  induction ps generalizing s with
  | nil => exact ⟨rfl, h, rfl⟩
  | cons p ps ih =>
    rw [List.cons_append, mkdirs_cons] at h ⊢
    rw [mkdirs_cons]
    split at h
    . cases h
    . next hrefused =>
      simp only [if_neg hrefused]
      exact ih h

namespace Lawful

variable {mode : Nat} {p : Pathname} {ps : List Pathname} {s : σ}

theorem mkdir_spec (h : fs.Lawful) (mode : Nat) (p : Pathname) (s : σ)
    : (fs.mkdir p mode s).2 = s ∧ ((fs.mkdir p mode s).1 = some .eexist → (fs.lookup s p).isSome) ∧
        (fs.mkdir p mode s).1 ≠ none ∨
      fs.lookup s p = none ∧
        (∃ n, fs.lookup (fs.mkdir p mode s).2 p = some n ∧
          ∀ m, fs.Node (fs.mkdir p mode s).2 m ↔ fs.Node s m ∨ m = n) ∧
        ∀ q n, fs.lookup s q = some n → fs.lookup (fs.mkdir p mode s).2 q = some n := by
  rcases hmkdir : fs.mkdir p mode s with ⟨rc, s'⟩
  cases rc with
  | some e =>
    refine .inl ⟨h.fails hmkdir, fun he => ?_, nofun⟩
    cases he
    exact h.eexist hmkdir
  | none =>
    refine .inr ⟨?_, h.creates hmkdir, fun q n => h.keeps hmkdir⟩
    cases hfound : fs.lookup s p with
    | none => rfl
    | some n =>
      rw [h.found hfound] at hmkdir
      cases hmkdir

theorem mkdirs_keeps (h : fs.Lawful) {q : Pathname} {n : ν} (hfound : fs.lookup s q = some n)
    : fs.lookup (fs.mkdirs mode ps s).2.1 q = some n := by
  induction ps generalizing s with
  | nil => exact hfound
  | cons p ps ih =>
    have hnext : fs.lookup (fs.mkdir p mode s).2 q = some n := by
      obtain ⟨hsame, -⟩ | ⟨-, -, hkeeps⟩ := h.mkdir_spec mode p s
      . rw [hsame]
        exact hfound
      . exact hkeeps q n hfound
    rw [mkdirs_cons]
    split
    . exact hnext
    . exact ih hnext

theorem mkdirs_found (h : fs.Lawful) (hok : (fs.mkdirs mode ps s).1 = true)
    : ∀ p ∈ ps, (fs.lookup (fs.mkdirs mode ps s).2.1 p).isSome := by
  induction ps generalizing s with
  | nil => nofun
  | cons p ps ih =>
    rw [mkdirs_cons] at hok ⊢
    split at hok
    . cases hok
    . next hrefused =>
      rw [if_neg hrefused]
      refine List.forall_mem_cons.mpr ⟨?_, ih hok⟩
      have hnext : (fs.lookup (fs.mkdir p mode s).2 p).isSome := by
        obtain ⟨hsame, heexist, hsome⟩ | ⟨-, ⟨n, hn, -⟩, -⟩ := h.mkdir_spec mode p s
        . rw [hsame]
          apply heexist
          by_contra hother
          exact hrefused ⟨hsome, hother⟩
        . rw [hn]
          rfl
      obtain ⟨n, hn⟩ := Option.isSome_iff_exists.mp hnext
      rw [h.mkdirs_keeps hn]
      rfl

theorem mkdir_node (h : fs.Lawful) (mode : Nat) (p : Pathname) (s : σ) (n : ν)
    : (fs.Node s n → fs.Node (fs.mkdir p mode s).2 n) ∧
      (fs.Node (fs.mkdir p mode s).2 n →
        fs.Node s n ∨ fs.lookup s p = none ∧ fs.lookup (fs.mkdir p mode s).2 p = some n) := by
  obtain ⟨hsame, -⟩ | ⟨hnone, ⟨new, hnew, hnode⟩, -⟩ := h.mkdir_spec mode p s
  . rw [hsame]
    exact ⟨fun hn => hn, fun hn => .inl hn⟩
  . constructor
    . intro hn
      exact (hnode n).mpr (.inl hn)
    . intro hn
      cases (hnode n).mp hn with
      | inl hold => exact .inl hold
      | inr hsame => exact .inr ⟨hnone, hsame ▸ hnew⟩

theorem mkdirs_node (h : fs.Lawful) (mode : Nat) (ps : List Pathname) (s : σ) (n : ν)
    : (fs.Node s n → fs.Node (fs.mkdirs mode ps s).2.1 n) ∧
      (fs.Node (fs.mkdirs mode ps s).2.1 n →
        fs.Node s n ∨ ∃ p ∈ ps, fs.lookup s p = none ∧ fs.lookup (fs.mkdirs mode ps s).2.1 p = some n) := by
  induction ps generalizing s with
  | nil => exact ⟨fun hn => hn, fun hn => .inl hn⟩
  | cons p ps ih =>
    obtain ⟨hkept, hnew⟩ := h.mkdir_node mode p s n
    rw [mkdirs_cons]
    split
    . refine ⟨hkept, fun hn => (hnew hn).imp_right fun hp => ?_⟩
      exact ⟨p, List.mem_cons_self .., hp⟩
    . obtain ⟨hkept', hnew'⟩ := ih (fs.mkdir p mode s).2
      refine ⟨fun hn => hkept' (hkept hn), fun hn => ?_⟩
      obtain hn | ⟨q, hq, hnone, hfound⟩ := hnew' hn
      . refine (hnew hn).imp_right fun hp => ?_
        exact ⟨p, List.mem_cons_self .., hp.1, h.mkdirs_keeps hp.2⟩
      . refine .inr ⟨q, List.mem_cons_of_mem p hq, ?_, hfound⟩
        cases hold : fs.lookup s q with
        | none => rfl
        | some m =>
          obtain ⟨hsame, -⟩ | ⟨-, -, hkeeps⟩ := h.mkdir_spec mode p s
          . rw [hsame, hold] at hnone
            cases hnone
          . rw [hkeeps q m hold] at hnone
            cases hnone

theorem mkdirs_again (h : fs.Lawful) (hfound : ∀ p ∈ ps, (fs.lookup s p).isSome)
    : fs.mkdirs mode ps s = (true, s, ps.map fun p => (p, some .eexist)) := by
  induction ps with
  | nil => rfl
  | cons p ps ih =>
    obtain ⟨hp, hps⟩ := List.forall_mem_cons.mp hfound
    obtain ⟨n, hn⟩ := Option.isSome_iff_exists.mp hp
    have hrefused : ¬ Refused (some .eexist) := fun hrefused => hrefused.2 rfl
    rw [mkdirs_cons, h.found hn, if_neg hrefused, ih hps]
    rfl

end Lawful

end FileSystem
