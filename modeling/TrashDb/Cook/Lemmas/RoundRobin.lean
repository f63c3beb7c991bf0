import Mathlib.Data.List.Rotate
import TrashDb.Cook.Impl

/-!
This module contains round robin as the scheduler is meant to do it, and when the scheduler does it.
The function `list_rotate` decrements the counter `len` of the list although the list keeps all of its
items. The loop of the scheduler ends half way between the counter and 0, and the next call starts with
what is left of the counter.
-/

open Pool

namespace Cook

variable {σ G W : Type}

/--
The groups are asked in their order until one of them accepts the work.
-/
def offers (api : PoolApi σ G W) (work : W) : List (CGrps G) → σ → List (CGrps G × Rc) × σ
  | [], s => ([], s)
  | cg :: cgs, s =>
    match api.doWork s cg.tg work with
    | (.groupFull, s) => ((cg, .groupFull) :: (offers api work cgs s).1, (offers api work cgs s).2)
    | (rc, s) => ([(cg, rc)], s)

/--
The groups are asked in cyclic order, `rdrs.items` starts with the one after the last that was used.
The call gives up if all of them have refused the work.
-/
structure Fair (api : PoolApi σ G W) (rdrs : LL (CGrps G)) (s : σ) (work : W) (call : Call σ G)
    : Prop where
  offers : call.offers = (offers api work rdrs.items s).1
  tried : call.offers ≠ []
  order : call.rdrs.items = rdrs.items.rotate call.offers.length

/--
All the calls of `scheduler`, one for each work, return and satisfy the predicate.
-/
def EachCall (P : LL (CGrps G) → σ → W → Call σ G → Prop) (api : PoolApi σ G W)
    : LL (CGrps G) → σ → List W → Prop
  | _, _, [] => True
  | rdrs, s, work :: works =>
    ∃ call, scheduler api rdrs s work = some call ∧ P rdrs s work call ∧
      EachCall P api call.rdrs call.pool works

def RoundRobin (api : PoolApi σ G W) : LL (CGrps G) → σ → List W → Prop :=
  EachCall (fun rdrs s work call => Fair api rdrs s work call ∧ call.rdrs.len = rdrs.len) api

/--
No call needs more turns of the loop than the counter allows.
-/
def InTime (api : PoolApi σ G W) : Nat → List (CGrps G) → σ → List W → Prop
  | _, _, _, [] => True
  | len, cgs, s, work :: works =>
    let asked := (offers api work cgs s).1.length
    2 * asked ≤ len + 1 ∧
      InTime api (len - asked) (cgs.rotate asked) (offers api work cgs s).2 works

instance decidableInTime (api : PoolApi σ G W)
    : (len : Nat) → (cgs : List (CGrps G)) → (s : σ) → (works : List W) →
        Decidable (InTime api len cgs s works)
  | _, _, _, [] => isTrue trivial
  | _, _, _, _ :: works => @instDecidableAnd _ _ _ (decidableInTime api _ _ _ works)

/--
The groups either accept a work or are full.
-/
def NoError (api : PoolApi σ G W) (cgs : List (CGrps G)) : Prop :=
  ∀ cg ∈ cgs, ∀ s work, (api.doWork s cg.tg work).1 ≠ .poolError

section

variable {api : PoolApi σ G W} {rdrs : LL (CGrps G)} {s : σ} {work : W} {cgs : List (CGrps G)}

theorem offers_take (n : Nat)
    : (offers api work (cgs.take n) s).1 = (offers api work cgs s).1.take n := by
  induction cgs generalizing n s with
  | nil => simp [offers]
  | cons cg cgs ih =>
    cases n with
    | zero => simp [offers]
    | succ n =>
      simp only [List.take_succ_cons, offers]
      split
      . simp [ih]
      . simp

theorem offers_take_of_le {n : Nat} (h : (offers api work cgs s).1.length ≤ n)
    : offers api work (cgs.take n) s = offers api work cgs s := by
  induction cgs generalizing n s with
  | nil => simp
  | cons cg cgs ih =>
    cases n with
    | zero =>
      simp only [offers] at h
      split at h <;> simp at h
    | succ n =>
      simp only [List.take_succ_cons, offers] at h ⊢
      split
      . next hfull =>
        simp only [hfull, List.length_cons, Nat.add_le_add_iff_right] at h
        rw [ih h]
      . rfl

theorem offers_ne_nil (h : cgs ≠ []) : (offers api work cgs s).1 ≠ [] := by
  cases cgs with
  | nil => exact absurd rfl h
  | cons cg cgs =>
    simp only [offers]
    split <;> simp

/--
The loop is at index `i`. A turn increments `i` and decrements `len`, so there are half as many turns
as the difference of the two.
-/
theorem go_eq (rdrs : LL (CGrps G)) (s : σ) (i : Nat) (hapi : NoError api rdrs.items)
    (h : rdrs.len ≤ rdrs.items.length)
    : scheduler.go api work rdrs s i =
        let asked := offers api work (rdrs.items.take ((rdrs.len - i + 1) / 2)) s
        some ⟨asked.1, ⟨rdrs.items.rotate asked.1.length, rdrs.len - asked.1.length⟩, asked.2⟩ := by
  unfold scheduler.go
  split
  . next hi =>
    obtain ⟨cg, cgs, hitems⟩ := List.exists_cons_of_length_pos (l := rdrs.items) (by omega)
    have hrotated := LL.listRotate_of_cons hitems (by omega)
    rw [hitems, List.length_cons] at h
    have hturns : (rdrs.len - i + 1) / 2 = (rdrs.len - 1 - (i + 1) + 1) / 2 + 1 := by omega
    rw [hturns, hitems, List.take_succ_cons, offers]
    split
    . next hrotate =>
      rw [hrotated] at hrotate
      cases hrotate
    . next hrotate =>
      rw [hrotated] at hrotate
      cases hrotate
    . next hrotate =>
      rw [hrotated] at hrotate
      cases hrotate
      have hle : rdrs.len - 1 ≤ (cgs ++ [cg]).length := by
        rw [List.length_append]
        omega
      have hapi' : NoError api (cgs ++ [cg]) := by
        intro cg' hcg'
        apply hapi cg'
        rw [hitems, List.mem_cons]
        rw [List.mem_append, List.mem_singleton] at hcg'
        exact hcg'.symm
      split
      . next herror =>
        have := hapi cg (by simp [hitems]) s work
        simp [herror] at this
      . next s' hfull =>
        simp only [hfull]
        rw [go_eq ⟨cgs ++ [cg], rdrs.len - 1⟩ s' (i + 1) hapi' hle]
        dsimp only
        rw [List.take_append_of_le_length (by omega)]
        simp only [List.length_cons, List.rotate_cons_succ, Nat.sub_sub, Nat.add_comm 1]
      . next hsuccess => simp [hsuccess]
  . next hi =>
    have hturns : (rdrs.len - i + 1) / 2 = 0 := by omega
    simp [hturns, offers]
termination_by rdrs.len - i

theorem scheduler_eq (hapi : NoError api rdrs.items) (h : rdrs.len ≤ rdrs.items.length)
    : scheduler api rdrs s work =
        let asked := offers api work (rdrs.items.take ((rdrs.len + 1) / 2)) s
        some ⟨asked.1, ⟨rdrs.items.rotate asked.1.length, rdrs.len - asked.1.length⟩, asked.2⟩ := by
  apply go_eq rdrs s 0 hapi h

theorem fair_iff {call : Call σ G} (hapi : NoError api rdrs.items) (h : rdrs.len ≤ rdrs.items.length)
    (hne : rdrs.items ≠ []) (hcall : scheduler api rdrs s work = some call)
    : Fair api rdrs s work call ↔
        2 * (offers api work rdrs.items s).1.length ≤ rdrs.len + 1 := by
  rw [scheduler_eq hapi h] at hcall
  cases hcall
  constructor
  . intro hfair
    have hlength := congrArg List.length hfair.offers
    rw [offers_take, List.length_take] at hlength
    omega
  . intro hle
    have hturns : (offers api work rdrs.items s).1.length ≤ (rdrs.len + 1) / 2 := by omega
    rw [offers_take_of_le hturns]
    exact ⟨rfl, offers_ne_nil hne, rfl⟩

theorem EachCall.imp {P Q : LL (CGrps G) → σ → W → Call σ G → Prop} {works : List W}
    (h : EachCall P api rdrs s works) (himp : ∀ rdrs s work call, P rdrs s work call → Q rdrs s work call)
    : EachCall Q api rdrs s works := by
  induction works generalizing rdrs s with
  | nil => trivial
  | cons work works ih =>
    obtain ⟨call, hcall, hP, hworks⟩ := h
    exact ⟨call, hcall, himp _ _ _ _ hP, ih hworks⟩

theorem eachCall_fair_iff {works : List W} (hapi : NoError api rdrs.items) (h : rdrs.len ≤ rdrs.items.length)
    (hne : rdrs.items ≠ [])
    : EachCall (Fair api) api rdrs s works ↔ InTime api rdrs.len rdrs.items s works := by
  induction works generalizing rdrs s with
  | nil => rfl
  | cons work works ih =>
    have hcall := @scheduler_eq _ _ _ _ _ s work hapi h
    have hfair := fair_iff hapi h hne hcall
    simp only [EachCall, InTime, hcall, Option.some.injEq, exists_eq_left', hfair]
    refine and_congr_right ?_
    intro hle
    rw [offers_take_of_le (by omega)]
    apply ih
    . intro cg hcg
      apply hapi cg
      simpa using hcg
    . simp only [List.length_rotate]
      omega
    . simpa using hne

theorem roundRobin_iff_nil {works : List W} (hapi : NoError api rdrs.items) (h : rdrs.len ≤ rdrs.items.length)
    (hlen : rdrs.len ≠ 0)
    : RoundRobin api rdrs s works ↔ works = [] := by
  cases works with
  | nil => simp [RoundRobin, EachCall]
  | cons work works =>
    simp only [reduceCtorEq, iff_false]
    rintro ⟨call, hcall, ⟨hfair, hkept⟩, _⟩
    rw [scheduler_eq hapi h] at hcall
    cases hcall
    have hpos := List.length_pos_iff.mpr hfair.tried
    simp only at hpos hkept
    omega

theorem go_rdrs (s : σ) (groups : Groups G) (n : Nat) (h : groups.rdrs.Coherent)
    : (initThreadGroups.go api s groups n).1.rdrs.Coherent ∧
        (initThreadGroups.go api s groups n).1.rdrs.len = groups.rdrs.len + n := by
  induction n generalizing s groups with
  | zero => exact ⟨h, rfl⟩
  | succ n ih =>
    unfold initThreadGroups.go
    have hgroups := ih (api.addGroup s 2 4 groupDynamic).2
      { groups with rdrs := groups.rdrs.listAppend ⟨(api.addGroup s 2 4 groupDynamic).1⟩ }
      (h.listAppend _)
    refine ⟨hgroups.1, ?_⟩
    rw [hgroups.2, LL.listAppend_len]
    omega

theorem initThreadGroups_rdrs (s : σ)
    : (initThreadGroups api s).1.rdrs.Coherent ∧ (initThreadGroups api s).1.rdrs.len = 3 := by
  apply go_rdrs _ _ 3 LL.coherent_initList

end

theorem roundRobin_iff {σ G W : Type} (api : PoolApi σ G W) (s₀ s : σ) (works : List W)
    (hapi : NoError api (initThreadGroups api s₀).1.rdrs.items)
    : (RoundRobin api (initThreadGroups api s₀).1.rdrs s works ↔ works = []) ∧
        (EachCall (Fair api) api (initThreadGroups api s₀).1.rdrs s works ↔
          InTime api 3 (initThreadGroups api s₀).1.rdrs.items s works) := by
  obtain ⟨hcoherent, hlen⟩ := @initThreadGroups_rdrs _ _ _ api s₀
  have hle := Nat.le_of_eq hcoherent
  constructor
  . apply roundRobin_iff_nil hapi hle (by omega)
  . rw [← hlen]
    apply eachCall_fair_iff hapi hle
    rw [← List.length_pos_iff]
    omega

def countingPool (full : List Nat) : PoolApi Nat Nat Nat where
  addGroup s _ _ _ := (some s, s + 1)
  doWork s tg _ := (if tg ∈ full.map some then .groupFull else .poolSuccess, s)

theorem noError_countingPool (full : List Nat) (cgs : List (CGrps Nat))
    : NoError (countingPool full) cgs := by
  intro cg _ s work
  simp only [countingPool]
  split <;> nofun

theorem roundRobin_second_group
    : (RoundRobin (countingPool [1]) (initThreadGroups (countingPool [1]) 0).1.rdrs 4 [7] ↔ [7] = []) ∧
        EachCall (Fair (countingPool [1])) (countingPool [1])
          (initThreadGroups (countingPool [1]) 0).1.rdrs 4 [7] := by
  have h := roundRobin_iff (countingPool [1]) 0 4 [7] (noError_countingPool _ _)
  exact ⟨h.1, h.2.mpr (by decide)⟩

/--
Every work is accepted by the first group that is asked, but the fourth call asks none.
-/
theorem not_roundRobin_four_works
    : ¬ ∀ (api : PoolApi Nat Nat Nat) (s₀ s : Nat) (works : List Nat),
        NoError api (initThreadGroups api s₀).1.rdrs.items →
        RoundRobin api (initThreadGroups api s₀).1.rdrs s works := by
  intro h
  have hapi := noError_countingPool [] (initThreadGroups (countingPool []) 0).1.rdrs.items
  have hfair := (h (countingPool []) 0 4 [5, 6, 7, 8] hapi).imp fun _ _ _ _ => And.left
  rw [eachCall_fair_iff hapi (by decide) (by decide)] at hfair
  exact absurd hfair (by decide)

end Cook
