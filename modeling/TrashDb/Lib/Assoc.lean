import Mathlib.Data.List.Basic

/-!
This module contains finite maps as lists of keys and values in the order of the keys. `List.lookup` is
the value of a key.
-/

namespace Assoc

variable {α : Type u} {β : Type v} [DecidableEq α] [LT α] [DecidableLT α]

def put (a : α) (v : β) : List (α × β) → List (α × β)
  | [] => [(a, v)]
  | (b, w) :: m =>
    if a = b then
      (a, v) :: m
    else if a < b then
      (a, v) :: (b, w) :: m
    else
      (b, w) :: put a v m

/--
The entries of a key are those with the given values, in their order. The map has other keys with several values
as well then.
-/
def putAll (a : α) (vs : List β) : List (α × β) → List (α × β)
  | [] => vs.map fun v => (a, v)
  | (b, w) :: m =>
    if a = b then
      (vs.map fun v => (a, v)) ++ m.dropWhile fun r => r.1 = a
    else if a < b then
      (vs.map fun v => (a, v)) ++ (b, w) :: m
    else
      (b, w) :: putAll a vs m

theorem lookup_put_self [BEq α] [LawfulBEq α] (a : α) (v : β) (m : List (α × β)) : (put a v m).lookup a = some v := by
  induction m with
  | nil => simp [put]
  | cons p m ih =>
    obtain ⟨b, w⟩ := p
    unfold put
    split
    . simp
    . next hne =>
      split
      . simp
      . rw [List.lookup_cons, beq_eq_false_iff_ne.mpr hne]
        exact ih

theorem lookup_put_of_ne [BEq α] [LawfulBEq α] {a c : α} (hc : c ≠ a) (v : β) (m : List (α × β))
    : (put a v m).lookup c = m.lookup c := by
  have hca : (c == a) = false := beq_eq_false_iff_ne.mpr hc
  induction m with
  | nil => simp [put, List.lookup_cons, hca]
  | cons p m ih =>
    obtain ⟨b, w⟩ := p
    unfold put
    split
    . next heq =>
      subst heq
      simp [List.lookup_cons, hca]
    . split
      . simp [List.lookup_cons, hca]
      . rw [List.lookup_cons, List.lookup_cons, ih]

section

variable [BEq α] [LawfulBEq α] {a c : α}

omit [DecidableEq α] [LT α] [DecidableLT α] in
theorem lookup_map_append (hc : c ≠ a) (vs : List β) (m : List (α × β))
    : ((vs.map fun v => (a, v)) ++ m).lookup c = m.lookup c := by
  induction vs with
  | nil => rfl
  | cons v vs ih => simpa [List.lookup_cons, beq_eq_false_iff_ne.mpr hc] using ih

omit [LT α] [DecidableLT α] in
theorem lookup_dropWhile (hc : c ≠ a) (m : List (α × β)) : (m.dropWhile fun r => r.1 = a).lookup c = m.lookup c := by
  induction m with
  | nil => rfl
  | cons r m ih =>
    obtain ⟨b, w⟩ := r
    rw [List.dropWhile_cons]
    split
    . next heq =>
      have hba : b = a := of_decide_eq_true heq
      have hcb : c ≠ b := hba ▸ hc
      rw [ih, List.lookup_cons, beq_eq_false_iff_ne.mpr hcb]
    . rfl

theorem lookup_putAll_of_ne (hc : c ≠ a) (vs : List β) (m : List (α × β))
    : (putAll a vs m).lookup c = m.lookup c := by
  induction m with
  | nil => simpa [putAll] using lookup_map_append hc vs []
  | cons p m ih =>
    obtain ⟨b, w⟩ := p
    unfold putAll
    split
    . next heq =>
      rw [lookup_map_append hc, lookup_dropWhile hc, List.lookup_cons, beq_eq_false_iff_ne.mpr (heq ▸ hc)]
    . split
      . exact lookup_map_append hc vs _
      . rw [List.lookup_cons, List.lookup_cons, ih]

end

theorem isSome_lookup_put [BEq α] [LawfulBEq α] {a c : α} {v : β} {m : List (α × β)}
    (h : (m.lookup c).isSome = true)
    : ((put a v m).lookup c).isSome = true := by
  by_cases hc : c = a
  . rw [hc, lookup_put_self]
    rfl
  . rw [lookup_put_of_ne hc]
    exact h

section

variable {p q : α × β → Bool} {a : α} (hp : ∀ v, p (a, v) = false) (hq : ∀ v, q (a, v) = false) (v : β)
  (m : List (α × β))

include hq in
theorem takeWhile_put_prefix : (put a v m).takeWhile q <+: m.takeWhile q := by
  induction m with
  | nil => simp [put, hq]
  | cons r m ih =>
    obtain ⟨b, w⟩ := r
    unfold put
    split
    . simp [hq]
    . split
      . simp [hq]
      . simp only [List.takeWhile_cons]
        split
        . exact List.cons_prefix_cons.mpr ⟨rfl, ih⟩
        . exact List.prefix_refl _

include hp hq in
theorem takeWhile_dropWhile_put_prefix
    : ((put a v m).dropWhile p).takeWhile q <+: (m.dropWhile p).takeWhile q := by
  induction m with
  | nil => simp [put, hp, hq]
  | cons r m ih =>
    obtain ⟨b, w⟩ := r
    unfold put
    split
    . simp [hp, hq]
    . split
      . simp [hp, hq]
      . simp only [List.dropWhile_cons]
        split
        . exact ih
        . simp only [List.takeWhile_cons]
          split
          . exact List.cons_prefix_cons.mpr ⟨rfl, takeWhile_put_prefix hq v m⟩
          . exact List.prefix_refl _

end

section

variable {q : α × β → Bool} {a : α}

theorem eq_or_mem_of_mem_put {r : α × β} {v : β} {m : List (α × β)} (h : r ∈ put a v m)
    : r = (a, v) ∨ r ∈ m := by
  induction m with
  | nil => simpa [put] using h
  | cons s m ih =>
    obtain ⟨b, w⟩ := s
    unfold put at h
    split at h
    . exact (List.mem_cons.mp h).imp_right (List.mem_cons_of_mem _)
    . split at h
      . exact List.mem_cons.mp h
      . rcases List.mem_cons.mp h with rfl | h
        . exact .inr (List.mem_cons_self ..)
        . exact (ih h).imp_right (List.mem_cons_of_mem _)

theorem mem_put_self (a : α) (v : β) (m : List (α × β)) : (a, v) ∈ put a v m := by
  induction m with
  | nil => simp [put]
  | cons r m ih =>
    unfold put
    split
    . exact List.mem_cons_self
    . split
      . exact List.mem_cons_self
      . exact List.mem_cons_of_mem _ ih

theorem mem_put_of_ne {r : α × β} {m : List (α × β)} (h : r ∈ m) (hne : r.1 ≠ a) (v : β) : r ∈ put a v m := by
  induction m with
  | nil => cases h
  | cons s m ih =>
    obtain ⟨b, w⟩ := s
    unfold put
    split
    . next heq =>
      rcases List.mem_cons.mp h with rfl | h
      . exact absurd heq.symm hne
      . exact List.mem_cons_of_mem _ h
    . split
      . exact List.mem_cons_of_mem _ h
      . rcases List.mem_cons.mp h with rfl | h
        . exact List.mem_cons_self
        . exact List.mem_cons_of_mem _ (ih h)

open Std in
theorem pairwise_put [LE α] [IsLinearOrder α] [LawfulOrderLT α] {m : List (α × β)}
    (hm : m.Pairwise fun r r' => r.1 < r'.1) (a : α) (v : β)
    : (put a v m).Pairwise fun r r' => r.1 < r'.1 := by
  induction m with
  | nil => simp [put]
  | cons s m ih =>
    obtain ⟨b, w⟩ := s
    obtain ⟨hb, htail⟩ := List.pairwise_cons.mp hm
    unfold put
    split
    . next heq =>
      subst heq
      exact List.pairwise_cons.mpr ⟨hb, htail⟩
    . next hne =>
      split
      . next hlt =>
        refine List.pairwise_cons.mpr ⟨?_, List.pairwise_cons.mpr ⟨hb, htail⟩⟩
        intro r hr
        rcases List.mem_cons.mp hr with rfl | hr
        . exact hlt
        . exact Std.lt_trans hlt (hb r hr)
      . next hnot =>
        refine List.pairwise_cons.mpr ⟨?_, ih htail⟩
        intro r hr
        rcases eq_or_mem_of_mem_put hr with rfl | hr
        . exact Classical.byContradiction fun hba => hne (Std.Trichotomous.trichotomous _ _ hnot hba)
        . exact hb r hr

end

end Assoc
