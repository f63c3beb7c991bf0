import TrashDb.Il.Lemmas.Refine

/-!
This module contains the purpose of the intrusive lists: a family of sequences, one for each address
that is the head of a list, and the set of the nodes that are detached. A heap represents such a state
if each sequence is a ring of the heap with the counter that belongs to it and no node is in two lists.
-/

structure NodeLists (α : Type u) where
  items : α → Option (List α)
  detached : α → Bool

namespace NodeLists

variable {α : Type u} [DecidableEq α]

/--
The storage of `x` is used anew: the list whose head or node it was is given up.
-/
def forget (s : NodeLists α) (x : α) : NodeLists α where
  items l := (s.items l).filter fun xs => x ∉ l :: xs
  detached := Function.update s.detached x false

def set (s : NodeLists α) (l : α) (xs : List α) : NodeLists α :=
  { s with items := Function.update s.items l (some xs) }

def setDetached (s : NodeLists α) (x : α) (detached : Bool) : NodeLists α :=
  { s with detached := Function.update s.detached x detached }

/--
`none` where the operation is applied to something that is not a list or not such a node.
-/
def step (s : NodeLists α) : Heap.Op α → Option (NodeLists α × Option α)
  | .initList l => return ((s.forget l).set l [], none)
  | .initIl x => return ((s.forget x).setDetached x true, none)
  | .listAppend l x => do
    let xs ← s.items l
    if s.detached x then
      return ((s.set l (xs ++ [x])).setDetached x false, none)
    else
      none
  | .listPop l => do
    match ← s.items l with
    | [] => return (s, none)
    | x :: xs => return ((s.set l xs).setDetached x true, some x)
  | .itemRemove l x => do
    let xs ← s.items l
    if x ∈ xs then
      return ((s.set l (xs.erase x)).setDetached x true, some x)
    else
      none

def run (s : NodeLists α) : List (Heap.Op α) → Option (NodeLists α × List (Option α))
  | [] => return (s, [])
  | op :: ops => do
    let (s, answer) ← s.step op
    let (s, answers) ← s.run ops
    return (s, answer :: answers)

end NodeLists

namespace Heap

variable {α : Type u} [DecidableEq α] {h h' : Heap α} {s s' : NodeLists α} {l x : α} {xs ys A : List α}

structure Represents (h : Heap α) (s : NodeLists α) : Prop where
  holds : ∀ l xs, s.items l = some xs → h.Holds l ⟨xs, xs.length⟩
  apart : ∀ l k xs ys, s.items l = some xs → s.items k = some ys → l ≠ k → ∀ y ∈ l :: xs, y ∉ k :: ys
  detached : ∀ x, s.detached x = true → h.Detached x
  free : ∀ x l xs, s.detached x = true → s.items l = some xs → x ∉ l :: xs

omit [DecidableEq α] in
theorem forEach_of_chain [DecidableEq α]
    (hchain : (x :: (xs ++ [l])).IsChain (LinkedRing.Linked h.next h.prev)) (hl : l ∉ xs) {fuel : Nat}
    (hfuel : xs.length < fuel)
    : h.forEach l fuel (h.next x) = some xs := by
  induction xs generalizing x fuel with
  | nil =>
    obtain ⟨n, rfl⟩ : ∃ n, fuel = n + 1 := ⟨fuel - 1, by simp at hfuel; omega⟩
    rw [(List.isChain_pair.mp hchain).1]
    simp [forEach]
  | cons y ys ih =>
    obtain ⟨n, rfl⟩ : ∃ n, fuel = n + 1 := ⟨fuel - 1, by simp at hfuel; omega⟩
    obtain ⟨hxy, hys⟩ := List.isChain_cons_cons.mp hchain
    simp only [List.mem_cons, not_or] at hl
    rw [hxy.1]
    simp [forEach, Ne.symm hl.1, ih hys hl.2 (by simpa using hfuel)]

theorem Holds.forEach {list : LL α} (hl : h.Holds l list) {fuel : Nat} (hfuel : list.items.length < fuel)
    : h.forEach l fuel (h.next l) = some list.items :=
  forEach_of_chain hl.ring.chain (List.nodup_cons.mp hl.ring.nodup).1 hfuel

namespace Represents

theorem forget (hs : h.Represents s) (x : α) (hagree : AgreeOff [x] h h') : h'.Represents (s.forget x) := by
  have hitems : ∀ l xs, (s.forget x).items l = some xs → s.items l = some xs ∧ x ∉ l :: xs := by
    intro l xs hl
    simpa [NodeLists.forget, Option.filter_eq_some_iff] using hl
  have hfree : ∀ y, (s.forget x).detached y = true → s.detached y = true ∧ y ≠ x := by
    intro y hy
    by_cases hyx : y = x
    . simp [NodeLists.forget, hyx] at hy
    . exact ⟨by simpa [NodeLists.forget, hyx] using hy, hyx⟩
  refine ⟨?_, ?_, ?_, ?_⟩
  . intro l xs hl
    obtain ⟨hl, hx⟩ := hitems l xs hl
    refine (hs.holds l xs hl).frame hagree fun y hy hyx => hx ?_
    exact List.mem_singleton.mp hyx ▸ hy
  . intro l k xs ys hl hk
    exact hs.apart l k xs ys (hitems l xs hl).1 (hitems k ys hk).1
  . intro y hy
    obtain ⟨hy, hyx⟩ := hfree y hy
    exact (hs.detached y hy).frame hagree (by simpa using hyx)
  . intro y l xs hy hl
    exact hs.free y l xs (hfree y hy).1 (hitems l xs hl).1

theorem set {W : α → Prop} {d : α → Bool} (hs : h.Represents s)
    (hW : ∀ k zs, k ≠ l → s.items k = some zs → ∀ y, W y → y ∉ k :: zs) (hagree : AgreeOff A h h')
    (hA : ∀ y ∈ A, W y) (hl' : h'.Holds l ⟨ys, ys.length⟩) (hys : ∀ y ∈ l :: ys, W y)
    (hd : ∀ y, d y = true → h'.Detached y ∧ y ∉ l :: ys ∧ (W y ∨ s.detached y = true))
    : h'.Represents ⟨(s.set l ys).items, d⟩ := by
  have hitems : ∀ k zs, (s.set l ys).items k = some zs
      → (k = l ∧ zs = ys) ∨ (k ≠ l ∧ s.items k = some zs) := by
    intro k zs hk
    by_cases hkl : k = l
    . subst hkl
      exact .inl ⟨rfl, by simpa [NodeLists.set, eq_comm] using hk⟩
    . exact .inr ⟨hkl, by simpa [NodeLists.set, hkl] using hk⟩
  refine ⟨?_, ?_, fun y hy => (hd y hy).1, ?_⟩
  . intro k zs hk
    rcases hitems k zs hk with ⟨rfl, rfl⟩ | ⟨hkl, hk⟩
    . exact hl'
    . exact (hs.holds k zs hk).frame hagree fun y hy hyA => hW k zs hkl hk y (hA y hyA) hy
  . intro k₁ k₂ zs₁ zs₂ hk₁ hk₂ hne y hy₁ hy₂
    rcases hitems k₁ zs₁ hk₁ with ⟨rfl, rfl⟩ | ⟨hkl₁, hk₁'⟩ <;>
      rcases hitems k₂ zs₂ hk₂ with ⟨rfl, rfl⟩ | ⟨hkl₂, hk₂'⟩
    . exact hne rfl
    . exact hW k₂ zs₂ hkl₂ hk₂' y (hys y hy₁) hy₂
    . exact hW k₁ zs₁ hkl₁ hk₁' y (hys y hy₂) hy₁
    . exact hs.apart k₁ k₂ zs₁ zs₂ hk₁' hk₂' hne y hy₁ hy₂
  . intro y k zs hy hk
    rcases hitems k zs hk with ⟨rfl, rfl⟩ | ⟨hkl, hk⟩
    . exact (hd y hy).2.1
    . rcases (hd y hy).2.2 with hy | hy
      . exact hW k zs hkl hk y hy
      . exact hs.free y k zs hy hk

omit [DecidableEq α] in
theorem own (hs : h.Represents s) (hl : s.items l = some xs)
    : ∀ k zs, k ≠ l → s.items k = some zs → ∀ y, y ∈ l :: xs ∨ s.detached y = true → y ∉ k :: zs := by
  rintro k zs hkl hk y (hy | hy)
  . exact hs.apart l k xs zs hl hk (Ne.symm hkl) y hy
  . exact hs.free y k zs hy hk

theorem initIl (hs : h.Represents s) (x : α)
    : (h.initIl x).Represents ((s.forget x).setDetached x true) := by
  have hforget := hs.forget x (agreeOff_initIl h x)
  refine ⟨hforget.holds, hforget.apart, ?_, ?_⟩
  . intro y hy
    by_cases hyx : y = x
    . exact hyx ▸ detached_initIl h x
    . exact hforget.detached y (by simpa [NodeLists.setDetached, hyx] using hy)
  . intro y l xs hy hl
    by_cases hyx : y = x
    . subst hyx
      simp only [NodeLists.setDetached, NodeLists.forget, Option.filter_eq_some_iff] at hl
      exact of_decide_eq_true hl.2
    . exact hforget.free y l xs (by simpa [NodeLists.setDetached, hyx] using hy) hl

theorem initList (hs : h.Represents s) (l : α) : (h.initList l).Represents ((s.forget l).set l []) := by
  have hforget := hs.forget l (agreeOff_initList h l)
  refine hforget.set (W := fun y => y = l) ?_ (.refl []) (by simp) (holds_initList h l) (by simp) ?_
  . rintro k zs _ hk y rfl
    simp only [NodeLists.forget, Option.filter_eq_some_iff] at hk
    exact of_decide_eq_true hk.2
  . intro y hy
    refine ⟨hforget.detached y hy, ?_, .inr hy⟩
    rw [List.mem_singleton]
    rintro rfl
    simp [NodeLists.forget] at hy

theorem listAppend (hs : h.Represents s) (hl : s.items l = some xs) (hx : s.detached x = true)
    : ∃ h', h.listAppend l (some x) = some h'
        ∧ h'.Represents ((s.set l (xs ++ [x])).setDetached x false) := by
  have hxl : x ∉ l :: xs := hs.free x l xs hx hl
  obtain ⟨h', heq, hl', hagree⟩ := (hs.holds l xs hl).listAppend hxl
  refine ⟨h', heq, hs.set (hs.own hl) hagree ?_ ?_ ?_ ?_⟩
  . intro y hy
    rcases List.mem_cons.mp hy with rfl | hy
    . exact .inr hx
    . exact .inl hy
  . have : LL.listAppend ⟨xs, xs.length⟩ x = ⟨xs ++ [x], (xs ++ [x]).length⟩ := by
      simp [LL.listAppend, LL.itemAppend]
    rwa [this] at hl'
  . intro y hy
    rw [← List.cons_append, List.mem_append, List.mem_singleton] at hy
    rcases hy with hy | rfl
    . exact .inl hy
    . exact .inr hx
  . intro y hy
    by_cases hyx : y = x
    . simp [hyx] at hy
    . replace hy : s.detached y = true := by simpa [NodeLists.setDetached, NodeLists.set, hyx] using hy
      have hyl := hs.free y l xs hy hl
      refine ⟨(hs.detached y hy).frame hagree ?_, ?_, .inr hy⟩
      . exact fun hmem => (List.mem_cons.mp hmem).elim hyx hyl
      . rw [← List.cons_append, List.mem_append, List.mem_singleton]
        exact fun hmem => hmem.elim hyl hyx

theorem takeOut (hs : h.Represents s) (hl : s.items l = some xs) (hx : x ∈ xs)
    (hl' : h'.Holds l ⟨xs.erase x, (xs.erase x).length⟩) (hxd : h'.Detached x)
    (hagree : AgreeOff (l :: xs) h h')
    : h'.Represents ((s.set l (xs.erase x)).setDetached x true) := by
  have hnodup := (hs.holds l xs hl).ring.nodup
  have hsub : ∀ y ∈ l :: xs.erase x, y ∈ l :: xs :=
    fun y hy => List.cons_subset_cons l (List.erase_subset) hy
  refine hs.set (hs.own hl) hagree (fun y hy => .inl hy) hl' (fun y hy => .inl (hsub y hy)) ?_
  intro y hy
  by_cases hyx : y = x
  . subst hyx
    refine ⟨hxd, ?_, .inl (.inl (List.mem_cons_of_mem l hx))⟩
    rw [List.mem_cons, not_or]
    refine ⟨?_, (List.nodup_cons.mp hnodup).2.not_mem_erase⟩
    rintro rfl
    exact (List.nodup_cons.mp hnodup).1 hx
  . replace hy : s.detached y = true := by simpa [NodeLists.setDetached, NodeLists.set, hyx] using hy
    have hyl := hs.free y l xs hy hl
    exact ⟨(hs.detached y hy).frame hagree hyl, fun hmem => hyl (hsub y hmem), .inr hy⟩

theorem itemRemove (hs : h.Represents s) (hl : s.items l = some xs) (hx : x ∈ xs)
    : ∃ h', h.step (.itemRemove l x) = some (h', some x)
        ∧ h'.Represents ((s.set l (xs.erase x)).setDetached x true) := by
  obtain ⟨h', heq, hl', hxd, hagree⟩ := (hs.holds l xs hl).itemRemove hx
  have hlen : (h'.setLen l (h'.len l - 1)).Holds l ⟨xs.erase x, (xs.erase x).length⟩ := by
    rw [hl'.len, List.length_erase_of_mem hx]
    exact hl'.setLen (xs.length - 1)
  refine ⟨h'.setLen l (h'.len l - 1), by simp [Heap.step, heq], ?_⟩
  refine hs.takeOut hl hx hlen ⟨hxd.next, hxd.prev⟩ ?_
  exact hagree.setLen List.mem_cons_self _

theorem listPop_nil (hs : h.Represents s) (hl : s.items l = some []) : h.listPop l = some (h, none) := by
  simp [Heap.listPop, Heap.emptyList, (hs.holds l [] hl).len]

theorem listPop_cons (hs : h.Represents s) (hl : s.items l = some (x :: xs))
    : ∃ h', h.listPop l = some (h', some x) ∧ h'.Represents ((s.set l xs).setDetached x true) := by
  have hpop : (⟨x :: xs, (x :: xs).length⟩ : LL α).listPop = (some (.item x), ⟨xs, xs.length⟩) := by
    simp [LL.listPop, LL.emptyList]
  obtain ⟨h', heq, hl', hxd, hagree⟩ := (hs.holds l _ hl).listPop
  rw [hpop] at heq hl' hxd
  have herase : (x :: xs).erase x = xs := List.erase_cons_head x xs
  rw [← herase] at hl' ⊢
  exact ⟨h', heq, hs.takeOut hl List.mem_cons_self hl' (hxd x rfl) hagree⟩

theorem step {op : Op α} {answer : Option α} (hs : h.Represents s) (hop : s.step op = some (s', answer))
    : ∃ h', h.step op = some (h', answer) ∧ h'.Represents s' := by
  cases op with
  | initList l =>
    cases hop
    exact ⟨_, rfl, hs.initList l⟩
  | initIl x =>
    cases hop
    exact ⟨_, rfl, hs.initIl x⟩
  | listAppend l x =>
    obtain ⟨xs, hl, hop⟩ := Option.bind_eq_some_iff.mp hop
    split at hop
    . next hx =>
      cases hop
      obtain ⟨h', heq, hs'⟩ := hs.listAppend hl hx
      exact ⟨h', by simp [Heap.step, heq], hs'⟩
    . cases hop
  | listPop l =>
    obtain ⟨xs, hl, hop⟩ := Option.bind_eq_some_iff.mp hop
    cases xs with
    | nil =>
      cases hop
      exact ⟨h, hs.listPop_nil hl, hs⟩
    | cons x xs =>
      cases hop
      exact hs.listPop_cons hl
  | itemRemove l x =>
    obtain ⟨xs, hl, hop⟩ := Option.bind_eq_some_iff.mp hop
    split at hop
    . next hx =>
      cases hop
      exact hs.itemRemove hl hx
    . cases hop

theorem run {ops : List (Op α)} {answers : List (Option α)} (hs : h.Represents s)
    (hrun : s.run ops = some (s', answers))
    : ∃ h', h.run ops = some (h', answers) ∧ h'.Represents s' := by
  induction ops generalizing h s answers with
  | nil =>
    cases hrun
    exact ⟨h, rfl, hs⟩
  | cons op ops ih =>
    obtain ⟨⟨t, answer⟩, hop, hrun⟩ := Option.bind_eq_some_iff.mp hrun
    obtain ⟨⟨u, rest⟩, hrest, heq⟩ := Option.bind_eq_some_iff.mp hrun
    cases heq
    obtain ⟨h₁, hstep, hs₁⟩ := hs.step hop
    obtain ⟨h', hrun', hs'⟩ := ih hs₁ hrest
    exact ⟨h', by simp [Heap.run, hstep, hrun'], hs'⟩

end Represents

theorem run_refines_sequences {ops : List (Op α)} {answers : List (Option α)} (hs : h.Represents s)
    (hrun : s.run ops = some (s', answers))
    : ∃ h', h.run ops = some (h', answers)
        ∧ (∀ l xs, s'.items l = some xs →
            LinkedRing h'.next h'.prev l xs
            ∧ (∀ x ∈ l :: xs, ∀ y ∈ l :: xs, h'.next x = some y ↔ h'.prev y = some x)
            ∧ h'.len l = xs.length
            ∧ ∀ fuel, xs.length < fuel → h'.forEach l fuel (h'.next l) = some xs)
        ∧ (∀ l k xs ys, s'.items l = some xs → s'.items k = some ys → l ≠ k → (l :: xs).Disjoint (k :: ys))
        ∧ ∀ x, s'.detached x = true →
            h'.next x = some x ∧ h'.prev x = some x ∧ ∀ l xs, s'.items l = some xs → x ∉ l :: xs := by
  obtain ⟨h', hrun', hs'⟩ := hs.run hrun
  refine ⟨h', hrun', ?_, ?_, ?_⟩
  . intro l xs hl
    have hholds := hs'.holds l xs hl
    refine ⟨hholds.ring, ?_, hholds.len, fun fuel hfuel => hholds.forEach hfuel⟩
    intro x hx y hy
    exact hholds.ring.next_eq_iff hx hy
  . intro l k xs ys hl hk hlk y hy hy'
    exact hs'.apart l k xs ys hl hk hlk y hy hy'
  . intro x hx
    exact ⟨(hs'.detached x hx).next, (hs'.detached x hx).prev, fun l xs hl => hs'.free x l xs hx hl⟩

theorem run_refines_sequences_two_nodes
    : ∃ h', (⟨fun _ => none, fun _ => none, fun _ => 0⟩ : Heap Nat).run
          [.initList 0, .initIl 1, .initIl 2, .listAppend 0 1, .listAppend 0 2, .itemRemove 0 1, .listPop 0,
            .listPop 0]
        = some (h', [none, none, none, none, none, some 1, some 2, none]) := by
  have hempty : (⟨fun _ => none, fun _ => none, fun _ => 0⟩ : Heap Nat).Represents
      ⟨fun _ => none, fun _ => false⟩ :=
    ⟨by simp, by simp, by simp, by simp⟩
  have hlists : (⟨fun _ => none, fun _ => false⟩ : NodeLists Nat).run
      [.initList 0, .initIl 1, .initIl 2, .listAppend 0 1, .listAppend 0 2, .itemRemove 0 1, .listPop 0,
        .listPop 0]
      = some (_, [none, none, none, none, none, some 1, some 2, none]) := rfl
  obtain ⟨h', hrun, _⟩ := run_refines_sequences hempty hlists
  exact ⟨h', hrun⟩

end Heap
