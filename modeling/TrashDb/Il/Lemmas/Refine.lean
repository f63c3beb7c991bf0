import TrashDb.Lib.Ring
import TrashDb.Il.Impl

/-!
This module contains the refinement of the sequences of `LL` by the nodes of a heap: each operation of
`il.h` on a ring does what the operation of the same name does on the sequence and leaves all nodes
alone that are not in the list.
-/

def IL.addr {α : Type u} (list : α) : IL α → α
  | .head => list
  | .item a => a

namespace Heap

variable {α : Type u} [DecidableEq α] {h h' : Heap α} {l k x : α} {list list' : LL α} {A : List α}

structure Holds (h : Heap α) (l : α) (list : LL α) : Prop where
  ring : LinkedRing h.next h.prev l list.items
  len : h.len l = list.len

structure Detached (h : Heap α) (x : α) : Prop where
  next : h.next x = some x
  prev : h.prev x = some x

structure AgreeOff (A : List α) (h h' : Heap α) : Prop where
  next : ∀ y, y ∉ A → h'.next y = h.next y
  prev : ∀ y, y ∉ A → h'.prev y = h.prev y
  len : ∀ y, y ∉ A → h'.len y = h.len y

omit [DecidableEq α] in
theorem Holds.frame (hk : h.Holds k list) (hagree : AgreeOff A h h') (hA : ∀ y ∈ k :: list.items, y ∉ A)
    : h'.Holds k list where
  ring := hk.ring.congr (fun y hy => hagree.next y (hA y hy)) (fun y hy => hagree.prev y (hA y hy))
  len := (hagree.len k (hA k List.mem_cons_self)).trans hk.len

omit [DecidableEq α] in
theorem AgreeOff.refl (A : List α) : AgreeOff A h h := ⟨fun _ _ => rfl, fun _ _ => rfl, fun _ _ => rfl⟩

omit [DecidableEq α] in
theorem AgreeOff.mono {B : List α} (hagree : AgreeOff A h h') (hAB : A ⊆ B) : AgreeOff B h h' where
  next y hy := hagree.next y fun hyA => hy (hAB hyA)
  prev y hy := hagree.prev y fun hyA => hy (hAB hyA)
  len y hy := hagree.len y fun hyA => hy (hAB hyA)

omit [DecidableEq α] in
theorem Detached.frame (hx : h.Detached x) (hagree : AgreeOff A h h') (hA : x ∉ A)
    : h'.Detached x where
  next := (hagree.next x hA).trans hx.next
  prev := (hagree.prev x hA).trans hx.prev

@[simp]
theorem setNext_next (h : Heap α) (p : α) (q : Option α)
    : (h.setNext p q).next = Function.update h.next p q := rfl

@[simp]
theorem setNext_prev (h : Heap α) (p : α) (q : Option α) : (h.setNext p q).prev = h.prev := rfl

@[simp]
theorem setNext_len (h : Heap α) (p : α) (q : Option α) : (h.setNext p q).len = h.len := rfl

@[simp]
theorem setPrev_next (h : Heap α) (p : α) (q : Option α) : (h.setPrev p q).next = h.next := rfl

@[simp]
theorem setPrev_prev (h : Heap α) (p : α) (q : Option α)
    : (h.setPrev p q).prev = Function.update h.prev p q := rfl

@[simp]
theorem setPrev_len (h : Heap α) (p : α) (q : Option α) : (h.setPrev p q).len = h.len := rfl

@[simp]
theorem setLen_next (h : Heap α) (p : α) (n : Nat) : (h.setLen p n).next = h.next := rfl

@[simp]
theorem setLen_prev (h : Heap α) (p : α) (n : Nat) : (h.setLen p n).prev = h.prev := rfl

@[simp]
theorem setLen_len (h : Heap α) (p : α) (n : Nat) : (h.setLen p n).len = Function.update h.len p n := rfl

theorem detached_initIl (h : Heap α) (x : α) : (h.initIl x).Detached x :=
  ⟨by simp [initIl], by simp [initIl]⟩

theorem agreeOff_initIl (h : Heap α) (x : α) : AgreeOff [x] h (h.initIl x) := by
  constructor <;> intro y hy <;> simp [initIl, Function.update_of_ne (List.ne_of_not_mem_cons hy)]

theorem holds_initList (h : Heap α) (l : α) : (h.initList l).Holds l LL.initList where
  ring := LinkedRing.nil_iff.mpr ⟨by simp [initList], by simp [initList]⟩
  len := by simp [initList, LL.initList]

theorem agreeOff_initList (h : Heap α) (l : α) : AgreeOff [l] h (h.initList l) := by
  constructor <;> intro y hy <;> simp [initList, Function.update_of_ne (List.ne_of_not_mem_cons hy)]

theorem Holds.setLen (hl : h.Holds l list) (n : Nat) : (h.setLen l n).Holds l { list with len := n } where
  ring := hl.ring
  len := by simp

theorem AgreeOff.setLen (hagree : AgreeOff A h h') (hl : l ∈ A) (n : Nat)
    : AgreeOff A h (h'.setLen l n) where
  next := hagree.next
  prev := hagree.prev
  len := by
    intro y hy
    have : y ≠ l := fun hyl => hy (hyl ▸ hl)
    simpa [Function.update_of_ne this] using hagree.len y hy

theorem itemAppend_eq {p : α} (hp : h.prev l = some p)
    : h.itemAppend (some l) (some x)
        = some ((((h.setNext p (some x)).setPrev x (some p)).setPrev l (some x)).setNext x (some l)) := by
  simp [Heap.itemAppend, hp]

theorem itemRemove_eq {p q : α} (hp : h.prev x = some p) (hq : (h.setNext p (h.next x)).next x = some q)
    : h.itemRemove (some x)
        = some ((((h.setNext p (h.next x)).setPrev q (some p)).setPrev x (some x)).setNext x (some x),
            some x) := by
  simp only [setNext_next] at hq
  simp [Heap.itemRemove, hp, hq]

theorem Holds.itemAppend (hl : h.Holds l list) (hx : x ∉ l :: list.items)
    : ∃ h', h.itemAppend (some l) (some x) = some h' ∧ h'.Holds l (list.itemAppend x)
        ∧ AgreeOff (x :: l :: list.items) h h' := by
  obtain ⟨p, hpmem, hp⟩ := hl.ring.exists_prev List.mem_cons_self
  have hpx : p ≠ x := by
    rintro rfl
    exact hx hpmem
  have hxl : x ≠ l := List.ne_of_not_mem_cons hx
  refine ⟨_, itemAppend_eq hp.2, ⟨?_, hl.len⟩, ⟨?_, ?_, fun y _ => rfl⟩⟩
  . apply hl.ring.append hx hp.2
    . simp [hpx]
    . simp
    . simp [hxl]
    . simp
    . intro y hyp hyx
      simp [hyp, hyx]
    . intro y hyx hyl
      simp [hyx, hyl]
  . intro y hy
    have hyx : y ≠ x := List.ne_of_not_mem_cons hy
    have hyp : y ≠ p := fun hyp => hy (List.mem_cons_of_mem x (hyp ▸ hpmem))
    simp [hyp, hyx]
  . intro y hy
    have hyx : y ≠ x := List.ne_of_not_mem_cons hy
    have hyl : y ≠ l := List.ne_of_not_mem_cons (List.not_mem_of_not_mem_cons hy)
    simp [hyx, hyl]

theorem Holds.listAppend (hl : h.Holds l list) (hx : x ∉ l :: list.items)
    : ∃ h', h.listAppend l (some x) = some h' ∧ h'.Holds l (list.listAppend x)
        ∧ AgreeOff (x :: l :: list.items) h h' := by
  obtain ⟨h', heq, hl', hagree⟩ := hl.itemAppend hx
  refine ⟨h'.setLen l (h'.len l + 1), by simp [Heap.listAppend, heq], ?_, hagree.setLen (by simp) _⟩
  rw [hl'.len]
  exact hl'.setLen _

theorem Holds.itemRemove (hl : h.Holds l list) (hx : x ∈ list.items)
    : ∃ h', h.itemRemove (some x) = some (h', some x) ∧ h'.Holds l (list.itemRemove x) ∧ h'.Detached x
        ∧ AgreeOff (l :: list.items) h h' := by
  have hxl : x ≠ l := by
    rintro rfl
    exact (List.nodup_cons.mp hl.ring.nodup).1 hx
  have hxmem : x ∈ l :: list.items := List.mem_cons_of_mem l hx
  obtain ⟨p, hpmem, hp⟩ := hl.ring.exists_prev hxmem
  obtain ⟨q, hqmem, hq⟩ := hl.ring.exists_next hxmem
  have hqx : q ≠ x := hl.ring.next_ne hx hq.1
  have hxp : x ≠ p := by
    rintro rfl
    exact hl.ring.next_ne hx hp.1 rfl
  have hq' : (h.setNext p (h.next x)).next x = some q := by
    simp [hxp, hq.1]
  refine ⟨_, itemRemove_eq hp.2 hq', ⟨?_, hl.len⟩, ⟨by simp, by simp⟩, ⟨?_, ?_, fun y _ => rfl⟩⟩
  . obtain ⟨xs, ys, hitems⟩ := List.append_of_mem hx
    have hring := hl.ring
    have hxs : x ∉ xs := by
      have := hring.nodup
      rw [hitems] at this
      intro hxs
      exact (List.nodup_append.mp (List.nodup_cons.mp this).2).2.2 x hxs x (by simp) rfl
    rw [LL.itemRemove_items, hitems, List.erase_append_right _ hxs, List.erase_cons_head]
    rw [hitems] at hring
    apply hring.remove hp.2 hq.1
    . simp [hxp.symm, hq.1]
    . simp [hqx]
    . intro y hyp hyx
      simp [hyp, hyx]
    . intro y hyq hyx
      simp [hyq, hyx]
  . intro y hy
    have hyp : y ≠ p := fun hyp => hy (hyp ▸ hpmem)
    have hyx : y ≠ x := fun hyx => hy (hyx ▸ hxmem)
    simp [hyp, hyx]
  . intro y hy
    have hyq : y ≠ q := fun hyq => hy (hyq ▸ hqmem)
    have hyx : y ≠ x := fun hyx => hy (hyx ▸ hxmem)
    simp [hyq, hyx]

theorem Detached.itemRemove (hx : h.Detached x)
    : ∃ h', h.itemRemove (some x) = some (h', some x) ∧ AgreeOff [] h h' := by
  have hnext : (h.setNext x (h.next x)).next x = some x := by simp [hx.next]
  refine ⟨_, itemRemove_eq hx.prev hnext, ?_, ?_, fun y _ => rfl⟩
  . intro y _
    by_cases hyx : y = x <;> simp [hyx, hx.next]
  . intro y _
    by_cases hyx : y = x <;> simp [hyx, hx.prev]

/--
The counter decides what `list_pop` does: a list whose counter is too large gives its own head.
-/
theorem Holds.listPop (hl : h.Holds l list)
    : ∃ h', h.listPop l = some (h', list.listPop.1.map (IL.addr l)) ∧ h'.Holds l list.listPop.2
        ∧ (∀ x, list.listPop.1 = some (.item x) → h'.Detached x) ∧ AgreeOff (l :: list.items) h h' := by
  by_cases hlen : list.len = 0
  . have hpop : list.listPop = (none, list) := by simp [LL.listPop, LL.emptyList, hlen]
    rw [hpop]
    exact ⟨h, by simp [Heap.listPop, Heap.emptyList, hl.len, hlen], hl, by simp, .refl _⟩
  . have hempty : h.emptyList l = false := by simp [Heap.emptyList, hl.len, hlen]
    cases hitems : list.items with
    | nil =>
      have hpop : list.listPop = (some .head, { list with len := list.len - 1 }) := by
        simp [LL.listPop, LL.emptyList, hlen, hitems]
      have hring := hl.ring
      rw [hitems] at hring
      obtain ⟨hnext, hprev⟩ := LinkedRing.nil_iff.mp hring
      obtain ⟨h', hremove, hagree⟩ := Detached.itemRemove ⟨hnext, hprev⟩
      have hl' : h'.Holds l list := hl.frame hagree (by simp)
      rw [hpop]
      refine ⟨h'.setLen l (list.len - 1), ?_, hl'.setLen _, by simp, ?_⟩
      . simp [Heap.listPop, hempty, hnext, hremove, hl'.len, IL.addr]
      . exact (hagree.mono (List.nil_subset [l])).setLen (by simp) _
    | cons x items =>
      have hpop : list.listPop = (some (.item x), ⟨items, list.len - 1⟩) := by
        simp [LL.listPop, LL.emptyList, hlen, hitems]
      have hx : x ∈ list.items := by simp [hitems]
      have hnext : h.next l = some x := by
        have := hl.ring.chain
        rw [hitems] at this
        exact (List.isChain_cons_cons.mp this).1.1
      obtain ⟨h', hremove, hl', hdetached, hagree⟩ := hl.itemRemove hx
      rw [hpop, ← hitems]
      refine ⟨h'.setLen l (list.len - 1), ?_, ?_, ?_, hagree.setLen (by simp) _⟩
      . simp [Heap.listPop, hempty, hnext, hremove, hl'.len, IL.addr]
      . have := hl'.setLen (list.len - 1)
        rwa [LL.itemRemove, hitems, List.erase_cons_head] at this
      . intro y hy
        cases hy
        exact ⟨hdetached.next, hdetached.prev⟩

theorem itemAppend_none (h : Heap α) (item : Option α) : h.itemAppend item none = none := by
  cases item with
  | none => rfl
  | some l => cases hp : h.prev l <;> simp [Heap.itemAppend]

omit [DecidableEq α] in
theorem AgreeOff.trans {h'' : Heap α} (hagree : AgreeOff A h h') (hagree' : AgreeOff A h' h'')
    : AgreeOff A h h'' where
  next y hy := (hagree'.next y hy).trans (hagree.next y hy)
  prev y hy := (hagree'.prev y hy).trans (hagree.prev y hy)
  len y hy := (hagree'.len y hy).trans (hagree.len y hy)

theorem Holds.listRotate_eq_none (hl : h.Holds l list) (hlen : list.len = 0) : h.listRotate l = none := by
  obtain ⟨h', hpop, _⟩ := hl.listPop
  rw [show list.listPop = (none, list) by simp [LL.listPop, LL.emptyList, hlen]] at hpop
  simp [Heap.listRotate, hpop, itemAppend_none]

/--
`list_rotate` puts the node back without the `len++` of `list_append`.
-/
theorem Holds.listRotate {items : List α} (hl : h.Holds l list) (hitems : list.items = x :: items)
    (hlen : list.len ≠ 0)
    : ∃ h' list', list.listRotate = some (.item x, list') ∧ h.listRotate l = some (h', some x)
        ∧ h'.Holds l list' ∧ AgreeOff (l :: list.items) h h' := by
  obtain ⟨h₁, hpop, hl₁, _, hagree₁⟩ := hl.listPop
  rw [show list.listPop = (some (.item x), ⟨items, list.len - 1⟩) by
    simp [LL.listPop, LL.emptyList, hlen, hitems]] at hpop hl₁
  have hnodup := hl.ring.nodup
  rw [hitems] at hnodup
  have hx : x ∉ l :: items := by
    simp only [List.nodup_cons, List.mem_cons, not_or] at hnodup
    simp only [List.mem_cons, not_or]
    exact ⟨Ne.symm hnodup.1.1, hnodup.2.1⟩
  obtain ⟨h', happend, hl', hagree⟩ := hl₁.itemAppend hx
  refine ⟨h', _, LL.listRotate_of_cons hitems hlen, ?_, hl', hagree₁.trans (hagree.mono ?_)⟩
  . simp only [Option.map_some, IL.addr] at hpop
    simp [Heap.listRotate, hpop, happend]
  . rw [hitems]
    exact (List.Perm.swap l x items).subset

end Heap
