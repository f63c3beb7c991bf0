import Mathlib.Algebra.Ring.Nat
import Mathlib.Data.List.Induction
import TrashDb.Message.Lemmas.Fifo

/-!
This module contains when the buffer of `message.c` grows and how far. The growth loop starts from a
product of 32 bits, so it starts from 0 for a capacity of 0 or of `2 ^ 31` and then never ends. The
free space is counted in 16 bits, so a buffer whose free space is counted wrongly is reallocated
although the new bytes fit. What a buffer grows to is in any case at most twice the larger one of its
capacity and the size that is asked for.
-/

open Word

namespace TBuffer

/--
The buffers that calls which have all returned leave behind.
-/
structure Bounded (tBuff : TBuffer) : Prop extends tBuff.Ordered where
  capacity_word : tBuff.capacity < 2 ^ 32

theorem resizeTbuff_capacity {tBuff tBuff' : TBuffer} {size : Nat} {mem : Bool}
    (h : tBuff.resizeTbuff size mem = .ok tBuff')
    : tBuff'.capacity = tBuff.capacity ∨
      tBuff'.capacity ≤ uint32Max ∧ tBuff'.capacity ≤ 2 * max tBuff.capacity size ∧
        size > tBuff.availSpace ∧ tBuff.capacity ≠ uint32Max ∧
        growLoop size 33 (mul32 tBuff.capacity 2) ≠ none := by
  unfold resizeTbuff at h
  split at h
  . cases h
  . split at h
    . next hgrow =>
      split at h
      . cases h
      . next hmax =>
        split at h
        . cases h
        . next needed hloop =>
          obtain ⟨k, -, hneeded, -, hmin⟩ := (growLoop_eq_some_iff _ _ _ _).mp hloop
          have hbound : needed ≤ 2 * max tBuff.capacity size := by
            cases k with
            | zero =>
              have : mul32 tBuff.capacity 2 ≤ tBuff.capacity * 2 := Nat.mod_le _ _
              omega
            | succ k =>
              have := hmin k (Nat.lt_succ_self k)
              rw [Nat.pow_succ, ← Nat.mul_assoc] at hneeded
              omega
          dsimp only at h
          split at h
          . cases h
            refine .inr ⟨?_, ?_, hgrow, hmax, by rw [hloop]; nofun⟩
            . dsimp only
              split <;> omega
            . dsimp only
              split <;> omega
          . cases h
    . cases h
      exact .inl rfl

namespace Call

def size : Call → Nat
  | .addByte _ _ => 1
  | .addBytes data _ => data.val.length
  | .getByte _ => 0

end Call

theorem getByteFromTbuffer_ok {tBuff tBuff' : TBuffer} {peek : Bool} {byte : Option UInt8}
    (h : tBuff.getByteFromTbuffer peek = .ok (byte, tBuff'))
    : tBuff'.endPos = tBuff.endPos ∧ tBuff'.capacity = tBuff.capacity := by
  unfold getByteFromTbuffer at h
  split at h
  . simp only [Except.ok.injEq, Prod.mk.injEq] at h
    simp [← h.2]
  . cases peek with
    | true =>
      simp only [if_true] at h
      split at h
      . cases h
        exact ⟨rfl, rfl⟩
      . cases h
    | false =>
      simp only [Bool.false_eq_true, if_false] at h
      split at h
      . cases h
        exact ⟨rfl, rfl⟩
      . cases h

theorem step_ok {tBuff tBuff' : TBuffer} {call : Call} (hordered : tBuff.Ordered)
    (h : tBuff.step call = .ok tBuff')
    : tBuff'.Ordered ∧ tBuff'.endPos = tBuff.endPos + call.size ∧
      (tBuff'.capacity = tBuff.capacity ∨
        ∃ mem resized, tBuff.resizeTbuff call.size mem = .ok resized ∧
          tBuff'.capacity = resized.capacity) := by
  have hadd : ∀ data mem, tBuff.addBytesToTbuffer data mem = .ok tBuff' →
      tBuff'.Ordered ∧ tBuff'.endPos = tBuff.endPos + data.length ∧
        (tBuff'.capacity = tBuff.capacity ∨
          ∃ mem resized, tBuff.resizeTbuff data.length mem = .ok resized ∧
            tBuff'.capacity = resized.capacity) := by
    intro data mem h
    obtain ⟨resized, hres, hroom⟩ := addBytesToTbuffer_ok h
    obtain ⟨tBuff'', heq, -, hend, hcap⟩ := (addBytesToTbuffer_of_resize hres).1 hroom
    rw [h] at heq
    cases heq
    exact ⟨hordered.addBytes h, hend, .inr ⟨mem, resized, hres, hcap⟩⟩
  cases call with
  | addByte data mem => exact hadd [data] mem h
  | addBytes data mem => exact hadd data.val mem h
  | getByte peek =>
    obtain ⟨next, hnext, hordered', -, -⟩ := hordered.getByte peek
    obtain ⟨hend, hcap⟩ := getByteFromTbuffer_ok hnext
    rw [step, hnext] at h
    cases h
    exact ⟨hordered', hend, .inl hcap⟩

theorem runCalls_append {size : Nat} {mem : Bool} {calls : List Call} {call : Call} {tBuff' : TBuffer}
    (h : runCalls size mem (calls ++ [call]) = .ok tBuff')
    : ∃ tBuff, runCalls size mem calls = .ok tBuff ∧ tBuff.step call = .ok tBuff' := by
  have htake := runCalls_take_succ size mem (calls ++ [call]) calls.length (by simp)
  rw [List.take_of_length_le (by simp), List.take_left' rfl, h] at htake
  cases hrun : runCalls size mem calls with
  | error e =>
    rw [hrun] at htake
    cases htake
  | ok tBuff =>
    rw [hrun] at htake
    exact ⟨tBuff, rfl, by simpa [Except.bind] using htake.symm⟩

theorem Bounded.init {size : Nat} {mem : Bool} {tBuff : TBuffer} (h : initTbuff size mem = .ok tBuff)
    : tBuff.Bounded ∧ tBuff.endPos = 0 ∧ tBuff.capacity = min size defaultTbuffSize := by
  have hordered := (Ordered.init h).1
  unfold initTbuff at h
  cases mem with
  | false => cases h
  | true =>
    simp only [if_true, Except.ok.injEq] at h
    subst h
    have hcap : (if size > defaultTbuffSize then defaultTbuffSize else size) = min size defaultTbuffSize := by
      split <;> omega
    refine ⟨⟨hordered, ?_⟩, rfl, hcap⟩
    dsimp only
    rw [hcap]
    unfold defaultTbuffSize
    omega

theorem Bounded.step {tBuff tBuff' : TBuffer} {call : Call} (h : tBuff.Bounded)
    (hstep : tBuff.step call = .ok tBuff')
    : tBuff'.Bounded := by
  obtain ⟨hordered, -, hcap⟩ := step_ok h.toOrdered hstep
  refine ⟨hordered, ?_⟩
  have hword := h.capacity_word
  cases hcap with
  | inl hsame => omega
  | inr hgrown =>
    obtain ⟨mem, resized, hres, hcap⟩ := hgrown
    cases resizeTbuff_capacity hres with
    | inl hsame => omega
    | inr hmax =>
      unfold uint32Max at hmax
      omega

theorem Bounded.of_runCalls {size : Nat} {mem : Bool} {calls : List Call} {tBuff : TBuffer}
    (h : runCalls size mem calls = .ok tBuff)
    : tBuff.Bounded := by
  induction calls using List.reverseRecOn generalizing tBuff with
  | nil =>
    rw [runCalls_nil] at h
    exact (Bounded.init h).1
  | append_singleton calls call ih =>
    obtain ⟨last, hrun, hstep⟩ := runCalls_append h
    exact (ih hrun).step hstep

/--
The loop of a `resize_tbuff` that gets to it ends after finitely many turns, however many these are.
-/
def GrowthEnds (tBuff : TBuffer) (size : Nat) : Prop :=
  tBuff.endPos < uint32Max - size → size > tBuff.availSpace → tBuff.capacity ≠ uint32Max →
    ∃ turns needed, growLoop size turns (mul32 tBuff.capacity 2) = some needed

theorem growLoop_ends_iff {size needed : Nat} (hsize : size < 2 ^ 32)
    : (∃ turns r, growLoop size turns needed = some r) ↔ ¬ (needed = 0 ∧ 0 < size) := by
  constructor
  . rintro ⟨turns, r, hloop⟩ ⟨rfl, hpos⟩
    rw [growLoop_zero turns hpos] at hloop
    cases hloop
  . intro h
    rw [← growLoop_eq_none_iff hsize] at h
    exact ⟨33, Option.ne_none_iff_exists'.mp h⟩

theorem growthEnds_iff {tBuff : TBuffer} {size : Nat} (mem : Bool) (hsize : size < 2 ^ 32)
    : tBuff.GrowthEnds size ↔ tBuff.resizeTbuff size mem ≠ .error .diverges := by
  unfold GrowthEnds resizeTbuff
  rw [growLoop_ends_iff hsize, ← growLoop_eq_none_iff hsize]
  split
  . next hguard => simp [Nat.not_lt.mpr hguard]
  . next hguard =>
    split
    . next hgrow =>
      split
      . next hmax => simp [hmax]
      . next hmax =>
        simp only [Nat.lt_of_not_le hguard, hgrow, forall_const, ne_eq, hmax, not_false_eq_true]
        split
        . next hloop => simp [hloop]
        . next needed hloop =>
          simp only [hloop, reduceCtorEq, not_false_eq_true, true_iff]
          cases mem <;> nofun
    . next hgrow => simp [hgrow]

theorem mul32_two_eq_zero_iff {a : Nat} (ha : a < 2 ^ 32) : mul32 a 2 = 0 ↔ a = 0 ∨ a = 2 ^ 31 := by
  unfold mul32
  omega

theorem growthEnds_iff_of_runCalls {size : Nat} {mem : Bool} {calls : List Call} {tBuff : TBuffer}
    (h : runCalls size mem calls = .ok tBuff) (more : { more : Nat // more < 2 ^ 32 })
    : tBuff.GrowthEnds more.val
        ↔
      ¬ (tBuff.endPos + more.val < 2 ^ 32 - 1 ∧
          (tBuff.capacity = 0 ∧ 2 ^ 16 ≤ more.val ∨
            tBuff.capacity = 2 ^ 31 ∧ (2 ^ 31 - tBuff.endPos - 1) % 2 ^ 16 < more.val)) := by
  have hbounded := Bounded.of_runCalls h
  have hend := hbounded.end_lt
  have hmore := more.property
  unfold GrowthEnds
  rw [growLoop_ends_iff hmore, mul32_two_eq_zero_iff hbounded.capacity_word]
  unfold uint32Max
  by_cases hzero : tBuff.capacity = 0
  . have hempty : tBuff.endPos = 0 := by omega
    have havail : tBuff.availSpace = 2 ^ 16 - 1 := by
      unfold availSpace
      rw [hzero, hempty]
      rfl
    rw [havail]
    omega
  . have hword := hbounded.capacity_word
    have havail : tBuff.availSpace = (tBuff.capacity - tBuff.endPos - 1) % 2 ^ 16 :=
      availSpace_eq (by omega) (by omega)
    rw [havail]
    by_cases hhalf : tBuff.capacity = 2 ^ 31
    . rw [hhalf]
      omega
    . omega

theorem growthEnds_hundred
    : ∃ tBuff, runCalls 8 true [.addByte 65 true] = .ok tBuff ∧ tBuff.GrowthEnds 100 := by
  obtain ⟨tBuff, hrun, hcapacity⟩ : ∃ tBuff, runCalls 8 true [.addByte 65 true] = .ok tBuff ∧
      tBuff.capacity = 8 := ⟨_, rfl, rfl⟩
  refine ⟨tBuff, hrun, (growthEnds_iff_of_runCalls hrun ⟨100, by decide⟩).mpr ?_⟩
  rw [hcapacity]
  omega

theorem runCalls_addBytes {size : Nat} (capacity : Nat) (data : { data : List UInt8 // data.length < 2 ^ 32 })
    (hlen : data.val.length = size)
    (hres : ∃ resized, resizeTbuff ⟨fun _ => 0, 0, 0, 1024⟩ size true = .ok resized ∧
      resized.capacity = capacity)
    (hroom : size < capacity)
    : ∃ tBuff, runCalls 1024 true [.addBytes data true] = .ok tBuff ∧ tBuff.endPos = size ∧
        tBuff.capacity = capacity := by
  obtain ⟨resized, hres, hcap⟩ := hres
  rw [← hlen] at hres
  obtain ⟨tBuff, hadd, -, hend, hcap'⟩ := (addBytesToTbuffer_of_resize hres).1 (by
    dsimp only
    omega)
  refine ⟨tBuff, ?_, by simpa [hlen] using hend, by rw [hcap', hcap]⟩
  show (addBytesToTbuffer ⟨fun _ => 0, 0, 0, 1024⟩ data.val true).bind pure = _
  rw [hadd]
  rfl

def halfFull : { data : List UInt8 // data.length < 2 ^ 32 } :=
  ⟨List.replicate (2 ^ 30 + 1) 0, by rw [List.length_replicate]; decide⟩

theorem not_growthEnds_half
    : ∃ tBuff, runCalls 1024 true [.addBytes halfFull true] = .ok tBuff ∧ ¬ tBuff.GrowthEnds (2 ^ 30) := by
  obtain ⟨tBuff, hrun, hend, hcap⟩ :=
    runCalls_addBytes (2 ^ 31) halfFull List.length_replicate ⟨_, rfl, rfl⟩ (by decide)
  refine ⟨tBuff, hrun, ?_⟩
  rw [growthEnds_iff true (by decide)]
  unfold resizeTbuff availSpace
  rw [hend, hcap]
  intro h
  exact h rfl

def Reallocates (tBuff : TBuffer) (size : Nat) : Prop :=
  tBuff.resizeTbuff size true ≠ tBuff.resizeTbuff size false

def Frugal (tBuff : TBuffer) (size : Nat) : Prop :=
  tBuff.Reallocates size → tBuff.endPos + size + 1 > tBuff.capacity

/--
The free space is counted right, or wrongly where it makes no difference.
-/
def Counted (tBuff : TBuffer) (size : Nat) : Prop :=
  size ≤ (tBuff.capacity - tBuff.endPos - 1) % 2 ^ 16 ∨ tBuff.capacity - tBuff.endPos - 1 < size ∨
    tBuff.capacity = 2 ^ 31 ∨ tBuff.capacity = 2 ^ 32 - 1

theorem reallocates_iff {tBuff : TBuffer} {size : Nat} (hguard : tBuff.endPos + size < uint32Max)
    : tBuff.Reallocates size
        ↔
      size > tBuff.availSpace ∧ tBuff.capacity ≠ uint32Max ∧
        growLoop size 33 (mul32 tBuff.capacity 2) ≠ none := by
  have hpass : ¬ tBuff.endPos ≥ uint32Max - size := by omega
  unfold Reallocates resizeTbuff
  simp only [if_neg hpass]
  split
  . next hgrow =>
    split
    . next hmax => simp [hmax]
    . next hmax =>
      split
      . next hloop => simp [hloop]
      . next needed hloop => simp [hgrow, hmax, hloop]
  . next hgrow => simp [hgrow]

theorem frugal_iff_counted {tBuff : TBuffer} {size : Nat} (h : tBuff.Bounded) (hcap : 0 < tBuff.capacity)
    (hguard : tBuff.endPos + size < uint32Max)
    : tBuff.Frugal size ↔ tBuff.Counted size := by
  have hword := h.capacity_word
  have hend : tBuff.endPos < tBuff.capacity := by
    have := h.end_lt
    omega
  unfold Frugal
  rw [reallocates_iff hguard, ne_eq (growLoop _ _ _),
    growLoop_eq_none_iff (by unfold uint32Max at hguard; omega), mul32_two_eq_zero_iff hword,
    availSpace_eq hend (by omega)]
  unfold Counted uint32Max
  omega

def CountedAll (size : Nat) (mem : Bool) (calls : List Call) : Prop :=
  ∀ k (hk : k < calls.length) tBuff,
    runCalls size mem (calls.take k) = .ok tBuff → tBuff.Counted (calls.get ⟨k, hk⟩).size

theorem step_capacity_le {tBuff tBuff' : TBuffer} {call : Call} (h : tBuff.Bounded)
    (hcounted : tBuff.Counted call.size) (hstep : tBuff.step call = .ok tBuff')
    : tBuff'.capacity ≤ max tBuff.capacity (2 * (tBuff.endPos + call.size)) := by
  obtain ⟨-, -, hcap⟩ := step_ok h.toOrdered hstep
  cases hcap with
  | inl hsame => omega
  | inr hgrown =>
    obtain ⟨mem, resized, hres, hcap⟩ := hgrown
    rw [hcap]
    have hguard := (resizeTbuff_ok hres).2.2
    cases resizeTbuff_capacity hres with
    | inl hsame => omega
    | inr hgrown =>
      obtain ⟨-, hbound, hrealloc⟩ := hgrown
      have hpos : 0 < tBuff.capacity := by
        by_contra hzero
        rw [ne_eq (growLoop _ _ _), growLoop_eq_none_iff (by unfold uint32Max at hguard; omega),
          mul32_two_eq_zero_iff h.capacity_word] at hrealloc
        omega
      have hneeded := (frugal_iff_counted h hpos hguard).mpr hcounted
        ((reallocates_iff hguard).mpr hrealloc)
      omega

def added (calls : List Call) : Nat := (calls.map Call.size).sum

theorem capacity_le {size : Nat} {mem : Bool} {calls : List Call} {tBuff : TBuffer}
    (h : runCalls size mem calls = .ok tBuff) (hcounted : CountedAll size mem calls)
    : tBuff.endPos = added calls ∧
      tBuff.capacity ≤ max (min size defaultTbuffSize) (2 * (added calls + 1)) := by
  induction calls using List.reverseRecOn generalizing tBuff with
  | nil =>
    rw [runCalls_nil] at h
    obtain ⟨-, hend, hcap⟩ := Bounded.init h
    exact ⟨hend, by omega⟩
  | append_singleton calls call ih =>
    obtain ⟨last, hrun, hstep⟩ := runCalls_append h
    have hbounded := Bounded.of_runCalls hrun
    obtain ⟨hend, hcap⟩ := ih hrun (by
      intro k hk tBuff hrun
      have := hcounted k (by simp; omega) tBuff
      simp only [List.take_append_of_le_length (Nat.le_of_lt hk)] at this
      simpa [List.getElem_append_left hk] using this hrun)
    have hlast : last.Counted call.size := by
      have := hcounted calls.length (by simp) last
      simp only [List.take_left'] at this
      simpa using this hrun
    have hgrown := step_capacity_le hbounded hlast hstep
    have hmore : added (calls ++ [call]) = added calls + call.size := by simp [added]
    refine ⟨by rw [(step_ok hbounded.toOrdered hstep).2.1, hend, hmore], ?_⟩
    rw [hmore]
    omega

theorem frugal_iff_of_runCalls {size : Nat} {mem : Bool} {calls : List Call} {tBuff : TBuffer}
    (h : runCalls size mem calls = .ok tBuff)
    : (0 < tBuff.capacity → ∀ more, tBuff.endPos + more < uint32Max →
        (tBuff.Frugal more ↔ tBuff.Counted more)) ∧
      (CountedAll size mem calls →
        tBuff.capacity ≤ max (min size defaultTbuffSize) (2 * (added calls + 1))) :=
  ⟨fun hcap _ hguard => frugal_iff_counted (Bounded.of_runCalls h) hcap hguard,
    fun hcounted => (capacity_le h hcounted).2⟩

theorem frugal_of_two_calls
    : ∃ tBuff, runCalls 8 true [.addByte 65 true, .addByte 66 true] = .ok tBuff ∧
        (tBuff.Frugal 100 ↔ tBuff.Counted 100) ∧
        tBuff.capacity ≤ max (min 8 defaultTbuffSize) (2 * (added [.addByte 65 true, .addByte 66 true] + 1)) := by
  obtain ⟨tBuff, hrun, hcap, hend⟩ : ∃ tBuff, runCalls 8 true [.addByte 65 true, .addByte 66 true] = .ok tBuff ∧
      tBuff.capacity = 8 ∧ tBuff.endPos = 2 := ⟨_, rfl, rfl, rfl⟩
  have hfrugal := frugal_iff_of_runCalls hrun
  refine ⟨tBuff, hrun, hfrugal.1 (by omega) 100 (by rw [hend]; decide), hfrugal.2 ?_⟩
  intro k hk tBuff' hrun'
  left
  match k, hk with
  | 0, _ =>
    cases hrun'
    exact (by decide : 1 ≤ 7)
  | 1, _ =>
    cases hrun'
    exact (by decide : 1 ≤ 6)

theorem runCalls_again {first second : { data : List UInt8 // data.length < 2 ^ 32 }}
    (hfirst : first.val.length = 2 ^ 17 + 1) (hsecond : second.val.length = 2 ^ 16 - 1)
    : ∃ tBuff tBuff', runCalls 1024 true [.addBytes first true] = .ok tBuff ∧
        tBuff.endPos = 2 ^ 17 + 1 ∧ tBuff.capacity = 2 ^ 18 ∧
        runCalls 1024 true [.addBytes first true, .addBytes second true] = .ok tBuff' ∧
        tBuff'.capacity = 2 ^ 19 := by
  obtain ⟨tBuff, hrun, hend, hcap⟩ := runCalls_addBytes (2 ^ 18) first hfirst ⟨_, rfl, rfl⟩ (by decide)
  obtain ⟨resized, hres, hcap'⟩ : ∃ resized, tBuff.resizeTbuff second.val.length true = .ok resized ∧
      resized.capacity = 2 ^ 19 := by
    rw [hsecond]
    unfold resizeTbuff availSpace
    rw [hend, hcap]
    exact ⟨_, rfl, rfl⟩
  obtain ⟨tBuff', hadd, -, -, hcap''⟩ := (addBytesToTbuffer_of_resize hres).1 (by omega)
  refine ⟨tBuff, tBuff', hrun, hend, hcap, ?_, by rw [hcap'', hcap']⟩
  have htake := runCalls_take_succ 1024 true [.addBytes first true, .addBytes second true] 1
    (by simp)
  simp only [List.take, hrun, Except.bind] at htake
  rw [htake]
  exact hadd

def half : { data : List UInt8 // data.length < 2 ^ 32 } :=
  ⟨List.replicate (2 ^ 17 + 1) 0, by rw [List.length_replicate]; decide⟩

def fitting : { data : List UInt8 // data.length < 2 ^ 32 } :=
  ⟨List.replicate (2 ^ 16 - 1) 0, by rw [List.length_replicate]; decide⟩

theorem not_frugal_half
    : ∃ tBuff tBuff', runCalls 1024 true [.addBytes half true] = .ok tBuff ∧
        0 < tBuff.capacity ∧ tBuff.endPos + (2 ^ 16 - 1) < uint32Max ∧ ¬ tBuff.Frugal (2 ^ 16 - 1) ∧
        runCalls 1024 true [.addBytes half true, .addBytes fitting true] = .ok tBuff' ∧
        max (min 1024 defaultTbuffSize) (2 * (added [.addBytes half true, .addBytes fitting true] + 1)) <
          tBuff'.capacity := by
  have hhalf : half.val.length = 2 ^ 17 + 1 := List.length_replicate
  have hfitting : fitting.val.length = 2 ^ 16 - 1 := List.length_replicate
  obtain ⟨tBuff, tBuff', hrun, hend, hcap, hrun', hcap'⟩ := runCalls_again hhalf hfitting
  have hguard : tBuff.endPos + (2 ^ 16 - 1) < uint32Max := by
    rw [hend]
    decide
  refine ⟨tBuff, tBuff', hrun, by omega, hguard, ?_, hrun', ?_⟩
  . rw [frugal_iff_counted (Bounded.of_runCalls hrun) (by omega) hguard, Counted, hend, hcap]
    decide
  . simp only [added, List.map, Call.size, List.sum_cons, List.sum_nil, hhalf, hfitting, hcap']
    decide

end TBuffer
