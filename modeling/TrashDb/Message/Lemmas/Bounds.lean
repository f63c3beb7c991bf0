import Mathlib.Data.Nat.Find
import TrashDb.Message.Impl

/-!
This module contains the memory bounds of the buffer of `message.c`.

A buffer is `Sound` if its three positions are in order. `Fits` is what decides whether a call keeps a
sound buffer sound and writes below `capacity` only: either the free space, which is counted in 16
bits, is enough for the new bytes or the capacities that the growth loop doubles through, which start
from a product of 32 bits, skip all those that hold the new bytes but not the old ones, the new ones
and the terminator.
-/

open Word

namespace TBuffer

theorem growLoop_eq_some_iff (size turns needed r : Nat)
    : growLoop size turns needed = some r
        ↔
      ∃ k < turns, r = needed * 2 ^ k ∧ size ≤ r ∧ ∀ j < k, needed * 2 ^ j < size := by
  induction turns generalizing needed with
  | zero => simp [growLoop]
  | succ turns ih =>
    simp only [growLoop]
    split
    . next hlt =>
      rw [ih]
      constructor
      . rintro ⟨k, hk, hr, hsize, hmin⟩
        refine ⟨k + 1, by omega, by rw [hr, Nat.pow_succ', Nat.mul_assoc], hsize, ?_⟩
        intro j hj
        cases j with
        | zero => simpa using hlt
        | succ j =>
          have := hmin j (by omega)
          rwa [Nat.pow_succ', ← Nat.mul_assoc]
      . rintro ⟨k, hk, hr, hsize, hmin⟩
        cases k with
        | zero => simp at hr; omega
        | succ k =>
          refine ⟨k, by omega, by rw [hr, Nat.pow_succ', Nat.mul_assoc], hsize, ?_⟩
          intro j hj
          have := hmin (j + 1) (by omega)
          rwa [Nat.pow_succ', ← Nat.mul_assoc] at this
    . next hge =>
      constructor
      . intro h
        cases h
        exact ⟨0, by omega, by simp, by omega, by omega⟩
      . rintro ⟨k, hk, hr, hsize, hmin⟩
        cases k with
        | zero => simp [hr]
        | succ k =>
          have := hmin 0 (by omega)
          simp at this
          omega

theorem growLoop_zero {size : Nat} (turns : Nat) (h : 0 < size) : growLoop size turns 0 = none := by
  induction turns with
  | zero => rfl
  | succ turns ih => simp [growLoop, h, ih]

theorem growLoop_eq_none_iff {size needed : Nat} (hsize : size < 2 ^ 32)
    : growLoop size 33 needed = none ↔ needed = 0 ∧ 0 < size := by
  constructor
  . intro h
    by_contra hcon
    have hstop : ∃ k, size ≤ needed * 2 ^ k := by
      by_cases hneeded : needed = 0
      . exact ⟨0, by omega⟩
      . have := Nat.mul_le_mul_right (2 ^ 32) (Nat.one_le_iff_ne_zero.mpr hneeded)
        exact ⟨32, by omega⟩
    have hmin := fun j (hj : j < Nat.find hstop) => Nat.lt_of_not_le (Nat.find_min hstop hj)
    have hturns : Nat.find hstop < 33 := by
      by_contra hge
      have h0 := hmin 0 (by omega)
      have h32 := hmin 32 (by omega)
      omega
    have := (growLoop_eq_some_iff size 33 needed _).mpr
      ⟨Nat.find hstop, hturns, rfl, Nat.find_spec hstop, hmin⟩
    rw [h] at this
    cases this
  . rintro ⟨rfl, hpos⟩
    exact growLoop_zero 33 hpos

def Sound (tBuff : TBuffer) : Prop := tBuff.start ≤ tBuff.endPos ∧ tBuff.endPos < tBuff.capacity

def Room (tBuff : TBuffer) (size : Nat) (mem : Bool) : Prop :=
  ∀ tBuff', tBuff.resizeTbuff size mem = .ok tBuff' → tBuff'.endPos + size + 1 ≤ tBuff'.capacity

def Fits (tBuff : TBuffer) (size : Nat) : Prop :=
  size ≤ (tBuff.capacity - tBuff.endPos - 1) % 2 ^ 16 ∨
    ∀ k,
      mul32 tBuff.capacity 2 * 2 ^ k < size ∨
        tBuff.endPos + size < mul32 tBuff.capacity 2 * 2 ^ k

theorem availSpace_eq {tBuff : TBuffer} (h : tBuff.endPos < tBuff.capacity)
    (hend : tBuff.endPos + 1 < 2 ^ 32)
    : tBuff.availSpace = (tBuff.capacity - tBuff.endPos - 1) % 2 ^ 16 := by
  unfold availSpace
  rw [add32_of_lt hend, sub32_of_le (by omega), Nat.sub_sub]

theorem resizeTbuff_ok {tBuff tBuff' : TBuffer} {size : Nat} {mem : Bool}
    (h : tBuff.resizeTbuff size mem = .ok tBuff')
    : tBuff'.start = tBuff.start ∧ tBuff'.endPos = tBuff.endPos ∧
      tBuff.endPos + size < uint32Max := by
  unfold resizeTbuff at h
  split at h
  . cases h
  . split at h
    . split at h
      . cases h
      . split at h
        . cases h
        . dsimp only at h
          split at h
          . cases h
            exact ⟨rfl, rfl, by omega⟩
          . cases h
    . cases h
      exact ⟨rfl, rfl, by omega⟩

theorem resizeTbuff_ne_outOfBounds (tBuff : TBuffer) (size : Nat) (mem : Bool)
    : tBuff.resizeTbuff size mem ≠ .error .outOfBounds := by
  intro h
  unfold resizeTbuff at h
  split at h
  . cases h
  . split at h
    . split at h
      . cases h
      . split at h
        . cases h
        . dsimp only at h
          split at h <;> cases h
    . cases h

theorem room_iff_fits {tBuff : TBuffer} {size : Nat} {mem : Bool} (hsound : tBuff.Sound)
    (hsize : size < 2 ^ 32) (hassert : tBuff.resizeTbuff size mem ≠ .error .assertFails)
    : tBuff.Room size mem ↔ tBuff.Fits size := by
  unfold Room Fits
  generalize hres : tBuff.resizeTbuff size mem = res at hassert
  unfold resizeTbuff at hres
  split at hres
  . exact absurd hres.symm hassert
  . next hguard =>
    have hend : tBuff.endPos + size < uint32Max := by omega
    rw [availSpace_eq hsound.2 (by unfold uint32Max at hend; omega)] at hres
    split at hres
    . next hgrow =>
      split at hres
      . exact absurd hres.symm hassert
      . split at hres
        . next hloop =>
          obtain ⟨hzero, hpos⟩ := (growLoop_eq_none_iff hsize).mp hloop
          subst hres
          simp only [reduceCtorEq, false_implies, implies_true, true_iff]
          right
          intro k
          left
          rw [hzero]
          simpa using hpos
        . next needed hloop =>
          obtain ⟨k, -, hneeded, hle, hmin⟩ := (growLoop_eq_some_iff _ _ _ _).mp hloop
          dsimp only at hres
          split at hres
          . subst hres
            constructor
            . intro hroom
              have hroom := hroom _ rfl
              right
              intro j
              cases Nat.lt_or_ge j k with
              | inl hlt => exact .inl (hmin j hlt)
              | inr hge =>
                have := Nat.mul_le_mul_left (mul32 tBuff.capacity 2)
                  (Nat.pow_le_pow_right (by omega : 0 < 2) hge)
                dsimp only at hroom
                split at hroom <;> omega
            . intro hfits tBuff' htBuff'
              cases htBuff'
              have := hfits.resolve_left (by omega) k
              dsimp only
              split <;> omega
          . exact absurd hres.symm hassert
    . next hspace =>
      subst hres
      have hspace : size ≤ (tBuff.capacity - tBuff.endPos - 1) % 2 ^ 16 := by omega
      have := hsound.2
      simp only [hspace, true_or, iff_true]
      intro tBuff' htBuff'
      cases htBuff'
      omega

theorem addBytesToTbuffer_of_resize {tBuff tBuff' : TBuffer} {data : List UInt8} {mem : Bool}
    (h : tBuff.resizeTbuff data.length mem = .ok tBuff')
    : (tBuff.endPos + data.length + 1 ≤ tBuff'.capacity →
        ∃ tBuff'', tBuff.addBytesToTbuffer data mem = .ok tBuff'' ∧
          tBuff''.start = tBuff.start ∧
          tBuff''.endPos = tBuff.endPos + data.length ∧
          tBuff''.capacity = tBuff'.capacity) ∧
      (¬ tBuff.endPos + data.length + 1 ≤ tBuff'.capacity →
        tBuff.addBytesToTbuffer data mem = .error .outOfBounds) := by
  obtain ⟨hstart, hend, hmax⟩ := resizeTbuff_ok h
  have hwrap : add32 tBuff.endPos data.length = tBuff.endPos + data.length := by
    apply add32_of_lt
    unfold uint32Max at hmax
    omega
  constructor
  . intro hroom
    simp only [addBytesToTbuffer, h, store, hend, bind, Except.bind]
    rw [if_pos (by omega)]
    simp only [List.length_singleton, hwrap]
    rw [if_pos (by omega)]
    simp [hstart]
  . intro hroom
    simp only [addBytesToTbuffer, h, store, hend, bind, Except.bind]
    by_cases hcopy : data.length = 0 ∨ tBuff.endPos + data.length ≤ tBuff'.capacity
    . rw [if_pos hcopy]
      simp only [List.length_singleton, hwrap]
      rw [if_neg (by omega)]
    . rw [if_neg hcopy]

theorem addBytesToTbuffer_of_error {tBuff : TBuffer} {data : List UInt8} {mem : Bool} {e : Stop}
    (h : tBuff.resizeTbuff data.length mem = .error e)
    : tBuff.addBytesToTbuffer data mem = .error e := by
  simp [addBytesToTbuffer, h, bind, Except.bind]

theorem addByteToTbuffer_eq (tBuff : TBuffer) (data : UInt8) (mem : Bool)
    : tBuff.addByteToTbuffer data mem = tBuff.addBytesToTbuffer [data] mem := by
  rfl

theorem getByteFromTbuffer_sound {tBuff : TBuffer} (h : tBuff.Sound) (peek : Bool)
    : ∃ byte tBuff', tBuff.getByteFromTbuffer peek = .ok (byte, tBuff') ∧ tBuff'.Sound := by
  unfold Sound at h
  unfold getByteFromTbuffer
  split
  . exact ⟨none, tBuff, rfl, h⟩
  . cases peek with
    | true => simp [h, Sound, show tBuff.start < tBuff.capacity by omega]
    | false =>
      have : add32 tBuff.start 1 ≤ tBuff.start + 1 := Nat.mod_le _ _
      simp only [Bool.false_eq_true, ↓reduceIte, show tBuff.start < tBuff.capacity by omega]
      refine ⟨_, _, rfl, ?_, h.2⟩
      dsimp only
      omega

def Safe : Except Stop TBuffer → Prop
  | .ok tBuff => tBuff.Sound
  | .error .outOfBounds => False
  | .error _ => True

namespace Call

def Room (tBuff : TBuffer) : Call → Prop
  | .addByte _ mem => tBuff.Room 1 mem
  | .addBytes data mem => tBuff.Room data.val.length mem
  | .getByte _ => True

def Fits (tBuff : TBuffer) : Call → Prop
  | .addByte _ _ => tBuff.Fits 1
  | .addBytes data _ => tBuff.Fits data.val.length
  | .getByte _ => True

end Call

theorem safe_addBytes_iff {tBuff : TBuffer} {data : List UInt8} {mem : Bool} (hsound : tBuff.Sound)
    (hlen : data.length < 2 ^ 32)
    (hassert : tBuff.addBytesToTbuffer data mem ≠ .error .assertFails)
    : (Safe (tBuff.addBytesToTbuffer data mem) ∧ tBuff.Room data.length mem)
        ↔
      tBuff.Fits data.length := by
  cases hres : tBuff.resizeTbuff data.length mem with
  | error e =>
    rw [addBytesToTbuffer_of_error hres] at hassert ⊢
    rw [← room_iff_fits hsound hlen (by rw [hres]; exact hassert)]
    have hsafe : Safe (.error e) := by
      cases e with
      | assertFails => trivial
      | diverges => trivial
      | outOfBounds => exact absurd hres (resizeTbuff_ne_outOfBounds tBuff data.length mem)
    simp [hsafe]
  | ok tBuff' =>
    have hreturns : tBuff.resizeTbuff data.length mem ≠ .error .assertFails := by
      rw [hres]
      nofun
    rw [← room_iff_fits hsound hlen hreturns]
    simp only [and_iff_right_iff_imp]
    intro hroom
    have hroom := hroom tBuff' hres
    rw [(resizeTbuff_ok hres).2.1] at hroom
    obtain ⟨tBuff'', heq, hstart, hend, hcap⟩ := (addBytesToTbuffer_of_resize hres).1 hroom
    have := hsound.1
    rw [heq]
    simp only [Safe, Sound]
    omega

theorem safe_step_iff {tBuff : TBuffer} {call : Call} (hsound : tBuff.Sound)
    (hassert : tBuff.step call ≠ .error .assertFails)
    : (Safe (tBuff.step call) ∧ call.Room tBuff) ↔ call.Fits tBuff := by
  cases call with
  | addByte data mem =>
    simp only [step, addByteToTbuffer_eq] at hassert ⊢
    apply safe_addBytes_iff hsound (by simp) hassert
  | addBytes data mem => apply safe_addBytes_iff hsound data.property hassert
  | getByte peek =>
    obtain ⟨byte, tBuff', heq, hsound'⟩ := getByteFromTbuffer_sound hsound peek
    simp [step, heq, Except.map, Safe, hsound', Call.Room, Call.Fits]

theorem runCalls_take_succ (size : Nat) (mem : Bool) (calls : List Call) (k : Nat)
    (hk : k < calls.length)
    : runCalls size mem (calls.take (k + 1))
        =
      (runCalls size mem (calls.take k)).bind fun tBuff => tBuff.step (calls.get ⟨k, hk⟩) := by
  rw [List.take_succ_eq_append_getElem hk]
  unfold runCalls
  cases initTbuff size mem with
  | error e => rfl
  | ok tBuff =>
    simp only [Except.bind, List.foldlM_append, List.foldlM_cons, List.foldlM_nil, List.get_eq_getElem]
    cases List.foldlM step tBuff (calls.take k) with
    | error e => rfl
    | ok tBuff =>
      simp only [bind, Except.bind]
      cases tBuff.step calls[k] <;> rfl

theorem runCalls_of_take_error {size : Nat} {mem : Bool} {calls : List Call} {e : Stop} (k : Nat)
    (h : runCalls size mem (calls.take k) = .error e)
    : runCalls size mem calls = .error e := by
  rw [← List.take_append_drop k calls]
  unfold runCalls at h ⊢
  cases hinit : initTbuff size mem with
  | error e' => simpa [hinit, Except.bind] using h
  | ok tBuff =>
    simp only [hinit, Except.bind] at h
    simp only [Except.bind, List.foldlM_append, h]
    rfl

/--
After every call the positions are in order, no call has written outside of the block and every
`resize_tbuff` that returned has made room for the bytes it was asked for and the terminator.
-/
def MemSafe (size : Nat) (mem : Bool) (calls : List Call) : Prop :=
  (∀ k, Safe (runCalls size mem (calls.take k))) ∧
  ∀ k (hk : k < calls.length) tBuff,
    runCalls size mem (calls.take k) = .ok tBuff → (calls.get ⟨k, hk⟩).Room tBuff

/--
Every call meets `Fits` in the buffer it is made on.
-/
def FitsAll (size : Nat) (mem : Bool) (calls : List Call) : Prop :=
  ∀ k (hk : k < calls.length) tBuff,
    runCalls size mem (calls.take k) = .ok tBuff → (calls.get ⟨k, hk⟩).Fits tBuff

theorem safe_initTbuff_iff {size : Nat} {mem : Bool} (h : initTbuff size mem ≠ .error .assertFails)
    : Safe (initTbuff size mem) ↔ 0 < size := by
  cases mem with
  | false => exact absurd rfl h
  | true =>
    by_cases hlarge : size > defaultTbuffSize
    . simp only [initTbuff, hlarge, ↓reduceIte, Safe, Sound]
      unfold defaultTbuffSize at hlarge ⊢
      omega
    . simp [initTbuff, hlarge, Safe, Sound]

theorem runCalls_nil (size : Nat) (mem : Bool) : runCalls size mem [] = initTbuff size mem := by
  unfold runCalls
  cases initTbuff size mem <;> rfl

theorem safe_runCalls_take {size : Nat} {mem : Bool} {calls : List Call}
    (hassert : ∀ k, runCalls size mem (calls.take k) ≠ .error .assertFails) (hsize : 0 < size)
    (hfits : FitsAll size mem calls) (k : Nat)
    : Safe (runCalls size mem (calls.take k)) := by
  induction k with
  | zero =>
    have := hassert 0
    rw [List.take_zero, runCalls_nil] at this ⊢
    apply (safe_initTbuff_iff this).mpr hsize
  | succ k ih =>
    cases Nat.lt_or_ge k calls.length with
    | inl hk =>
      have hstep := hassert (k + 1)
      rw [runCalls_take_succ size mem calls k hk] at hstep ⊢
      cases hrun : runCalls size mem (calls.take k) with
      | error e =>
        rw [hrun] at ih
        exact ih
      | ok tBuff =>
        rw [hrun] at hstep ih
        apply ((safe_step_iff ih hstep).mpr _).1
        apply hfits k hk tBuff hrun
    | inr hk =>
      rw [List.take_of_length_le hk] at ih
      rw [List.take_of_length_le (by omega)]
      exact ih

theorem memSafe_iff {size : Nat} {mem : Bool} {calls : List Call}
    (hassert : runCalls size mem calls ≠ .error .assertFails)
    : MemSafe size mem calls ↔ 0 < size ∧ FitsAll size mem calls := by
  have hassert : ∀ k, runCalls size mem (calls.take k) ≠ .error .assertFails :=
    fun k hk => hassert (runCalls_of_take_error k hk)
  have hstep : ∀ k (hk : k < calls.length) tBuff, runCalls size mem (calls.take k) = .ok tBuff →
      tBuff.step (calls.get ⟨k, hk⟩) ≠ .error .assertFails := by
    intro k hk tBuff hrun
    have := hassert (k + 1)
    rwa [runCalls_take_succ size mem calls k hk, hrun] at this
  constructor
  . intro h
    constructor
    . have hinit := hassert 0
      have hsafe := h.1 0
      rw [List.take_zero, runCalls_nil] at hinit hsafe
      apply (safe_initTbuff_iff hinit).mp hsafe
    . intro k hk tBuff hrun
      have hsound := h.1 k
      have hsafe := h.1 (k + 1)
      rw [runCalls_take_succ size mem calls k hk, hrun] at hsafe
      rw [hrun] at hsound
      apply (safe_step_iff hsound (hstep k hk tBuff hrun)).mp
      exact ⟨hsafe, h.2 k hk tBuff hrun⟩
  . intro h
    have hsafe := safe_runCalls_take hassert h.1 h.2
    refine ⟨hsafe, ?_⟩
    intro k hk tBuff hrun
    have hsound := hsafe k
    rw [hrun] at hsound
    apply ((safe_step_iff hsound (hstep k hk tBuff hrun)).mpr _).2
    apply h.2 k hk tBuff hrun

/--
There are seven bytes left for the first call, and the second one needs none.
-/
theorem memSafe_two_calls : MemSafe 8 true [.addByte 65 true, .getByte false] := by
  refine (memSafe_iff (by rintro ⟨⟩)).mpr ⟨by decide, ?_⟩
  intro k hk tBuff hrun
  match k with
  | 0 =>
    cases hrun
    exact .inl (by decide)
  | 1 => trivial

theorem not_memSafe_two_bytes : ¬ MemSafe 1 true [.addBytes ⟨[65, 66], by decide⟩ true] := by
  intro h
  have hsafe := h.1 1
  have hrun : runCalls 1 true [.addBytes ⟨[65, 66], by decide⟩ true] = .error .outOfBounds := by rfl
  rw [List.take_of_length_le (by simp), hrun] at hsafe
  exact hsafe

end TBuffer
