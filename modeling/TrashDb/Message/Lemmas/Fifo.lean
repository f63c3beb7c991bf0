import TrashDb.Lib.Fifo
import TrashDb.Message.Lemmas.Bounds

/-!
This module contains the buffer of `message.c` as a queue of bytes: the bytes between `start` and
`end` are the queue, whatever the capacity is. A `resize_tbuff` keeps the bytes below the new
capacity, and when the bytes of the call are then written inside of the block, these are all bytes of
the buffer.
-/

open Word

namespace TBuffer

def window (tBuff : TBuffer) : List UInt8 :=
  (List.range' tBuff.start (tBuff.endPos - tBuff.start)).map tBuff.data

namespace Call

def op : Call → Fifo.Op UInt8
  | .addByte data _ => .push [data]
  | .addBytes data _ => .push data.val
  | .getByte true => .peek
  | .getByte false => .pop

end Call

/--
A call with what it returns, which is `none` for the functions that return nothing.
-/
def exec (tBuff : TBuffer) (call : Call) : Except Stop (Fifo.Answer UInt8 × TBuffer) :=
  match call with
  | .addByte data mem => (tBuff.addByteToTbuffer data mem).map (none, ·)
  | .addBytes data mem => (tBuff.addBytesToTbuffer data.val mem).map (none, ·)
  | .getByte peek => (tBuff.getByteFromTbuffer peek).map fun (byte, tBuff) => (some byte, tBuff)

def execCalls (tBuff : TBuffer) : List Call → Except Stop (List (Fifo.Answer UInt8) × TBuffer)
  | [] => .ok ([], tBuff)
  | call :: calls => do
    let (answer, tBuff) ← tBuff.exec call
    let (answers, tBuff) ← tBuff.execCalls calls
    return (answer :: answers, tBuff)

theorem resizeTbuff_data {tBuff tBuff' : TBuffer} {size : Nat} {mem : Bool}
    (h : tBuff.resizeTbuff size mem = .ok tBuff') (i : Nat) (hi : i < tBuff'.capacity)
    : tBuff'.data i = tBuff.data i := by
  unfold resizeTbuff at h
  split at h
  . cases h
  . split at h
    . split at h
      . cases h
      . split at h
        . cases h
        . dsimp only at h
          split at h
          . cases h
            simp only [trashRealloc]
            rw [if_pos hi]
          . cases h
    . cases h
      rfl

theorem addBytesToTbuffer_ok {tBuff tBuff' : TBuffer} {data : List UInt8} {mem : Bool}
    (h : tBuff.addBytesToTbuffer data mem = .ok tBuff')
    : ∃ resized, tBuff.resizeTbuff data.length mem = .ok resized ∧
        tBuff.endPos + data.length + 1 ≤ resized.capacity := by
  cases hres : tBuff.resizeTbuff data.length mem with
  | error e =>
    rw [addBytesToTbuffer_of_error hres] at h
    cases h
  | ok resized =>
    refine ⟨resized, rfl, ?_⟩
    by_contra hroom
    rw [(addBytesToTbuffer_of_resize hres).2 hroom] at h
    cases h

theorem addBytesToTbuffer_data {tBuff tBuff' : TBuffer} {data : List UInt8} {mem : Bool}
    (h : tBuff.addBytesToTbuffer data mem = .ok tBuff')
    : (∀ i < tBuff.endPos, tBuff'.data i = tBuff.data i) ∧
      ∀ j < data.length, tBuff'.data (tBuff.endPos + j) = data.getD j 0 := by
  obtain ⟨resized, hres, hroom⟩ := addBytesToTbuffer_ok h
  obtain ⟨hstart, hend, hmax⟩ := resizeTbuff_ok hres
  have hkept := resizeTbuff_data hres
  have hwrap : add32 tBuff.endPos data.length = tBuff.endPos + data.length := by
    apply add32_of_lt
    unfold uint32Max at hmax
    omega
  simp only [addBytesToTbuffer, hres, store, hend, bind, Except.bind] at h
  rw [if_pos (by omega)] at h
  simp only [List.length_singleton, hwrap] at h
  rw [if_pos (by omega)] at h
  cases h
  constructor
  . intro i hi
    dsimp only
    rw [if_neg (by omega), if_neg (by omega)]
    exact hkept i (by omega)
  . intro j hj
    dsimp only
    rw [if_neg (by omega), if_pos (by omega), Nat.add_sub_cancel_left]

theorem window_addBytes {tBuff tBuff' : TBuffer} {data : List UInt8} {mem : Bool}
    (hle : tBuff.start ≤ tBuff.endPos) (h : tBuff.addBytesToTbuffer data mem = .ok tBuff')
    : tBuff'.window = tBuff.window ++ data := by
  obtain ⟨resized, hres, hroom⟩ := addBytesToTbuffer_ok h
  obtain ⟨hkept, hnew⟩ := addBytesToTbuffer_data h
  obtain ⟨tBuff'', heq, hstart, hend, -⟩ := (addBytesToTbuffer_of_resize hres).1 hroom
  rw [h] at heq
  cases heq
  have hlen : tBuff'.endPos - tBuff'.start = (tBuff.endPos - tBuff.start) + data.length := by omega
  unfold window
  rw [hlen, hstart, ← List.range'_append_1, List.map_append]
  congr 1
  . apply List.map_congr_left
    intro i hi
    rw [List.mem_range'_1] at hi
    exact hkept i (by omega)
  . apply List.ext_getElem
    . simp
    . intro j hj hj'
      have := hnew j hj'
      simp only [List.getElem_map, List.getElem_range', Nat.one_mul]
      rw [show tBuff.start + (tBuff.endPos - tBuff.start) + j = tBuff.endPos + j by omega, this]
      simp [List.getD_eq_getElem?_getD, hj']

/--
The positions are in order. A buffer of capacity 0 has no place for its terminator and stays empty.
-/
structure Ordered (tBuff : TBuffer) : Prop where
  start_le : tBuff.start ≤ tBuff.endPos
  end_lt : tBuff.endPos = 0 ∨ tBuff.endPos < tBuff.capacity
  end_word : tBuff.endPos < 2 ^ 32

namespace Ordered

variable {tBuff tBuff' : TBuffer}

theorem init {size : Nat} {mem : Bool} (h : initTbuff size mem = .ok tBuff)
    : tBuff.Ordered ∧ tBuff.window = [] := by
  unfold initTbuff at h
  dsimp only at h
  cases mem with
  | false => cases h
  | true =>
    cases h
    exact ⟨⟨Nat.le_refl _, .inl rfl, Nat.two_pow_pos 32⟩, rfl⟩

theorem addBytes {data : List UInt8} {mem : Bool} (h : tBuff.Ordered)
    (hadd : tBuff.addBytesToTbuffer data mem = .ok tBuff')
    : tBuff'.Ordered := by
  obtain ⟨resized, hres, hroom⟩ := addBytesToTbuffer_ok hadd
  obtain ⟨tBuff'', heq, hstart, hend, hcap⟩ := (addBytesToTbuffer_of_resize hres).1 hroom
  rw [hadd] at heq
  cases heq
  have hmax := (resizeTbuff_ok hres).2.2
  have := h.start_le
  unfold uint32Max at hmax
  exact ⟨by omega, .inr (by omega), by omega⟩

theorem window_eq_nil_iff (h : tBuff.Ordered) : tBuff.window = [] ↔ tBuff.start = tBuff.endPos := by
  have := h.start_le
  simp only [window, List.map_eq_nil_iff, List.range'_eq_nil_iff]
  omega

theorem getByte (h : tBuff.Ordered) (peek : Bool)
    : ∃ tBuff', tBuff.getByteFromTbuffer peek = .ok (tBuff.window.head?, tBuff') ∧ tBuff'.Ordered ∧
        tBuff'.window = (if peek then tBuff.window else tBuff.window.tail) ∧
        (peek = true ∨ tBuff.window = [] → tBuff' = tBuff) := by
  have hle := h.start_le
  by_cases hempty : tBuff.start = tBuff.endPos
  . have hnil := h.window_eq_nil_iff.mpr hempty
    refine ⟨tBuff, ?_, h, ?_, fun _ => rfl⟩
    . rw [getByteFromTbuffer, if_pos hempty, hnil]
      rfl
    . rw [hnil]
      cases peek <;> rfl
  . have hcap : tBuff.start < tBuff.capacity := by
      have := h.end_lt
      omega
    have hwindow : tBuff.window =
        tBuff.data tBuff.start ::
          (List.range' (tBuff.start + 1) (tBuff.endPos - (tBuff.start + 1))).map tBuff.data := by
      rw [window, show tBuff.endPos - tBuff.start = tBuff.endPos - (tBuff.start + 1) + 1 by omega,
        List.range'_succ, List.map_cons]
    have hne : tBuff.window ≠ [] := by
      rw [hwindow]
      nofun
    have hwrap : add32 tBuff.start 1 = tBuff.start + 1 := by
      apply add32_of_lt
      have := h.end_word
      omega
    rw [getByteFromTbuffer, if_neg hempty]
    cases peek with
    | true =>
      refine ⟨tBuff, ?_, h, rfl, fun _ => rfl⟩
      simp only [if_pos, hcap, hwindow, List.head?_cons]
    | false =>
      simp only [Bool.false_eq_true, if_false, if_pos hcap, hwrap]
      refine ⟨{ tBuff with start := tBuff.start + 1 }, by rw [hwindow]; rfl,
        ⟨?_, h.end_lt, h.end_word⟩, ?_, ?_⟩
      . show tBuff.start + 1 ≤ tBuff.endPos
        omega
      . rw [hwindow]
        rfl
      . rintro (hpeek | hnil)
        . cases hpeek
        . exact absurd hnil hne

theorem exec {call : Call} {answer : Fifo.Answer UInt8} (h : tBuff.Ordered)
    (hexec : tBuff.exec call = .ok (answer, tBuff'))
    : tBuff'.Ordered ∧ Fifo.step tBuff.window call.op = (answer, tBuff'.window) := by
  have hadd : ∀ data mem, (tBuff.addBytesToTbuffer data mem).map (none, ·) = .ok (answer, tBuff') →
      tBuff'.Ordered ∧ Fifo.step tBuff.window (.push data) = (answer, tBuff'.window) := by
    intro data mem hmap
    cases hres : tBuff.addBytesToTbuffer data mem with
    | error e =>
      rw [hres] at hmap
      cases hmap
    | ok tBuff'' =>
      rw [hres] at hmap
      cases hmap
      refine ⟨h.addBytes hres, ?_⟩
      rw [window_addBytes h.start_le hres]
      rfl
  cases call with
  | addByte data mem => exact hadd [data] mem hexec
  | addBytes data mem => exact hadd data.val mem hexec
  | getByte peek =>
    obtain ⟨tBuff'', hget, hordered, hwindow, -⟩ := h.getByte peek
    rw [TBuffer.exec, hget] at hexec
    cases hexec
    refine ⟨hordered, ?_⟩
    rw [hwindow]
    cases peek <;> rfl

theorem execCalls {calls : List Call} {answers : List (Fifo.Answer UInt8)} (h : tBuff.Ordered)
    (hexec : tBuff.execCalls calls = .ok (answers, tBuff'))
    : tBuff'.Ordered ∧ Fifo.run tBuff.window (calls.map Call.op) = (answers, tBuff'.window) := by
  induction calls generalizing tBuff answers with
  | nil =>
    cases hexec
    exact ⟨h, rfl⟩
  | cons call calls ih =>
    rw [TBuffer.execCalls] at hexec
    cases hcall : tBuff.exec call with
    | error e =>
      rw [hcall] at hexec
      cases hexec
    | ok res =>
      obtain ⟨answer, mid⟩ := res
      obtain ⟨hmid, hstep⟩ := h.exec hcall
      rw [hcall] at hexec
      cases hrest : mid.execCalls calls with
      | error e =>
        simp only [bind, Except.bind, hrest] at hexec
        cases hexec
      | ok res =>
        obtain ⟨answers, last⟩ := res
        simp only [bind, Except.bind, hrest] at hexec
        cases hexec
        obtain ⟨hlast, hrun⟩ := ih hmid hrest
        refine ⟨hlast, ?_⟩
        simp [Fifo.run, hstep, hrun]

end Ordered

/--
The queue after any calls that all returned: `answers` is what the calls have returned, the bytes of
the `get_byte_from_tbuffer` calls that were no peeks are taken out.
-/
structure IsFifo (tBuff : TBuffer) (calls : List Call) (answers : List (Fifo.Answer UInt8)) : Prop where
  history : Fifo.taken (calls.map Call.op) answers ++ tBuff.window = Fifo.added (calls.map Call.op)
  growth : ∀ data mem tBuff', tBuff.addBytesToTbuffer data mem = .ok tBuff' →
    (∃ resized, tBuff.resizeTbuff data.length mem = .ok resized ∧ resized.window = tBuff.window) ∧
    tBuff'.window = tBuff.window ++ data
  peek : ∃ byte tBuff', tBuff.getByteFromTbuffer true = .ok (byte, tBuff) ∧
    tBuff.getByteFromTbuffer false = .ok (byte, tBuff')
  consumed : (∃ tBuff', tBuff.getByteFromTbuffer false = .ok (none, tBuff')) ↔
    Fifo.taken (calls.map Call.op) answers = Fifo.added (calls.map Call.op)
  unchanged : ∀ peek tBuff', tBuff.getByteFromTbuffer peek = .ok (none, tBuff') → tBuff' = tBuff

theorem window_resize {tBuff resized : TBuffer} {size : Nat} {mem : Bool}
    (hres : tBuff.resizeTbuff size mem = .ok resized) (hcap : tBuff.endPos ≤ resized.capacity)
    : resized.window = tBuff.window := by
  obtain ⟨hstart, hend, -⟩ := resizeTbuff_ok hres
  unfold window
  rw [hstart, hend]
  apply List.map_congr_left
  intro i hi
  rw [List.mem_range'_1] at hi
  exact resizeTbuff_data hres i (by omega)

theorem isFifo_of_execCalls {size : Nat} {mem : Bool} {calls : List Call} {tBuff tBuff' : TBuffer}
    {answers : List (Fifo.Answer UInt8)} (hinit : initTbuff size mem = .ok tBuff)
    (hexec : tBuff.execCalls calls = .ok (answers, tBuff'))
    : tBuff'.IsFifo calls answers := by
  obtain ⟨hordered, hwindow⟩ := Ordered.init hinit
  obtain ⟨hordered', hrun⟩ := hordered.execCalls hexec
  rw [hwindow] at hrun
  have hanswers : answers = (Fifo.run [] (calls.map Call.op)).1 := by rw [hrun]
  have hleft : tBuff'.window = (Fifo.run [] (calls.map Call.op)).2 := by rw [hrun]
  obtain ⟨peeked, hpeek, -, -, hsame⟩ := hordered'.getByte true
  obtain ⟨popped, hpop, -, -, hsame'⟩ := hordered'.getByte false
  cases hsame (.inl rfl)
  constructor
  . rw [hanswers, hleft]
    exact Fifo.taken_append [] _
  . intro data mem last hadd
    obtain ⟨resized, hres, hroom⟩ := addBytesToTbuffer_ok hadd
    exact ⟨⟨resized, hres, window_resize hres (by omega)⟩, window_addBytes hordered'.start_le hadd⟩
  . exact ⟨_, popped, hpeek, hpop⟩
  . rw [hanswers, Fifo.taken_eq_added_iff, ← hleft]
    constructor
    . rintro ⟨last, hlast⟩
      rw [hpop] at hlast
      cases hwin : tBuff'.window with
      | nil => rfl
      | cons b bs =>
        rw [hwin] at hlast
        cases hlast
    . intro hnil
      rw [hnil] at hpop
      exact ⟨popped, hpop⟩
  . intro peek last hlast
    obtain ⟨next, hnext, -, -, hsame⟩ := hordered'.getByte peek
    rw [hlast] at hnext
    simp only [Except.ok.injEq, Prod.mk.injEq] at hnext
    rw [hnext.2]
    exact hsame (.inr (List.head?_eq_none_iff.mp hnext.1.symm))

def grown : List Call :=
  [.addByte 200 true, .getByte true, .addBytes ⟨[1, 2], by decide⟩ true, .getByte false]

theorem isFifo_grown
    : ∃ tBuff tBuff', initTbuff 2 true = .ok tBuff ∧
        tBuff.execCalls grown = .ok ([none, some (some 200), none, some (some 200)], tBuff') ∧
        tBuff'.IsFifo grown [none, some (some 200), none, some (some 200)] := by
  obtain ⟨tBuff, tBuff', hinit, hexec⟩ : ∃ tBuff tBuff', initTbuff 2 true = .ok tBuff ∧
      tBuff.execCalls grown = .ok ([none, some (some 200), none, some (some 200)], tBuff') :=
    ⟨_, _, rfl, rfl⟩
  exact ⟨tBuff, tBuff', hinit, hexec, isFifo_of_execCalls hinit hexec⟩

end TBuffer
