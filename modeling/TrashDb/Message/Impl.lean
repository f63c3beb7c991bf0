import Mathlib.Data.List.Basic
import TrashDb.Lib.Word

/-!
This module contains the growing byte buffer of `message.c`.

The bytes behind `data` are a function of their offset, the block that is allocated for them ends at
`capacity`. The field `end` of the source is called `endPos`. All fields and intermediate results are
natural numbers, they are reduced to the width that the source gives them where it matters. A call
that does not return is a `Stop`: an `assert` does not hold, the growth loop does not end or a byte
outside of the allocated block is accessed. The flag `mem` of a call is the answer of the allocator.
-/

open Word

structure TBuffer where
  data : Nat → UInt8
  start : Nat
  endPos : Nat
  capacity : Nat

namespace TBuffer

inductive Stop where
  | assertFails
  | diverges
  | outOfBounds
  deriving DecidableEq, Repr

def uint32Max : Nat := 2 ^ 32 - 1

def defaultTbuffSize : Nat := 1024

def initTbuff (size : Nat) (mem : Bool) : Except Stop TBuffer :=
  let size := if size > defaultTbuffSize then defaultTbuffSize else size
  if mem then
    .ok { data := fun _ => 0, start := 0, endPos := 0, capacity := size }
  else
    .error .assertFails

/--
Note: The numbers in this loop stay far below `2 ^ 64`, the doubling of the `size_t` does not wrap.
The loop is cut off after the given number of turns. 33 turns are enough for every `size` of 32 bits
unless the loop starts at 0, see `growLoop_eq_none_iff`.
-/
def growLoop (size : Nat) : Nat → Nat → Option Nat
  | 0, _ => none
  | turns + 1, needed => if needed < size then growLoop size turns (needed * 2) else some needed

def availSpace (tBuff : TBuffer) : Nat :=
  sub32 tBuff.capacity (add32 tBuff.endPos 1) % 2 ^ 16

def trashRealloc (data : Nat → UInt8) (needed : Nat) : Nat → UInt8 :=
  fun i => if i < needed then data i else 0

def resizeTbuff (tBuff : TBuffer) (size : Nat) (mem : Bool) : Except Stop TBuffer :=
  if tBuff.endPos ≥ uint32Max - size then
    .error .assertFails
  else if size > tBuff.availSpace then
    if tBuff.capacity = uint32Max then
      .error .assertFails
    else
      match growLoop size 33 (mul32 tBuff.capacity 2) with
      | none => .error .diverges
      | some needed =>
        let needed := if needed > uint32Max then uint32Max else needed
        if mem then
          .ok { tBuff with data := trashRealloc tBuff.data needed, capacity := needed }
        else
          .error .assertFails
  else
    .ok tBuff

/--
Writes `bytes` to `data + offset`.
-/
def store (tBuff : TBuffer) (offset : Nat) (bytes : List UInt8) : Except Stop TBuffer :=
  if bytes.length = 0 ∨ offset + bytes.length ≤ tBuff.capacity then
    let data := fun i =>
      if offset ≤ i ∧ i < offset + bytes.length then bytes.getD (i - offset) 0 else tBuff.data i
    .ok { tBuff with data := data }
  else
    .error .outOfBounds

def addBytesToTbuffer (tBuff : TBuffer) (data : List UInt8) (mem : Bool) : Except Stop TBuffer := do
  let tBuff ← tBuff.resizeTbuff data.length mem
  let tBuff ← tBuff.store tBuff.endPos data
  let tBuff := { tBuff with endPos := add32 tBuff.endPos data.length }
  tBuff.store tBuff.endPos [0]

def addByteToTbuffer (tBuff : TBuffer) (data : UInt8) (mem : Bool) : Except Stop TBuffer := do
  let tBuff ← tBuff.resizeTbuff 1 mem
  let tBuff ← tBuff.store tBuff.endPos [data]
  let tBuff := { tBuff with endPos := add32 tBuff.endPos 1 }
  tBuff.store tBuff.endPos [0]

/--
The byte is `none` where the source returns `TRASH_ERROR`.
-/
def getByteFromTbuffer (tBuff : TBuffer) (peek : Bool) : Except Stop (Option UInt8 × TBuffer) :=
  if tBuff.start = tBuff.endPos then
    .ok (none, tBuff)
  else
    let startPtr := tBuff.start
    let tBuff := if peek then tBuff else { tBuff with start := add32 tBuff.start 1 }
    if startPtr < tBuff.capacity then
      .ok (some (tBuff.data startPtr), tBuff)
    else
      .error .outOfBounds

inductive Call where
  | addByte (data : UInt8) (mem : Bool)
  | addBytes (data : { data : List UInt8 // data.length < 2 ^ 32 }) (mem : Bool)
  | getByte (peek : Bool)

def step (tBuff : TBuffer) (call : Call) : Except Stop TBuffer :=
  match call with
  | .addByte data mem => tBuff.addByteToTbuffer data mem
  | .addBytes data mem => tBuff.addBytesToTbuffer data.val mem
  | .getByte peek => (tBuff.getByteFromTbuffer peek).map (·.2)

def runCalls (size : Nat) (mem : Bool) (calls : List Call) : Except Stop TBuffer :=
  (initTbuff size mem).bind fun tBuff => calls.foldlM step tBuff

end TBuffer
