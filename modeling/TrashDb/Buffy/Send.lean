import TrashDb.Buffy.Impl

/-!
This module contains the sending side of `buffy.c`.

The fields of `SendBuff` are the ones that `buffy.c` uses, the repository does not define the struct.
`flush_data` gets the memory that `sendBuff` points to, and what `send` is going to answer. The
helpers that put bytes into the buffer work on the blocks that are allocated, found by their address,
because one of them frees a block.
-/

namespace Buffy

structure SendBuff where
  startPtr : Nat
  endPtr : Nat
  deriving DecidableEq, Repr

inductive SendAnswer where
  -- the kernel takes as many bytes as it is offered, but not more than `len`
  | sent (len : Nat)
  | eintr
  | fails
  deriving DecidableEq, Repr

structure Flushed where
  rc : Int
  sb : SendBuff
  -- the bytes that the kernel has accepted
  accepted : List UInt8
  deriving DecidableEq, Repr

def Flushed.after (bytes : List UInt8) (flushed : Flushed) : Flushed :=
  { flushed with accepted := bytes ++ flushed.accepted }

/--
The loop ends with the answers, the `send` that has none fails. `send` is given the beginning of the
buffer every time, and `startPtr` is moved by the total.
-/
def flushLoop (sendBuff : Nat → UInt8) (sb : SendBuff) (len : Nat) : List SendAnswer → Flushed
  | [] =>
    if sb.startPtr < sb.endPtr then
      ⟨trashError, sb, []⟩
    else
      ⟨trashSuccess, ⟨0, 0⟩, []⟩
  | answer :: answers =>
    if sb.startPtr < sb.endPtr then
      match answer with
      | .eintr => flushLoop sendBuff sb len answers
      | .fails => ⟨trashError, sb, []⟩
      | .sent n =>
        let rc := min n (sb.endPtr - sb.startPtr)
        if rc = 0 then
          ⟨trashEof, sb, []⟩
        else
          let len := len + rc
          (flushLoop sendBuff { sb with startPtr := sb.startPtr + len } len answers).after (load sendBuff 0 rc)
    else
      ⟨trashSuccess, ⟨0, 0⟩, []⟩

def flushData (sendBuff : Nat → UInt8) (sb : SendBuff) (answers : List SendAnswer) : Flushed :=
  flushLoop sendBuff sb 0 answers

structure Block where
  size : Nat
  bytes : Nat → UInt8

abbrev Heap := Nat → Option Block

namespace Heap

/--
`realloc` gives back the block at `newPtr`, which is either the same address or one that is free.
-/
def trashRealloc (heap : Heap) (ptr newPtr needed : Nat) : Heap :=
  match heap ptr with
  | none => heap
  | some block =>
    fun p =>
      if p = newPtr then
        some { size := needed, bytes := fun i => if i < block.size then block.bytes i else 0 }
      else if p = ptr then
        none
      else
        heap p

def memmove (heap : Heap) (ptr offset : Nat) (bytes : List UInt8) : Except Stop Heap :=
  match heap ptr with
  | none => .error .outOfBounds
  | some block =>
    if bytes.length = 0 ∨ offset + bytes.length ≤ block.size then
      .ok fun p => if p = ptr then some { block with bytes := store block.bytes offset bytes } else heap p
    else
      .error .outOfBounds

end Heap

/--
What the arguments of `put_bytes_on_buff` point to. The address of the buffer itself is a value.
-/
structure PutArgs where
  heap : Heap
  sendBuff : Nat
  sendBuffLen : Nat
  startPtr : Nat
  endPtr : Nat

/--
Returns what `*sendBuff` and `*sendBuffLen` are then.
-/
def resizeSendBuff (heap : Heap) (sendBuff sendBuffLen needed newPtr : Nat) : Heap × Nat × Nat :=
  if needed > sendBuffLen then
    (heap.trashRealloc sendBuff newPtr needed, newPtr, needed)
  else
    (heap, sendBuff, sendBuffLen)

/--
`newPtr` is what `realloc` answers if it is called.
-/
def putBytesOnBuff (args : PutArgs) (fromBuff : List UInt8) (newPtr : Nat) : Except Stop PutArgs := do
  let sendBuffSpace := args.sendBuffLen - args.endPtr
  let (heap, sendBuff, sendBuffLen) :=
    if fromBuff.length > sendBuffSpace then
      resizeSendBuff args.heap args.sendBuff args.sendBuffLen (fromBuff.length - sendBuffSpace) newPtr
    else
      (args.heap, args.sendBuff, args.sendBuffLen)
  let heap ← heap.memmove sendBuff args.endPtr fromBuff
  -- the caller goes on with the address it has passed
  return {
    args with
    heap := heap
    sendBuffLen := sendBuffLen
    endPtr := args.endPtr + fromBuff.length
  }

end Buffy
