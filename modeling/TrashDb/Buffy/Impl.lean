import Mathlib.Data.List.Basic
import TrashDb.Lib.Word

/-!
This module contains the receiving side of `buffy.c`, which assembles messages from the bytes of a
connection, and the encoding of a message by the test client.

The socket is the list of what is going to happen on it. The functions `msg_len_valid` and
`add_bytes_to_message` are declared but not defined in the repository, they are given by an `Api`. A
call that does not return is a `Stop`.
-/

open Word

namespace Buffy

inductive Stop where
  | outOfBounds
  | indeterminate
  | diverges
  deriving DecidableEq, Repr

def recvBuffySize : Nat := 4096

def minPacketLen : Nat := 1

def maxPacketLen : Nat := 8192

def trashMsgLen : Nat := 4

def trashSuccess : Int := 0

def trashError : Int := -1

def trashEof : Int := -2

/--
`EOF` of `stdio.h`
-/
def eof : Int := -1

structure Api where
  msgLenValid : Nat → Bool
  addBytesToMessage : List UInt8 → List UInt8 → List UInt8

inductive Event where
  -- bytes that arrive together
  | bytes (bs : List UInt8)
  | eintr
  | wouldBlock
  | hangup
  deriving DecidableEq, Repr

/--
`sent` holds the message of every call of `data_send`. The source neither empties `msg` nor goes on
with another one there.
-/
structure TrashData where
  kernel : List Event
  recvBuff : Nat → UInt8
  recvBuffPtr : Nat
  recvBuffLen : Nat
  partialMsg : Bool
  remainingMsg : Nat
  msg : List UInt8
  closed : Bool
  sent : List (List UInt8)

/--
`td` after `construct_client`, which leaves the memory of `recvBuff` as `malloc` returned it.
-/
def constructClient (kernel : List Event) (recvBuff : Nat → UInt8) : TrashData where
  kernel := kernel
  recvBuff := recvBuff
  recvBuffPtr := 0
  recvBuffLen := 0
  partialMsg := false
  remainingMsg := 0
  msg := []
  closed := false
  sent := []

def load (buff : Nat → UInt8) (offset len : Nat) : List UInt8 := (List.range' offset len).map buff

def store (buff : Nat → UInt8) (offset : Nat) (bytes : List UInt8) : Nat → UInt8 :=
  fun i => if offset ≤ i ∧ i < offset + bytes.length then bytes.getD (i - offset) 0 else buff i

/--
`htonl` and `ntohl` of a little-endian machine
-/
def htonl (n : Nat) : Nat :=
  n % 256 * 2 ^ 24 + n / 2 ^ 8 % 256 * 2 ^ 16 + n / 2 ^ 16 % 256 * 2 ^ 8 + n / 2 ^ 24 % 256

/--
The `uint32_t` that the first four bytes are the memory of.
-/
def word (bytes : List UInt8) : Nat :=
  (bytes.getD 0 0).toNat + (bytes.getD 1 0).toNat * 2 ^ 8 + (bytes.getD 2 0).toNat * 2 ^ 16 +
    (bytes.getD 3 0).toNat * 2 ^ 24

/--
`message_len` counts the header and the payload.
-/
def constructMessage (message : List UInt8) : List UInt8 :=
  let messageLenEndian := htonl (trashMsgLen + message.length)
  (List.range 4).map (fun i => UInt8.ofNat (messageLenEndian / 2 ^ (i * 8) % 256)) ++ message

namespace TrashData

def recvSpace (td : TrashData) : Nat := sub32 recvBuffySize td.recvBuffLen

def bytesRecv (td : TrashData) : Nat := sub32 td.recvBuffLen td.recvBuffPtr

/--
`recv` stores at the beginning of the buffer, whatever `*endPtr` is.
-/
def recvLoop (td : TrashData) : List Event → Except Stop (Int × TrashData)
  | [] => .ok (trashError, { td with kernel := [] })
  | .eintr :: kernel => td.recvLoop kernel
  | .wouldBlock :: kernel => .ok (trashError, { td with kernel := kernel })
  | .hangup :: kernel => .ok (trashEof, { td with kernel := .hangup :: kernel })
  | .bytes bs :: kernel =>
    let len := min bs.length td.recvSpace
    let kernel := if len < bs.length then .bytes (bs.drop len) :: kernel else kernel
    if len = 0 then
      .ok (trashEof, { td with kernel := kernel })
    else if len ≤ recvBuffySize then
      .ok (trashSuccess,
        {
          td with
          kernel := kernel
          recvBuff := store td.recvBuff 0 (bs.take len)
          recvBuffLen := add32 td.recvBuffLen len
        })
    else
      .error .outOfBounds

def getBytesFromKernel (td : TrashData) : Except Stop (Int × TrashData) :=
  let td := if td.recvBuffPtr ≥ td.recvBuffLen then { td with recvBuffPtr := 0, recvBuffLen := 0 } else td
  if td.recvBuffPtr > 0 then
    let untouched := sub32 td.recvBuffLen td.recvBuffPtr
    if td.recvBuffPtr + untouched ≤ recvBuffySize then
      recvLoop
        {
          td with
          recvBuff := store td.recvBuff 0 (load td.recvBuff td.recvBuffPtr untouched)
          recvBuffPtr := 0
          recvBuffLen := sub32 td.recvBuffLen untouched
        }
        td.kernel
    else
      .error .outOfBounds
  else
    td.recvLoop td.kernel

def getBytesFromBuff (td : TrashData) (strgLen : Nat) : Except Stop (List UInt8 × TrashData) :=
  let amnt := sub32 td.recvBuffLen td.recvBuffPtr % 2 ^ 16
  let amnt := if strgLen < amnt then strgLen else amnt
  if td.recvBuffPtr + amnt ≤ recvBuffySize then
    .ok (load td.recvBuff td.recvBuffPtr amnt, { td with recvBuffPtr := add32 td.recvBuffPtr amnt })
  else
    .error .outOfBounds

def closeClientInternal (td : TrashData) : TrashData := { td with closed := true }

def dataSend (td : TrashData) : TrashData := { td with sent := td.sent ++ [td.msg] }

end TrashData

/--
What a pass through `buffer_read_cb` from its label ends with.
-/
inductive Pass where
  | getMoreData (availBytes : Option Nat) (td : TrashData)
  | done (td : TrashData)

namespace TrashData

/--
The label and the first branch of `buffer_read_cb`. `availBytes` is `none` as long as nothing has been
assigned to it. Since `EOF` is `TRASH_ERROR`, the second test is never reached.
-/
def receive (td : TrashData) (availBytes : Option Nat) : Except Stop (Pass ⊕ (Option Nat × TrashData)) :=
  if td.recvSpace > 0 then
    match td.getBytesFromKernel with
    | .error e => .error e
    | .ok (rc, td) =>
      if rc = eof then
        .ok (.inl (.done td.closeClientInternal))
      else if rc = trashError then
        .ok (.inl (.done td))
      else if td.bytesRecv = 0 then
        .ok (.inl (.getMoreData (some 0) td))
      else
        .ok (.inr (some td.bytesRecv, td))
  else
    .ok (.inr (availBytes, td))

/--
The end of `buffer_read_cb`, from the second test of `partialMsg` on.
-/
def deliver (api : Api) (td : TrashData) (availBytes : Nat) : Except Stop Pass :=
  if td.partialMsg then
    if td.recvBuffPtr + availBytes ≤ recvBuffySize then
      let td := { td with msg := api.addBytesToMessage td.msg (load td.recvBuff td.recvBuffPtr availBytes) }
      if td.remainingMsg > 0 then
        .ok (.getMoreData (some availBytes) td)
      else
        .ok (.done { td with partialMsg := false }.dataSend)
    else
      .error .outOfBounds
  else
    .ok (.done td.dataSend)

def assemble (api : Api) (td : TrashData) (availBytes : Nat) : Except Stop Pass :=
  if td.partialMsg then
    let availBytes := if td.remainingMsg < availBytes then td.remainingMsg else availBytes
    deliver api { td with remainingMsg := td.remainingMsg - availBytes } availBytes
  else if availBytes < trashMsgLen then
    .ok (.getMoreData (some availBytes) td)
  else
    match td.getBytesFromBuff 4 with
    | .error e => .error e
    | .ok (strg, td) =>
      if strg.length < 4 then
        .error .indeterminate
      else
        let len := sub32 (htonl (word strg)) 4
        if api.msgLenValid len then
          let availBytes := if len < availBytes then len else availBytes
          deliver api
            {
              td with
              remainingMsg := len - availBytes
              partialMsg := decide (len - availBytes > 0)
            }
            availBytes
        else
          .ok (.done td.closeClientInternal)

def pass (api : Api) (td : TrashData) (availBytes : Option Nat) : Except Stop Pass :=
  match td.receive availBytes with
  | .error e => .error e
  | .ok (.inl p) => .ok p
  | .ok (.inr (none, _)) => .error .indeterminate
  | .ok (.inr (some availBytes, td)) => assemble api td availBytes

def readLoop (api : Api) : Nat → TrashData → Option Nat → Except Stop TrashData
  | 0, _, _ => .error .diverges
  | turns + 1, td, availBytes =>
    match td.pass api availBytes with
    | .error e => .error e
    | .ok (.done td) => .ok td
    | .ok (.getMoreData availBytes td) => readLoop api turns td availBytes

/--
The callback, cut off after the given number of turns of its loop.
-/
def bufferReadCb (api : Api) (turns : Nat) (td : TrashData) : Except Stop TrashData :=
  readLoop api turns td none

/--
The callback is called again and again, until the client is closed.
-/
def callbacks (api : Api) (turns : Nat) : Nat → TrashData → Except Stop TrashData
  | 0, td => .ok td
  | n + 1, td =>
    if td.closed then
      .ok td
    else
      match td.bufferReadCb api turns with
      | .error e => .error e
      | .ok td => callbacks api turns n td

end TrashData

end Buffy
