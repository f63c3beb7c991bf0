import TrashDb.Lib.FileSystem

/-!
This module contains the functions of `utilities.c` that create directories and look at names.

The local array of `trash_mkdir` and of `internal_filename_from_path` is its memory, every access to it
is checked, and so is every access to a block of `malloc`. The calls of `mkdir` are returned together
with their answers. A path is the bytes before the end of the string.
-/

namespace Utilities

inductive Stop where
  | outOfBounds
  deriving DecidableEq, Repr

def maxDirSize : Nat := 256

def slash : UInt8 := 47

/--
The regular expression is empty and matches every name.
-/
def validateFilename (_filename : Pathname) : Int := 0

abbrev Holder := Nat → UInt8

namespace Holder

def get (holder : Holder) (i : Nat) : Except Stop UInt8 :=
  if i < maxDirSize then .ok (holder i) else .error .outOfBounds

def set (holder : Holder) (i : Nat) (c : UInt8) : Except Stop Holder :=
  if i < maxDirSize then .ok (fun j => if j = i then c else holder j) else .error .outOfBounds

def memcpy (holder : Holder) (path : Pathname) : Except Stop Holder :=
  if path.length ≤ maxDirSize then
    .ok fun j => if j < path.length then path.getD j 0 else holder j
  else
    .error .outOfBounds

/--
The string at the beginning of the array.
-/
def string (holder : Holder) : Except Stop Pathname :=
  let bytes := (List.range maxDirSize).map holder
  if 0 ∈ bytes then
    .ok (bytes.takeWhile (· ≠ 0))
  else
    .error .outOfBounds

end Holder

variable {σ ν : Type}

/--
The loop with the given number of turns left.
-/
def mkdirLoop (fs : FileSystem σ ν) (mode : Nat)
    : Nat → Nat → Holder → σ → Except Stop (Int × σ × List FileSystem.Call)
  | 0, _, _, s => .ok (0, s, [])
  | left + 1, i, holder, s => do
    if (← holder.get i) = slash ∧ i ≠ 0 then
      let holder ← holder.set i 0
      let path ← holder.string
      let (rc, s) := fs.mkdir path mode s
      if rc ≠ none ∧ rc ≠ some .eexist then
        return (-1, s, [(path, rc)])
      else
        let holder ← holder.set i slash
        let (ret, s, calls) ← mkdirLoop fs mode left (i + 1) holder s
        return (ret, s, (path, rc) :: calls)
    else
      mkdirLoop fs mode left (i + 1) holder s

/--
`holder` is what the array contains at first.
-/
def trashMkdir (fs : FileSystem σ ν) (path : Pathname) (len mode : Nat) (holder : Holder) (s : σ)
    : Except Stop (Int × σ × List FileSystem.Call) :=
  if len > maxDirSize then
    .ok (-1, s, [])
  else do
    let holder ← holder.memcpy (path.take len)
    let holder ← holder.set len 0
    mkdirLoop fs mode len 0 holder s

/--
A block of `malloc` with what it contains.
-/
structure Filename where
  size : Nat
  bytes : Nat → UInt8

namespace Filename

def set (filename : Filename) (i : Nat) (c : UInt8) : Except Stop Filename :=
  if i < filename.size then
    .ok { filename with bytes := fun j => if j = i then c else filename.bytes j }
  else
    .error .outOfBounds

/--
`memcpy(filename, &temp[index], len)`
-/
def memcpy (filename : Filename) (temp : Holder) (index len : Nat) : Except Stop Filename :=
  if len ≤ filename.size ∧ index + len ≤ maxDirSize then
    .ok { filename with bytes := fun j => if j < len then temp (index + j) else filename.bytes j }
  else
    .error .outOfBounds

def string (filename : Filename) : Except Stop Pathname :=
  let bytes := (List.range filename.size).map filename.bytes
  if 0 ∈ bytes then
    .ok (bytes.takeWhile (· ≠ 0))
  else
    .error .outOfBounds

end Filename

/--
The loop reads `temp[index]` before it compares `index`.
-/
def scanBack (temp : Holder) : Nat → Nat → Except Stop (Nat × Nat)
  | 0, filenameLen => do
    let _ ← temp.get 0
    return (0, filenameLen)
  | index + 1, filenameLen => do
    if (← temp.get (index + 1)) ≠ slash then
      scanBack temp index (filenameLen + 1)
    else
      return (index + 1, filenameLen)

/--
`temp` is what the array contains at first, `malloc` gives what a block contains or `NULL`.
-/
def internalFilenameFromPath (malloc : Nat → Option (Nat → UInt8)) (temp : Holder) (path : Pathname)
    : Except Stop (Option Filename) :=
  let len := path.length
  if len > maxDirSize - 1 ∨ len < 3 then
    .ok none
  else do
    let temp ← temp.memcpy path
    let index := len - 1
    let index := if (← temp.get index) = slash then index - 1 else index
    let (index, filenameLen) ← scanBack temp index 0
    let index := index + 1
    if index = 0 then
      if (← temp.get index) ≠ slash then
        return none
    match malloc filenameLen with
    | none => return none
    | some bytes =>
      let filename ← Filename.memcpy ⟨filenameLen, bytes⟩ temp index filenameLen
      let filename ← filename.set filenameLen 0
      return some filename

end Utilities
