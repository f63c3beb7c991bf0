import Mathlib.Data.List.Basic

/-!
This module contains blocks of bytes. Every access is checked: an access outside of the block and the
use of a byte that has never been written stop the program. Bytes may be copied before they are written,
the copy is as indeterminate as they are.
-/

structure ByteBlock where
  size : Nat
  byte : Nat → Option UInt8

namespace ByteBlock

inductive Stop where
  | outOfBounds
  | indeterminate
  deriving DecidableEq, Repr

def uninit (size : Nat) : ByteBlock := ⟨size, fun _ => none⟩

def zero (size : Nat) : ByteBlock := ⟨size, fun _ => some 0⟩

def read (b : ByteBlock) (i : Nat) : Except Stop UInt8 :=
  if i < b.size then
    match b.byte i with
    | none => .error .indeterminate
    | some c => .ok c
  else
    .error .outOfBounds

def write (b : ByteBlock) (i : Nat) (cs : List UInt8) : Except Stop ByteBlock :=
  if i + cs.length ≤ b.size then
    .ok { b with byte := fun k => if i ≤ k ∧ k < i + cs.length then cs[k - i]? else b.byte k }
  else
    .error .outOfBounds

/--
`memcpy(&b[i], &src[j], n)`
-/
def memcpy (b : ByteBlock) (i : Nat) (src : ByteBlock) (j n : Nat) : Except Stop ByteBlock :=
  if i + n ≤ b.size ∧ j + n ≤ src.size then
    .ok { b with byte := fun k => if i ≤ k ∧ k < i + n then src.byte (j + (k - i)) else b.byte k }
  else
    .error .outOfBounds

/--
`snprintf(&b[i], size, ..)` for the formatted text.
-/
def snprintf (b : ByteBlock) (i size : Nat) (text : List UInt8) : Except Stop ByteBlock :=
  b.write i (text.take (size - 1) ++ [0])

def strlenLoop (b : ByteBlock) : Nat → Nat → Except Stop Nat
  | 0, _ => .error .outOfBounds
  | left + 1, i => do
    if (← b.read i) = 0 then
      return 0
    else
      return (← strlenLoop b left (i + 1)) + 1

def strlen (b : ByteBlock) (i : Nat) : Except Stop Nat := b.strlenLoop (b.size - i + 1) i

def slice (b : ByteBlock) (i n : Nat) : List (Option UInt8) := (List.range n).map fun k => b.byte (i + k)

variable {b b' src : ByteBlock} {i j k n : Nat} {cs : List UInt8} {c : UInt8}

theorem read_eq_ok (hk : k < b.size) (hc : b.byte k = some c) : b.read k = .ok c := by
  rw [read, if_pos hk, hc]

theorem write_eq (b : ByteBlock) (i : Nat) (cs : List UInt8) (h : i + cs.length ≤ b.size)
    : ∃ b', b.write i cs = .ok b' ∧ b'.size = b.size
        ∧ (∀ k (hk : k < cs.length), b'.byte (i + k) = some cs[k])
        ∧ ∀ k, k < i ∨ i + cs.length ≤ k → b'.byte k = b.byte k := by
  refine ⟨_, if_pos h, rfl, ?_, ?_⟩
  . intro k hk
    simp [hk]
  . intro k hk
    exact if_neg (by omega)

theorem write_frame (h : b.write i cs = .ok b') (hk : k < i) : b'.size = b.size ∧ b'.byte k = b.byte k := by
  unfold write at h
  split at h
  . cases h
    exact ⟨rfl, if_neg (by omega)⟩
  . cases h

theorem memcpy_eq (b : ByteBlock) (i : Nat) (src : ByteBlock) (j n : Nat) (hb : i + n ≤ b.size)
    (hsrc : j + n ≤ src.size)
    : ∃ b', b.memcpy i src j n = .ok b' ∧ b'.size = b.size
        ∧ (∀ k, k < n → b'.byte (i + k) = src.byte (j + k))
        ∧ ∀ k, k < i ∨ i + n ≤ k → b'.byte k = b.byte k := by
  refine ⟨_, if_pos ⟨hb, hsrc⟩, rfl, ?_, ?_⟩
  . intro k hk
    simp [hk]
  . intro k hk
    exact if_neg (by omega)

theorem strlen_of_zero (hi : i < b.size) (hzero : b.byte i = some 0) : b.strlen i = .ok 0 := by
  simp [strlen, strlenLoop, read_eq_ok hi hzero, bind, Except.bind, pure, Except.pure]

theorem slice_eq_slice_iff : b'.slice i n = b.slice j n ↔ ∀ k, k < n → b'.byte (i + k) = b.byte (j + k) := by
  rw [slice, slice, List.map_inj_left]
  simp

theorem slice_eq_map (h : ∀ k (hk : k < cs.length), b.byte (i + k) = some cs[k])
    : b.slice i cs.length = cs.map some := by
  apply List.ext_getElem
  . simp [slice]
  . intro k hk hk'
    simp only [List.length_map] at hk'
    simp [slice, h k hk']

end ByteBlock
