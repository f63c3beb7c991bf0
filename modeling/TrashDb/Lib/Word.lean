import Mathlib.Algebra.Group.Nat.Defs
import Mathlib.Data.Nat.Basic

/-!
This module contains the addition, subtraction and multiplication of unsigned numbers of 32 bits. The
subtraction avoids the sum of a variable and `2 ^ 32`, which the kernel would unfold as a numeral.
-/

namespace Word

def add32 (a b : Nat) : Nat := (a + b) % 2 ^ 32

def sub32 (a b : Nat) : Nat := if b ≤ a then a - b else 2 ^ 32 - (b - a)

def mul32 (a b : Nat) : Nat := a * b % 2 ^ 32

theorem add32_of_lt {a b : Nat} (h : a + b < 2 ^ 32) : add32 a b = a + b := by
  unfold add32
  rw [Nat.mod_eq_of_lt h]

theorem add32_lt (a b : Nat) : add32 a b < 2 ^ 32 := by
  unfold add32
  apply Nat.mod_lt
  decide

theorem sub32_of_le {a b : Nat} (h : b ≤ a) : sub32 a b = a - b := by
  unfold sub32
  rw [if_pos h]

theorem sub32_lt {a b : Nat} (ha : a < 2 ^ 32) : sub32 a b < 2 ^ 32 := by
  unfold sub32
  split <;> omega

theorem sub32_add32_one {a : Nat} (ha : a < 2 ^ 32) : sub32 (add32 a 1) 1 = a := by
  unfold sub32 add32
  split <;> omega

theorem sub32_one_ne {a : Nat} (ha : a < 2 ^ 32) : sub32 a 1 ≠ a := by
  unfold sub32
  split <;> omega

end Word
