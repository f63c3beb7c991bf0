import Mathlib.Data.List.DropRight
import TrashDb.Utilities.Impl

/-!
This module contains what `internal_filename_from_path` of `utilities.c` does with a path. The backward
scan stays inside the array and the bytes that are copied are the last component if the path has a slash
before it, but the block has no room for the end of the string, which is written behind it.
-/

namespace Utilities

variable {temp : Holder} {path : Pathname} {index count : Nat}

def front (temp : Holder) (n : Nat) : Pathname := (List.range n).map temp

def lastName (path : Pathname) : Pathname := path.rtakeWhile (· ≠ slash)

def trimmed (path : Pathname) : Pathname :=
  if path.getLast? = some slash then path.dropLast else path

@[simp]
theorem length_front (temp : Holder) (n : Nat) : (front temp n).length = n := by
  simp [front]

theorem front_succ (temp : Holder) (n : Nat) : front temp (n + 1) = front temp n ++ [temp n] := by
  simp [front, List.range_succ]

theorem drop_front (temp : Holder) (k n : Nat)
    : (front temp n).drop k = (List.range (n - k)).map fun i => temp (k + i) := by
  apply List.ext_getElem
  . simp
  . intro i hi hi'
    simp [front]

theorem scanBack_eq (hindex : index < maxDirSize)
    : scanBack temp index count = .ok
        (if slash ∈ front temp (index + 1) then
          (index - (lastName (front temp (index + 1))).length,
            count + (lastName (front temp (index + 1))).length)
        else
          (0, count + index)) := by
  induction index generalizing count with
  | zero =>
    have hfront : front temp 1 = [temp 0] := rfl
    simp only [scanBack, Holder.get, if_pos hindex, Nat.zero_add, hfront, Nat.zero_sub, Nat.add_zero]
    by_cases hslash : temp 0 = slash
    . simp [hslash, lastName, List.rtakeWhile, bind, Except.bind, pure, Except.pure]
    . simp [Ne.symm hslash, bind, Except.bind, pure, Except.pure]
  | succ index ih =>
    rw [front_succ temp (index + 1)]
    simp only [scanBack, Holder.get, if_pos hindex, bind, Except.bind]
    by_cases hslash : temp (index + 1) = slash
    . simp [hslash, lastName, List.rtakeWhile_concat_neg, pure, Except.pure]
    . have hname : lastName (front temp (index + 1) ++ [temp (index + 1)]) =
          lastName (front temp (index + 1)) ++ [temp (index + 1)] := by
        exact List.rtakeWhile_concat_pos _ _ _ (by simpa using hslash)
      rw [if_pos hslash, ih (by omega), hname]
      simp only [List.mem_append, List.mem_singleton, Ne.symm hslash, or_false, List.length_append,
        List.length_singleton]
      split
      . congr 2
        . omega
        . omega
      . congr 2
        omega

theorem lastName_suffix (path : Pathname) : lastName path <:+ path := List.rtakeWhile_suffix _ path

theorem length_lastName_lt (h : slash ∈ path) : (lastName path).length < path.length := by
  refine Nat.lt_of_le_of_ne (lastName_suffix path).length_le fun heq => ?_
  have hself := (lastName_suffix path).eq_of_length heq
  have := List.rtakeWhile_eq_self_iff.mp hself slash h
  simp at this

def copied (temp : Holder) (i n : Nat) : Pathname := (List.range n).map fun j => temp (i + 1 + j)

theorem copied_of_mem (hslash : slash ∈ front temp (index + 1))
    : copied temp (index - (lastName (front temp (index + 1))).length)
        (lastName (front temp (index + 1))).length = lastName (front temp (index + 1)) := by
  have hlt := length_lastName_lt hslash
  rw [length_front] at hlt
  have hdrop := List.suffix_iff_eq_drop.mp (lastName_suffix (front temp (index + 1)))
  rw [drop_front, length_front, Nat.sub_sub_self (by omega)] at hdrop
  rw [copied, show index - (lastName (front temp (index + 1))).length + 1 =
    index + 1 - (lastName (front temp (index + 1))).length by omega]
  exact hdrop.symm

theorem copied_of_not_mem : copied temp 0 index = (front temp (index + 1)).tail := by
  rw [← List.drop_one, drop_front, Nat.add_sub_cancel]
  rfl

/--
Without another slash the first byte of the name is lost.
-/
theorem scanBack_names_iff (temp : Holder) (hindex : index < maxDirSize)
    : ∃ i n, scanBack temp index 0 = .ok (i, n) ∧ i + n = index
        ∧ (copied temp i n = lastName (front temp (index + 1)) ↔ slash ∈ front temp (index + 1)) := by
  rw [scanBack_eq hindex]
  by_cases hslash : slash ∈ front temp (index + 1)
  . rw [if_pos hslash, Nat.zero_add]
    have hlt := length_lastName_lt hslash
    rw [length_front] at hlt
    exact ⟨_, _, rfl, by omega, iff_of_true (copied_of_mem hslash) hslash⟩
  . rw [if_neg hslash, Nat.zero_add]
    refine ⟨_, _, rfl, Nat.zero_add index, iff_of_false ?_ hslash⟩
    have hself : lastName (front temp (index + 1)) = front temp (index + 1) := by
      refine List.rtakeWhile_eq_self_iff.mpr fun c hc => ?_
      simp only [decide_eq_true_eq]
      rintro rfl
      exact hslash hc
    rw [copied_of_not_mem, hself]
    intro htail
    have := congrArg List.length htail
    simp at this

def filled (temp : Holder) (path : Pathname) : Holder :=
  fun j => if j < path.length then path.getD j 0 else temp j

def lastIndex (path : Pathname) : Nat :=
  if path.getLast? = some slash then path.length - 2 else path.length - 1

theorem front_filled (temp : Holder) (path : Pathname) : front (filled temp path) path.length = path := by
  apply List.ext_getElem
  . simp
  . intro i hi hi'
    simp [front, filled, hi']

theorem filled_last (temp : Holder) (hmin : 3 ≤ path.length)
    : filled temp path (path.length - 1) = slash ↔ path.getLast? = some slash := by
  rw [List.getLast?_eq_getElem?, List.getElem?_eq_getElem (by omega)]
  simp [filled, show path.length - 1 < path.length by omega]

theorem front_lastIndex (temp : Holder) (hmin : 3 ≤ path.length)
    : front (filled temp path) (lastIndex path + 1) = trimmed path := by
  have hfront := front_filled temp path
  unfold lastIndex trimmed
  split
  . obtain ⟨n, hn⟩ : ∃ n, path.length = n + 1 := ⟨path.length - 1, by omega⟩
    rw [hn, front_succ] at hfront
    rw [hn, show n + 1 - 2 + 1 = n by omega]
    exact (congrArg List.dropLast hfront).symm ▸ List.dropLast_concat.symm
  . rwa [Nat.sub_add_cancel (by omega)]

theorem internalFilenameFromPath_eq (malloc : Nat → Option (Nat → UInt8)) (temp : Holder)
    (hmin : 3 ≤ path.length) (hmax : path.length ≤ maxDirSize - 1)
    : ∃ i n, scanBack (filled temp path) (lastIndex path) 0 = .ok (i, n)
        ∧ (copied (filled temp path) i n = lastName (trimmed path) ↔ slash ∈ trimmed path)
        ∧ internalFilenameFromPath malloc temp path
            = (malloc n).elim (.ok none) fun _ => .error .outOfBounds := by
  have hlast : lastIndex path < maxDirSize := by
    unfold lastIndex maxDirSize at *
    split <;> omega
  obtain ⟨i, n, hscan, hin, hcopied⟩ := scanBack_names_iff (filled temp path) hlast
  rw [front_lastIndex temp hmin] at hcopied
  refine ⟨i, n, hscan, hcopied, ?_⟩
  have hmemcpy : temp.memcpy path = .ok (filled temp path) := by
    rw [Holder.memcpy, if_pos (by omega)]
    rfl
  have hget : (filled temp path).get (path.length - 1) = .ok (filled temp path (path.length - 1)) := by
    rw [Holder.get, if_pos (by unfold maxDirSize at *; omega)]
  have hindex : (if filled temp path (path.length - 1) = slash then path.length - 1 - 1
      else path.length - 1) = lastIndex path := by
    unfold lastIndex
    simp only [filled_last temp hmin]
    rfl
  unfold internalFilenameFromPath
  rw [if_neg (by omega)]
  simp only [hmemcpy, hget, hindex, hscan, bind, Except.bind, Nat.add_eq_zero_iff, Nat.one_ne_zero, and_false,
    if_false]
  cases malloc n with
  | none => rfl
  | some bytes =>
    simp only [pure, Except.pure, Filename.memcpy, Option.elim]
    rw [if_pos ⟨Nat.le_refl n, by omega⟩]
    simp [Filename.set]

def NamesLastComponent (malloc : Nat → Option (Nat → UInt8)) (temp : Holder) (path : Pathname) : Prop :=
  ∃ filename, internalFilenameFromPath malloc temp path = .ok (some filename)
    ∧ filename.string = .ok (lastName (trimmed path))

theorem not_namesLastComponent (malloc : Nat → Option (Nat → UInt8)) (temp : Holder) (path : Pathname)
    : ¬ NamesLastComponent malloc temp path := by
  rintro ⟨filename, hrun, _⟩
  by_cases hlen : path.length > maxDirSize - 1 ∨ path.length < 3
  . rw [internalFilenameFromPath, if_pos hlen] at hrun
    cases hrun
  . have hmin : 3 ≤ path.length := by omega
    have hmax : path.length ≤ maxDirSize - 1 := by omega
    obtain ⟨_, n, _, _, heq⟩ := internalFilenameFromPath_eq malloc temp hmin hmax
    rw [heq] at hrun
    cases hmalloc : malloc n <;> simp [hmalloc] at hrun

/--
The name of `"/ab"` is copied, then the end of the string is written at `filename[2]` of two bytes.
-/
theorem slash_ab_outOfBounds
    : internalFilenameFromPath (fun _ => some fun _ => 0) (fun _ => 0) [47, 97, 98] = .error .outOfBounds
        ∧ ¬ NamesLastComponent (fun _ => some fun _ => 0) (fun _ => 0) [47, 97, 98] := by
  have hrun : internalFilenameFromPath (fun _ => some fun _ => 0) (fun _ => 0) [47, 97, 98]
      = .error .outOfBounds := rfl
  refine ⟨hrun, ?_⟩
  rintro ⟨filename, h, _⟩
  cases hrun.symm.trans h

end Utilities
