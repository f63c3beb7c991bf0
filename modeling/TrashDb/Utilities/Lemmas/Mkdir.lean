import TrashDb.Lib.Tree
import TrashDb.Utilities.Impl

/-!
This module contains what `trash_mkdir` of `utilities.c` creates: the directories that the path names
before its slashes, unless the path is as long as the array that it is copied to.
-/

namespace Utilities

open FileSystem

variable {σ ν : Type} {fs : FileSystem σ ν}

/--
The prefixes of `path` that end before a slash at one of the given number of positions from `i` on.
-/
def parentsFrom (path : Pathname) (i left : Nat) : List Pathname :=
  ((List.range' i left).filter fun i => path[i]? = some slash ∧ i ≠ 0).map fun i => path.take i

def parents (path : Pathname) : List Pathname := parentsFrom path 0 path.length

def Holds (holder : Holder) (path : Pathname) : Prop :=
  (∀ i (hi : i < path.length), holder i = path[i]) ∧ holder path.length = 0

theorem string_cut {holder : Holder} {path : Pathname} {i : Nat} (h : Holds holder path) (hnul : 0 ∉ path)
    (hi : i < path.length) (hmax : path.length < maxDirSize)
    : Holder.string (fun j => if j = i then 0 else holder j) = .ok (path.take i) := by
  have hbytes : (List.range maxDirSize).map (fun j => if j = i then 0 else holder j) =
      path.take i ++ 0 :: (List.range' (i + 1) (maxDirSize - (i + 1))).map holder := by
    have hsplit : List.range maxDirSize =
        List.range' 0 i ++ i :: List.range' (i + 1) (maxDirSize - (i + 1)) := by
      have happend := List.range'_append_1 (s := 0) (m := i) (n := maxDirSize - (i + 1) + 1)
      rw [Nat.zero_add, show i + (maxDirSize - (i + 1) + 1) = maxDirSize by omega] at happend
      rw [← List.range'_succ, List.range_eq_range', happend]
    rw [hsplit, List.map_append, List.map_cons, if_pos rfl]
    congr 1
    . apply List.ext_getElem
      . simp
        omega
      . intro j hj hj'
        have hlt : j < i := by simpa using hj
        simp only [List.getElem_map, List.getElem_range', Nat.one_mul, Nat.zero_add, List.getElem_take]
        rw [if_neg (by omega), h.1 j (by omega)]
    . congr 1
      apply List.map_congr_left
      intro j hj
      rw [List.mem_range'_1] at hj
      rw [if_neg (by omega)]
  rw [Holder.string, hbytes, if_pos (by simp), List.takeWhile_append_of_pos]
  . simp
  . intro c hc
    have := List.mem_of_mem_take hc
    simp only [decide_eq_true_eq]
    rintro rfl
    exact hnul this

def returned (ok : Bool) : Int := if ok then 0 else -1

theorem mkdirLoop_eq {holder : Holder} {path : Pathname} (mode : Nat) (h : Holds holder path) (hnul : 0 ∉ path)
    (hmax : path.length < maxDirSize) (left i : Nat) (hi : i + left = path.length) (s : σ)
    : mkdirLoop fs mode left i holder s =
        .ok (returned (fs.mkdirs mode (parentsFrom path i left) s).1,
          (fs.mkdirs mode (parentsFrom path i left) s).2) := by
  induction left generalizing i s with
  | zero => rfl
  | succ left ih =>
    have hlt : i < path.length := by omega
    have hget : holder.get i = .ok path[i] := by
      rw [Holder.get, if_pos (by omega), h.1 i hlt]
    have hnext := ih (i + 1) (by omega)
    simp only [mkdirLoop, hget, bind, Except.bind]
    by_cases hslash : path[i] = slash ∧ i ≠ 0
    . have hparents : parentsFrom path i (left + 1) = path.take i :: parentsFrom path (i + 1) left := by
        rw [parentsFrom, List.range'_succ, List.filter_cons_of_pos, List.map_cons]
        . rfl
        . simpa [hlt] using hslash
      have hrestore : Holder.set (fun j => if j = i then 0 else holder j) i slash = .ok holder := by
        rw [Holder.set, if_pos (by omega)]
        congr 1
        funext j
        split
        . next hj => rw [hj, h.1 i hlt, hslash.1]
        . rfl
      have hcut : holder.set i 0 = .ok fun j => if j = i then 0 else holder j := by
        rw [Holder.set, if_pos (by omega)]
      rw [if_pos hslash, hparents, mkdirs_cons]
      simp only [hcut, string_cut h hnul hlt hmax]
      by_cases hrefused : Refused (fs.mkdir (path.take i) mode s).1
      . rw [if_pos hrefused]
        exact if_pos hrefused
      . rw [if_neg hrefused]
        refine (if_neg hrefused).trans ?_
        simp only [hrestore, hnext]
        rfl
    . have hparents : parentsFrom path i (left + 1) = parentsFrom path (i + 1) left := by
        rw [parentsFrom, List.range'_succ, List.filter_cons_of_neg]
        . rfl
        . simpa [hlt] using hslash
      rw [if_neg hslash, hparents]
      exact hnext s

theorem trashMkdir_eq {path : Pathname} (mode : Nat) (hnul : 0 ∉ path) (hmax : path.length < maxDirSize)
    (holder : Holder) (s : σ)
    : trashMkdir fs path path.length mode holder s =
        .ok (returned (fs.mkdirs mode (parents path) s).1, (fs.mkdirs mode (parents path) s).2) := by
  have hmemcpy : holder.memcpy path = .ok fun j => if j < path.length then path.getD j 0 else holder j := by
    rw [Holder.memcpy, if_pos (by omega)]
  rw [trashMkdir, if_neg (by omega), List.take_length, hmemcpy]
  simp only [bind, Except.bind, Holder.set, hmax, if_true]
  refine mkdirLoop_eq mode ⟨fun i hi => ?_, ?_⟩ hnul hmax _ 0 (Nat.zero_add _) s
  . rw [if_neg (by omega), if_pos hi]
    simp [hi]
  . simp

theorem trashMkdir_full {path : Pathname} (mode : Nat) (hlen : path.length = maxDirSize) (holder : Holder) (s : σ)
    : trashMkdir fs path path.length mode holder s = .error .outOfBounds := by
  have hmemcpy : holder.memcpy path = .ok fun j => if j < path.length then path.getD j 0 else holder j := by
    rw [Holder.memcpy, if_pos (by omega)]
  rw [trashMkdir, if_neg (by omega), List.take_length, hmemcpy]
  simp [bind, Except.bind, Holder.set, hlen]

structure MakesParents (fs : FileSystem σ ν) (path : Pathname) (s : σ) (ret : Int) (s' : σ) (calls : List Call)
    : Prop where
  -- none is skipped, and the last call is the only one that can be refused
  order : calls.map Prod.fst <+: parents path
  whole : ret = 0 → calls.map Prod.fst = parents path
  returns : ret = 0 ∨ ret = -1
  fails : ret = -1 ↔ ∃ call ∈ calls, Refused call.2
  exist : ret = 0 → ∀ p ∈ parents path, (fs.lookup s' p).isSome
  kept : ∀ n, fs.Node s n → fs.Node s' n
  created : ∀ n, fs.Node s' n →
    fs.Node s n ∨ ∃ p ∈ parents path, fs.lookup s p = none ∧ fs.lookup s' p = some n
  again : ret = 0 → ∀ mode holder,
    trashMkdir fs path path.length mode holder s' = .ok (0, s', (parents path).map fun p => (p, some .eexist))

theorem trashMkdir_iff {path : Pathname} (hfs : fs.Lawful) (hnul : 0 ∉ path) (hlen : path.length ≤ maxDirSize)
    (mode : Nat) (holder : Holder) (s : σ)
    : (∃ ret s' calls, trashMkdir fs path path.length mode holder s = .ok (ret, s', calls) ∧
        MakesParents fs path s ret s' calls)
        ↔
      path.length ≠ maxDirSize := by
  constructor
  . rintro ⟨ret, s', calls, hmkdir, -⟩ hfull
    rw [trashMkdir_full mode hfull] at hmkdir
    cases hmkdir
  . intro hne
    have hmax : path.length < maxDirSize := by omega
    refine ⟨_, _, _, trashMkdir_eq mode hnul hmax holder s, ?_⟩
    obtain ⟨horder, hwhole, hfails⟩ := fs.mkdirs_calls mode (parents path) s
    have hok : returned (fs.mkdirs mode (parents path) s).1 = 0 → (fs.mkdirs mode (parents path) s).1 = true := by
      cases (fs.mkdirs mode (parents path) s).1 <;> simp [returned]
    constructor
    . exact horder
    . exact fun hret => hwhole (hok hret)
    . cases (fs.mkdirs mode (parents path) s).1 <;> simp [returned]
    . rw [← hfails]
      cases (fs.mkdirs mode (parents path) s).1 <;> simp [returned]
    . exact fun hret => hfs.mkdirs_found (hok hret)
    . exact fun n => (hfs.mkdirs_node mode (parents path) s n).1
    . exact fun n => (hfs.mkdirs_node mode (parents path) s n).2
    . intro hret mode' holder'
      rw [trashMkdir_eq mode' hnul hmax, hfs.mkdirs_again (hfs.mkdirs_found (hok hret))]
      rfl

def bareTree : DirTree where
  kind := fun node => if node = [] then some .dir else none
  cwd := []
  search := fun _ => true
  writable := fun _ => true
  root_dir := rfl
  cwd_dir := rfl
  closed := by
    intro name node h
    simp at h

def doubled : Pathname := [97, 47, 47, 98]

theorem makesParents_doubled
    : ∃ ret t' calls, trashMkdir DirTree.fileSystem doubled doubled.length 493 (fun _ => 0) bareTree =
          .ok (ret, t', calls) ∧
        MakesParents DirTree.fileSystem doubled bareTree ret t' calls :=
  (trashMkdir_iff DirTree.lawful (by decide) (by decide) 493 _ bareTree).mpr (by decide)

def full : Pathname := List.replicate maxDirSize 97

theorem not_makesParents_full
    : 0 ∉ full ∧ full.length ≤ maxDirSize ∧
        ¬ ∃ ret t' calls, trashMkdir DirTree.fileSystem full full.length 493 (fun _ => 0) bareTree =
            .ok (ret, t', calls) ∧
          MakesParents DirTree.fileSystem full bareTree ret t' calls := by
  have hlen : full.length = maxDirSize := List.length_replicate
  refine ⟨?_, Nat.le_of_eq hlen, ?_⟩
  . simp [full, List.mem_replicate]
  . rintro ⟨ret, t', calls, hmkdir, -⟩
    rw [trashMkdir_full 493 hlen] at hmkdir
    cases hmkdir

end Utilities
