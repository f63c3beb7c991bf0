import TrashDb.Db.Directory
import TrashDb.Utilities.Lemmas.Mkdir

/-!
This module contains when `open_env` of `db.c` finds the directory that it is going to open. It
creates what the path names before its slashes, which is the directory itself only by chance, and it
does so after every error of `stat`.
-/

namespace Directory

open Utilities

variable {t : DirTree} {test : Bool} {filename : Pathname} {numthreads : Nat}

def IsDir (t : DirTree) (path : Pathname) : Prop := ∃ node, t.stat path = .ok node ∧ t.kind node = some .dir

/--
The path and all directories before it can be created, where they do not exist.
-/
def Creatable (t : DirTree) (path : Pathname) : Prop :=
  (DirTree.fileSystem.mkdirs 493 (parents path ++ [path]) t).1 = true ∧
    IsDir (DirTree.fileSystem.mkdirs 493 (parents path ++ [path]) t).2.1 path

structure Prepares (t : DirTree) (test : Bool) (filename : Pathname) (numthreads : Nat) (holder : Holder) : Prop where
  reached : Creatable t (dbDir test ++ filename) → ∀ path t',
    openEnv test false filename numthreads holder t = .ok (.opens path, t') →
      path = dbDir test ++ filename ∧ IsDir t' path
  refused : ∀ e, t.stat (dbDir test ++ filename) = .error e → e ≠ .enoent →
    openEnv test false filename numthreads holder t = .ok (.returns trashError, t)

/--
The directory exists at first, or one of the paths before the slashes is another name of it.
-/
def Named (t : DirTree) (path : Pathname) : Prop :=
  t.kind (t.canon path) ≠ none ∨ ∃ p ∈ parents path, t.canon p = t.canon path

theorem mem_parents {path p : Pathname} (h : p ∈ parents path) : ∃ q, path = p ++ slash :: q ∧ p ≠ [] := by
  obtain ⟨i, hi, rfl⟩ := List.mem_map.mp h
  obtain ⟨hrange, hslash⟩ := List.mem_filter.mp hi
  rw [List.mem_range'_1] at hrange
  have hlt : i < path.length := by omega
  have hslash : path[i] = slash ∧ i ≠ 0 := by simpa [hlt] using hslash
  refine ⟨path.drop (i + 1), ?_, ?_⟩
  . rw [← hslash.1, ← List.drop_eq_getElem_cons hlt, List.take_append_drop]
  . rw [ne_eq, List.take_eq_nil_iff]
    rintro (hzero | hnil)
    . exact hslash.2 hzero
    . rw [hnil] at hlt
      cases hlt

theorem openEnv_eq (hnul : 0 ∉ filename) (hlen : (dbDir test ++ filename).length < filepathSize) (holder : Holder)
    : openEnv test false filename numthreads holder t =
        match t.stat (dbDir test ++ filename) with
        | .ok _ => .ok (setAndOpen (dbDir test ++ filename) numthreads t)
        | .error _ =>
          if (DirTree.fileSystem.mkdirs 493 (parents (dbDir test ++ filename)) t).1 then
            .ok (setAndOpen (dbDir test ++ filename) numthreads
              (DirTree.fileSystem.mkdirs 493 (parents (dbDir test ++ filename)) t).2.1)
          else
            .ok (.returns trashError, (DirTree.fileSystem.mkdirs 493 (parents (dbDir test ++ filename)) t).2.1) := by
  have hpath : filepath test filename = dbDir test ++ filename :=
    List.take_of_length_le (Nat.le_sub_one_of_lt hlen)
  have hnul : 0 ∉ dbDir test ++ filename := by
    rw [List.mem_append, not_or]
    exact ⟨by cases test <;> decide, hnul⟩
  simp only [openEnv, Bool.false_eq_true, if_false, validateFilename, ne_eq, not_true, hpath]
  cases t.stat (dbDir test ++ filename) with
  | ok node => rfl
  | error e =>
    simp only [trashMkdir_eq 493 hnul hlen, bind, Except.bind]
    cases (DirTree.fileSystem.mkdirs 493 (parents (dbDir test ++ filename)) t).1 <;> rfl

theorem setAndOpen_eq (hthreads : numthreads ≠ 0) (path : Pathname) (t : DirTree)
    : setAndOpen path numthreads t = (.opens path, t) := by
  have hfields : internalSetEnvFields numthreads = trashSuccess := if_neg (by omega)
  rw [setAndOpen, hfields, if_neg (not_not_intro rfl)]

theorem isDir_iff_named {path : Pathname} (h : Creatable t path)
    : IsDir (DirTree.fileSystem.mkdirs 493 (parents path) t).2.1 path ↔ Named t path := by
  obtain ⟨hok, hdir⟩ := h
  obtain ⟨hparents, hlast, hsame⟩ := FileSystem.mkdirs_append hok
  have hnamed := DirTree.mkdirs_kind_iff hparents (t.canon path)
  have hcanon := DirTree.canon_congr (t.mkdirs_kept 493 (parents path)).1 path
  rw [hsame] at hdir
  generalize (DirTree.fileSystem.mkdirs 493 (parents path) t).2.1 = t' at hlast hdir hnamed hcanon
  rw [FileSystem.mkdirs_cons] at hlast hdir
  rw [Named, ← hnamed, ← hcanon]
  constructor
  . rintro ⟨node, hstat, -⟩
    rw [← (DirTree.stat_canon hstat).1]
    exact (DirTree.stat_canon hstat).2
  . intro hkind
    split at hlast
    . cases hlast
    . next hrefused =>
      rw [if_neg hrefused] at hdir
      rcases hmkdir : t'.mkdir path with ⟨rc, t''⟩
      have hanswer : DirTree.fileSystem.mkdir path 493 t' = (rc, t'') := hmkdir
      rw [hanswer] at hrefused hdir
      cases rc with
      | none =>
        obtain ⟨-, -, -, hnone, -⟩ := DirTree.mkdir_none hmkdir
        exact absurd hnone hkind
      | some e =>
        obtain rfl : t'' = t' := DirTree.lawful.fails hanswer
        exact hdir

theorem isDir_mkdirs_iff {path : Pathname} {node : DirTree.Node} (mode : Nat) (ps : List Pathname)
    (h : t.stat path = .ok node)
    : IsDir (DirTree.fileSystem.mkdirs mode ps t).2.1 path ↔ IsDir t path := by
  have hfound : (DirTree.fileSystem.mkdirs mode ps t).2.1.stat path = .ok node :=
    DirTree.lookup_eq_some.mp (DirTree.lawful.mkdirs_keeps (DirTree.lookup_eq_some.mpr h))
  have hkind := (t.mkdirs_kept mode ps).2 node (DirTree.stat_canon h).2
  simp only [IsDir, hfound, h, Except.ok.injEq, exists_eq_left', hkind]

theorem reached_iff (hnul : 0 ∉ filename) (hlen : (dbDir test ++ filename).length < filepathSize)
    (hthreads : numthreads ≠ 0) (holder : Holder) (hcreatable : Creatable t (dbDir test ++ filename))
    : (∀ path t', openEnv test false filename numthreads holder t = .ok (.opens path, t') →
        path = dbDir test ++ filename ∧ IsDir t' path)
        ↔
      Named t (dbDir test ++ filename) := by
  obtain ⟨hparents, -, -⟩ := FileSystem.mkdirs_append hcreatable.1
  have hopens : ∃ t', openEnv test false filename numthreads holder t =
        .ok (.opens (dbDir test ++ filename), t') ∧
      (IsDir t' (dbDir test ++ filename) ↔
        IsDir (DirTree.fileSystem.mkdirs 493 (parents (dbDir test ++ filename)) t).2.1 (dbDir test ++ filename)) := by
    rw [openEnv_eq hnul hlen]
    simp only [setAndOpen_eq hthreads, hparents, if_true]
    cases hstat : t.stat (dbDir test ++ filename) with
    | ok node => exact ⟨t, rfl, (isDir_mkdirs_iff 493 _ hstat).symm⟩
    | error e => exact ⟨_, rfl, Iff.rfl⟩
  obtain ⟨t', hopens, hdir⟩ := hopens
  rw [hopens, ← isDir_iff_named hcreatable, ← hdir]
  constructor
  . intro h
    exact (h _ t' rfl).2
  . intro h path t'' heq
    cases heq
    exact ⟨rfl, h⟩

theorem mkdirs_blocked {path : Pathname} {e : Errno} (mode : Nat) (hstat : t.stat path = .error e) (he : e ≠ .enoent)
    : (DirTree.fileSystem.mkdirs mode (parents path) t).2.1 = t ∧
      ((DirTree.fileSystem.mkdirs mode (parents path) t).1 = true ↔
        ∀ p ∈ parents path, ∃ node, t.stat p = .ok node) := by
  apply DirTree.mkdirs_settled
  intro p hp hmissing
  obtain ⟨q, hq, hne⟩ := mem_parents hp
  have hmissing : t.stat (p ++ slash :: q) = .error .enoent := DirTree.stat_error_append q hne hmissing
  rw [← hq, hstat] at hmissing
  cases hmissing
  exact he rfl

theorem refused_iff (hnul : 0 ∉ filename) (hlen : (dbDir test ++ filename).length < filepathSize)
    (hthreads : numthreads ≠ 0) (holder : Holder) {e : Errno} (hstat : t.stat (dbDir test ++ filename) = .error e)
    (he : e ≠ .enoent)
    : openEnv test false filename numthreads holder t = .ok (.returns trashError, t)
        ↔
      ∃ p ∈ parents (dbDir test ++ filename), ∀ node, t.stat p ≠ .ok node := by
  obtain ⟨hsame, hok⟩ := mkdirs_blocked 493 hstat he
  rw [openEnv_eq hnul hlen, hstat]
  simp only [setAndOpen_eq hthreads, hsame]
  by_cases hall : (DirTree.fileSystem.mkdirs 493 (parents (dbDir test ++ filename)) t).1 = true
  . rw [if_pos hall]
    refine iff_of_false (by simp) ?_
    rintro ⟨p, hp, hblocked⟩
    obtain ⟨node, hnode⟩ := hok.mp hall p hp
    exact hblocked node hnode
  . rw [if_neg hall]
    refine iff_of_true rfl ?_
    by_contra hnone
    refine hall (hok.mpr fun p hp => ?_)
    by_contra hblocked
    exact hnone ⟨p, hp, fun node hnode => hblocked ⟨node, hnode⟩⟩

theorem openEnv_zero (hnul : 0 ∉ filename) (hlen : (dbDir test ++ filename).length < filepathSize) (holder : Holder)
    : ∃ t', openEnv test false filename 0 holder t = .ok (.returns trashError, t') ∧
        ∀ e, t.stat (dbDir test ++ filename) = .error e → e ≠ .enoent → t' = t := by
  rw [openEnv_eq hnul hlen]
  have hzero (path : Pathname) (t : DirTree) : setAndOpen path 0 t = (.returns trashError, t) := rfl
  simp only [hzero]
  cases hstat : t.stat (dbDir test ++ filename) with
  | ok node => exact ⟨t, rfl, fun _ _ _ => rfl⟩
  | error e =>
    refine ⟨_, ite_self _, fun e' he' hne => ?_⟩
    cases he'
    exact (mkdirs_blocked 493 hstat hne).1

theorem prepares_iff (hnul : 0 ∉ filename) (hlen : (dbDir test ++ filename).length < filepathSize)
    (t : DirTree) (numthreads : Nat) (holder : Holder)
    : Prepares t test filename numthreads holder
        ↔
      numthreads = 0 ∨
        (Creatable t (dbDir test ++ filename) → Named t (dbDir test ++ filename)) ∧
        ∀ e, t.stat (dbDir test ++ filename) = .error e → e ≠ .enoent →
          ∃ p ∈ parents (dbDir test ++ filename), ∀ node, t.stat p ≠ .ok node := by
  by_cases hthreads : numthreads = 0
  . subst hthreads
    refine iff_of_true ?_ (.inl rfl)
    obtain ⟨t', hreturns, hsame⟩ := openEnv_zero (t := t) hnul hlen holder
    constructor
    . intro _ path t'' hopens
      rw [hreturns] at hopens
      cases hopens
    . intro e hstat he
      rw [hreturns, hsame e hstat he]
  . rw [or_iff_right hthreads]
    constructor
    . intro h
      exact ⟨fun hcreatable => (reached_iff hnul hlen hthreads holder hcreatable).mp (h.reached hcreatable),
        fun e hstat he => (refused_iff hnul hlen hthreads holder hstat he).mp (h.refused e hstat he)⟩
    . rintro ⟨hnamed, hblocked⟩
      exact ⟨fun hcreatable => (reached_iff hnul hlen hthreads holder hcreatable).mpr (hnamed hcreatable),
        fun e hstat he => (refused_iff hnul hlen hthreads holder hstat he).mpr (hblocked e hstat he)⟩

def testTree : DirTree where
  kind := fun node => if node = [] ∨ node = [[116, 101, 115, 116]] then some .dir else none
  cwd := []
  search := fun _ => true
  writable := fun _ => true
  root_dir := rfl
  cwd_dir := rfl
  closed := by
    intro name node h
    simp only [reduceCtorEq, List.cons.injEq, false_or, ne_eq, ite_eq_right_iff, not_forall] at h
    rw [h.1.2]
    rfl

def db : Pathname := [100, 98]

/--
A slash behind the name makes the directory one of its own parents.
-/
theorem prepares_db_slash : Prepares testTree true (db ++ [slash]) 1 (fun _ => 0) := by
  refine (prepares_iff (by decide) (by decide) testTree 1 _).mpr (.inr ⟨fun _ => .inr ?_, ?_⟩)
  . exact ⟨dbDir true ++ db, by decide, rfl⟩
  . intro e he hne
    cases he
    exact absurd rfl hne

theorem not_prepares_db : ¬ Prepares testTree true db 1 (fun _ => 0) := by
  intro h
  have hcreatable : Creatable testTree (dbDir true ++ db) := ⟨by decide, _, rfl, rfl⟩
  have hopens : ∃ t', openEnv true false db 1 (fun _ => 0) testTree = .ok (.opens (dbDir true ++ db), t') ∧
      t'.stat (dbDir true ++ db) = .error .enoent := ⟨_, rfl, rfl⟩
  obtain ⟨t', hopens, hmissing⟩ := hopens
  obtain ⟨-, node, hfound, -⟩ := h.reached hcreatable _ t' hopens
  rw [hmissing] at hfound
  cases hfound

end Directory
