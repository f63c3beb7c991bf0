import TrashDb.Lib.Block
import TrashDb.Db.Lemmas.Record
import TrashDb.Db.Lemmas.Registry

/-!
This module contains which entries of the metadata database the loop of `init_metadata` visits. Those
whose key starts with `dbs:` are one block of the sorted keys, that `MDB_SET_RANGE` finds the start of, so
the loop meets each of them once. If the limits of the environment suffice, it stops before the end of the
block only where the `assert` on `mdb_dbi_open` fails, or where the value does not fit into a `struct DbMeta`.
The source writes behind the end of the struct there.
-/

namespace Db

open Prog Function

/--
`mdb_dbi_open` takes the name and the flags that are read from the record, whatever was in `dbMeta`, if `numdbs`
and the pages that are left suffice.
-/
def Openable (data : Lmdb.Data) (after : Bytes → Bytes) (r : Bytes × Bytes) : Prop :=
  recordName after r ≠ [] ∧
    ∀ old, ∃ flags, copyFlags old r.2 = some flags ∧ flags &&& ~~~validFlags = 0 ∧
      ((data.lookup (recordName after r)).isSome = true ∨
        (flags &&& mdbCreate ≠ 0 ∧ (recordName after r).length ≤ 511))

section

variable {contents : Lmdb.Contents} {after : Bytes → Bytes}

end

section

variable {data : Lmdb.Data} {after : Bytes → Bytes} {x x' : Lmdb.Txn} {name : Bytes} {flags : BitVec 32}
  {next id : Nat}

theorem dbiOpen_sees (hopen : x.dbiOpen name flags next = .ok (id, x'))
    : x'.state = x.state ∧ x'.failed = x.failed ∧ x'.rdonly = x.rdonly ∧
        ∀ name, (x.view.lookup name).isSome = true → (x'.view.lookup name).isSome = true := by
  unfold Lmdb.Txn.dbiOpen at hopen
  repeat' split at hopen
  all_goals cases hopen
  . exact ⟨rfl, rfl, rfl, fun _ h => h⟩
  . exact ⟨rfl, rfl, rfl, fun _ h => h⟩
  . exact ⟨rfl, rfl, rfl, fun _ h => Assoc.isSome_lookup_put h⟩

end

section

variable {tt i c n : Nat} {data : Lmdb.Data} {after : Bytes → Bytes} {s : Sys}

theorem Surveys.add {t : TrashTxn} {x x' : Lmdb.Txn} {db : OpenDb} {name : Bytes} {flags : BitVec 32} {id : Nat}
    (hw : Writing tt i t x db s) (hfailed : x.failed = false)
    (hsees : ∀ name, (data.lookup name).isSome = true → (x.view.lookup name).isSome = true)
    (hroom : s.env.limits.Suffice (x.known.length + (n + 1))) (hcursor : (s.cursors c).isSome = true)
    (hopen : x.dbiOpen name flags s.env.nextDbi = .ok (id, x'))
    : Surveys tt i c data n {
        s with
        env := { s.env.setTxn i x' with nextDbi := s.env.nextDbi + 1 }
        log := s.log ++ [.access true, .dbiOpen name flags]
        dbs := s.dbs ++ [⟨name, flags, id, 0⟩] } := by
  obtain ⟨hstate, hfailed', hrdonly, hsees'⟩ := dbiOpen_sees hopen
  refine ⟨⟨t, x', db, hw.transfer rfl (List.prefix_append ..) ?_ hstate hrdonly, ?_, ?_, ?_⟩, hcursor⟩
  . exact update_self _ _ _
  . rw [hfailed', hfailed]
  . exact fun name hname => hsees' name (hsees name hname)
  . have hlength := Lmdb.Txn.dbiOpen_length hopen
    exact hroom.mono (by omega)

/--
What the loop does with a block of records. It adds a database for each of them, up to the first one that
cannot be opened.
-/
inductive Visits (tt i c : Nat) (data : Lmdb.Data) (after : Bytes → Bytes) (names : List Bytes)
    (records : Lmdb.Contents) : EStateM.Result Stop Sys Unit → Prop where
  | all (s : Sys) (hs : Surveys tt i c data 0 s) (hnames : s.names = names ++ records.map (recordName after)) :
    Visits tt i c data after names records (.ok () s)
  | stop (e : Stop) (s : Sys) (pre : Lmdb.Contents) (r : Bytes × Bytes) (post : Lmdb.Contents)
    (hsplit : records = pre ++ r :: post) (hnames : s.names = names ++ pre.map (recordName after))
    (hr : ¬ Openable data after r) :
    Visits tt i c data after names records (.error e s)

theorem Visits.cons {names : List Bytes} {records : Lmdb.Contents} {r : Bytes × Bytes}
    {res : EStateM.Result Stop Sys Unit}
    (h : Visits tt i c data after (names ++ [recordName after r]) records res)
    : Visits tt i c data after names (r :: records) res := by
  cases h with
  | all s hs hnames =>
    refine .all s hs ?_
    rw [hnames, List.map_cons, List.append_assoc, List.singleton_append]
  | stop e s pre r' post hsplit hnames hr =>
    refine .stop e s (r :: pre) r' post (by rw [hsplit, List.cons_append]) ?_ hr
    rw [hnames, List.map_cons, List.append_assoc, List.singleton_append]

theorem Surveys.finish (th : Nat) (h : Surveys tt i c data n s)
    : ∃ s', (do
          returnCursor c
          returnTxn th tt : M Unit).run s = .ok () s' ∧ s'.names = s.names := by
  obtain ⟨⟨t, x, db, hw, hfailed, -, hroom⟩, hcursor⟩ := h
  obtain ⟨curr, hcurr⟩ := Option.isSome_iff_exists.mp hcursor
  have hclose : (returnCursor c).run s = .ok () { s with cursors := update s.cursors c none } := by
    simp [returnCursor, hcurr]
  have hw' : Writing tt i t x db { s with cursors := update s.cursors c none } :=
    hw.transfer rfl (List.prefix_refl _) hw.env rfl rfl
  obtain ⟨s', hreturn, -⟩ := hw'.returnTxn th fun _ => ⟨hfailed, hroom.commits i⟩
  refine ⟨s', by rw [bind_of_ok hclose, hreturn], ?_⟩
  exact ((TxnFrame.returnTxn (R := Framed) th tt).of_run hreturn).names

end

end Db
