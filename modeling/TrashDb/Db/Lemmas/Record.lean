import TrashDb.Db.Lemmas.Frame

/-!
This module contains what `init_metadata` reads from the records that `open_db` writes. The name of the
database is stored without its terminator, so it ends where the flags behind it have their first zero
byte.
-/

namespace Db

open Prog

theorem readFlags_flagsBytes (flags : BitVec 32) : readFlags (flagsBytes flags) = some flags := by
  simp only [flagsBytes, readFlags, Option.some.injEq]
  ext i hi
  simp only [BitVec.getElem_append, BitVec.getElem_extractLsb']
  rw [← BitVec.getLsbD_eq_getElem hi]
  split
  . rw [Nat.zero_add]
  . split
    . congr
      omega
    . split <;>
      . congr
        omega

theorem copyFlags_flagsBytes (old flags : BitVec 32) : copyFlags old (flagsBytes flags) = some flags := by
  have hdrop : (flagsBytes old).drop (flagsBytes flags).length = [] := rfl
  rw [copyFlags, hdrop, List.append_nil, readFlags_flagsBytes]

theorem cString_append {dbname : Bytes} (hzero : 0 ∉ dbname) (mem : Bytes)
    : cString (dbname ++ mem) = dbname ++ cString mem := by
  unfold cString
  apply List.takeWhile_append_of_pos
  intro b hb
  rw [bne_iff_ne]
  rintro rfl
  exact hzero hb

theorem lowByte_stored (flags : BitVec 32)
    : (flags &&& ~~~mdbCreate).extractLsb' 0 8 = flags.extractLsb' 0 8 := by
  have hcreate : (~~~mdbCreate).extractLsb' 0 8 = BitVec.allOnes 8 := by decide
  rw [BitVec.extractLsb'_and, hcreate, BitVec.and_allOnes]

theorem dbKeyName_of_le {dbname : Bytes} (hlen : dbname.length ≤ 251)
    : dbKeyName dbname = dbPrefix ++ dbname := by
  unfold dbKeyName
  apply List.take_of_length_le
  have hfour : dbPrefix.length = 4 := rfl
  simp only [List.length_append, hfour]
  omega

theorem readRecord_dbRecord {dbname : Bytes} (hzero : 0 ∉ dbname) (hlen : dbname.length ≤ 251)
    (old flags : BitVec 32) (after : Bytes)
    : readRecord old (dbRecord dbname flags).1 (dbRecord dbname flags).2 after =
        some (dbname ++ cString (flagsBytes (flags &&& ~~~mdbCreate) ++ after), flags &&& ~~~mdbCreate) := by
  simp only [readRecord, dbRecord, copyFlags_flagsBytes, Option.map_some, dbKeyName_of_le hlen]
  rw [List.append_assoc, List.append_assoc, List.drop_left, cString_append hzero]

theorem cString_flagsBytes_eq_nil {flags : BitVec 32} (after : Bytes)
    : cString (flagsBytes flags ++ after) = [] ↔ flags.extractLsb' 0 8 = 0 := by
  unfold cString flagsBytes
  rw [List.cons_append, List.takeWhile_cons]
  split
  . next hne => simpa using hne
  . next heq => simpa using heq

section

variable {s : Sys} {tt : Nat} {t : TrashTxn} {i : Nat} {x : Lmdb.Txn}

theorem mdbDbiOpen_log (hx : s.env.txns i = some x) (hactive : x.state = .active) (name : Bytes)
    (flags : BitVec 32)
    : ∃ res s', (mdbDbiOpen (some i) name flags).run s = .ok res s' ∧
        s'.log = s.log ++ [.access true, .dbiOpen name flags] := by
  rw [mdbDbiOpen, bind_of_ok (derefTxn_of_active hx hactive)]
  simp only [call, EStateM.run_bind, EStateM.run_modify, EStateM.run_get]
  split
  . exact ⟨_, _, rfl, by simp⟩
  . split
    . exact ⟨_, _, rfl, by simp⟩
    . exact ⟨_, _, rfl, by simp⟩

/--
Whatever the loop of `init_metadata` does after it has read a record, it has called `mdb_dbi_open`.
-/
theorem openRecords_log {dbname key val : Bytes} {old dbMeta : BitVec 32} {after : Bytes → Bytes}
    (ht : s.tts tt = some t) (htxn : t.txn = some i) (hx : s.env.txns i = some x)
    (hactive : x.state = .active)
    (hstart : (key ++ val ++ after key).take dbPrefix.length = dbPrefix)
    (hread : readRecord old key val (after key) = some (dbname, dbMeta)) (records : Lmdb.Contents)
    : s.log ++ [.access true, .dbiOpen dbname dbMeta] <+:
        (final ((openRecords tt after old ((key, val) :: records)).run s)).log := by
  obtain ⟨res, s', hopen, hlog⟩ := mdbDbiOpen_log hx hactive dbname dbMeta
  rw [openRecords, if_pos hstart, hread]
  dsimp only
  rw [bind_of_ok (derefTt_of_some ht), htxn, bind_of_ok hopen, ← hlog]
  split
  . apply List.prefix_refl
  . exact extends_bind (R := Logged) (AddFrame.internalAddDb _ _ _)
      (fun _ => AddFrame.openRecords tt after records dbMeta) s'

/--
The call of `mdb_dbi_open` when the loop gets to the record of a database, whatever follows the record in
memory and in the metadata database.
-/
theorem openRecords_dbRecord_iff {dbname : Bytes} (ht : s.tts tt = some t) (htxn : t.txn = some i)
    (hx : s.env.txns i = some x) (hactive : x.state = .active) (hzero : 0 ∉ dbname)
    (hlen : dbname.length ≤ 251) (old flags : BitVec 32) (after : Bytes → Bytes)
    (records : Lmdb.Contents)
    : s.log ++ [.access true, .dbiOpen dbname (flags &&& ~~~mdbCreate)] <+:
        (final ((openRecords tt after old (dbRecord dbname flags :: records)).run s)).log ↔
        flags.extractLsb' 0 8 = 0 := by
  have hread := readRecord_dbRecord hzero hlen old flags (after (dbRecord dbname flags).1)
  have hstart : ((dbRecord dbname flags).1 ++ (dbRecord dbname flags).2 ++
      after (dbRecord dbname flags).1).take dbPrefix.length = dbPrefix := by
    simp only [dbRecord, dbKeyName_of_le hlen, List.append_assoc]
    exact List.take_left
  have hlog := openRecords_log ht htxn hx hactive hstart hread records
  rw [← lowByte_stored, ← cString_flagsBytes_eq_nil (after (dbRecord dbname flags).1)]
  constructor
  . intro h
    -- both are the calls after those that were made before, so they agree
    have heq := (List.prefix_of_prefix_length_le h hlog (by simp)).eq_of_length (by simp)
    simpa using heq
  . intro hnil
    rw [hnil, List.append_nil] at hlog
    exact hlog

theorem openRecords_dbRecord_create
    : [.txnBegin false false, .access true, .dbiOpen [0x61] 0] <+:
        (final ((openRecords 0 (fun _ => []) 0 [dbRecord [0x61] mdbCreate]).run
          (final ((beginTxn 0 metadata false).run (.init []))))).log ∧
        mdbCreate.extractLsb' 0 8 = 0 := by
  refine ⟨?_, rfl⟩
  exact (@openRecords_dbRecord_iff (final ((beginTxn 0 metadata false).run (.init []))) 0 _ 0 _ [0x61]
    rfl rfl rfl rfl (by decide) (by decide) 0 mdbCreate (fun _ => []) []).mpr rfl

/--
The flag `MDB_DUPSORT` becomes a part of the name.
-/
theorem not_openRecords_dbRecord_dupSort
    : ¬ ∀ (s : Sys) (tt : Nat) (t : TrashTxn) (i : Nat) (x : Lmdb.Txn) (dbname : Bytes),
        s.tts tt = some t → t.txn = some i → s.env.txns i = some x → x.state = .active →
        dbname ≠ [] → 0 ∉ dbname → dbname.length ≤ 251 →
        ∀ (old flags : BitVec 32) (after : Bytes → Bytes) (records : Lmdb.Contents),
          s.log ++ [.access true, .dbiOpen dbname (flags &&& ~~~mdbCreate)] <+:
            (final ((openRecords tt after old (dbRecord dbname flags :: records)).run s)).log := by
  intro h
  have hcall := h (final ((beginTxn 0 metadata false).run (.init []))) 0 _ 0 _ [0x61] rfl rfl rfl rfl
    (by decide) (by decide) (by decide) 0 0x04 (fun _ => []) []
  have hlog : (final ((openRecords 0 (fun _ => []) 0 [dbRecord [0x61] 0x04]).run
      (final ((beginTxn 0 metadata false).run (.init []))))).log =
      [.txnBegin false false, .access true, .dbiOpen [0x61, 0x04] 0x04] := rfl
  have hbefore : (final ((beginTxn 0 metadata false).run (.init []))).log = [.txnBegin false false] := rfl
  rw [hlog, hbefore] at hcall
  simp at hcall

end

end Db
