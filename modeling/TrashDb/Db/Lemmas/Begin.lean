import TrashDb.Db.Lemmas.Run

/-!
This module contains what `begin_txn` and `return_txn` do in a given state: a write transaction is a new
one, a read transaction is the last one of the pool of the thread and goes back there.
-/

namespace Db

open Prog Function

namespace Sys

def begun (s : Sys) (th : Nat) : Sys :=
  {
    s with
    env := {
      s.env with
      nextTxn := s.env.nextTxn + 1
      writer := some s.env.nextTxn
      txns := update s.env.txns s.env.nextTxn (some (s.env.newTxn th false))
    }
    log := s.log ++ [.txnBegin false false]
    tts := update s.tts s.nextTt
      (some { txn := some s.env.nextTxn, rd := false, wr := true, commit := false, dontFin := false, db := none })
    nextTt := s.nextTt + 1
  }

def handOut (s : Sys) (th tt : Nat) : Sys := { s with out := (th, tt) :: s.out }

def use (s : Sys) (tt d : Nat) (t : TrashTxn) : Sys :=
  {
    s with
    dbs := s.dbs.modify d fun db => { db with count := Word.add32 db.count 1 }
    tts := update s.tts tt (some { t with db := some d })
  }

end Sys

variable {s : Sys} {th tt : Nat} {t : TrashTxn} {dbname : Bytes}

theorem internalBeginTxn_write (hwriter : s.env.writer = none)
    : (internalBeginTxn th false).run s = .ok s.nextTt (s.begun th) := by
  simp [internalBeginTxn, mdbTxnBegin, Lmdb.Env.beginWrite, hwriter, call, setEnv, internalCreateTrashTxn,
    Lmdb.Env.setTxn, Lmdb.Env.newTxn, Sys.begun]

theorem internalBeginTxn_busy {j : Nat} (hwriter : s.env.writer = some j)
    : (internalBeginTxn th false).run s = .error .disabled s := by
  simp [internalBeginTxn, mdbTxnBegin, Lmdb.Env.beginWrite, hwriter]

theorem changeTxnDb_same (ht : s.tts tt = some t) (hmatch : dbMatch (t.db.bind (s.dbs[·]?)) dbname = true)
    : (changeTxnDb tt dbname).run s = .ok .success s := by
  rw [changeTxnDb, bind_of_ok (derefTt_of_some ht), bind_of_ok (EStateM.run_get s), if_pos hmatch]
  rfl

theorem changeTxnDb_found {d : Nat} (ht : s.tts tt = some t)
    (hmatch : dbMatch (t.db.bind (s.dbs[·]?)) dbname = false)
    (hd : s.dbs.findIdx? (fun db => dbMatch (some db) dbname) = some d)
    : (changeTxnDb tt dbname).run s = .ok .success (s.use tt d t) := by
  rw [changeTxnDb, bind_of_ok (derefTt_of_some ht), bind_of_ok (EStateM.run_get s), if_neg (by simp [hmatch]), hd]
  rfl

theorem changeTxnDb_unknown (ht : s.tts tt = some t)
    (hmatch : dbMatch (t.db.bind (s.dbs[·]?)) dbname = false)
    (hd : s.dbs.findIdx? (fun db => dbMatch (some db) dbname) = none)
    : (changeTxnDb tt dbname).run s = .ok .dbDne s := by
  rw [changeTxnDb, bind_of_ok (derefTt_of_some ht), bind_of_ok (EStateM.run_get s), if_neg (by simp [hmatch]), hd]
  rfl

theorem begun_tts (s : Sys) (th : Nat)
    : (s.begun th).tts s.nextTt = some
        { txn := some s.env.nextTxn, rd := false, wr := true, commit := false, dontFin := false, db := none } := by
  simp [Sys.begun]

theorem beginTxn_write (hwriter : s.env.writer = none)
    : (beginTxn th dbname false).run s =
        match s.dbs.findIdx? fun db => dbMatch (some db) dbname with
        | some d =>
          .ok (.success, s.nextTt) (((s.begun th).handOut th s.nextTt).use s.nextTt d
            { txn := some s.env.nextTxn, rd := false, wr := true, commit := false, dontFin := false, db := none })
        | none => .ok (.dbDne, s.nextTt) ((s.begun th).handOut th s.nextTt) := by
  rw [beginTxn, bind_of_ok (internalBeginTxn_write hwriter), bind_of_ok (EStateM.run_modify _ _)]
  have htt : ((s.begun th).handOut th s.nextTt).tts s.nextTt = some
      { txn := some s.env.nextTxn, rd := false, wr := true, commit := false, dontFin := false, db := none } :=
    begun_tts s th
  cases hd : s.dbs.findIdx? fun db => dbMatch (some db) dbname with
  | some d => exact bind_of_ok (changeTxnDb_found htt rfl hd)
  | none => exact bind_of_ok (changeTxnDb_unknown htt rfl hd)

namespace Sys

def taken (s : Sys) (th i : Nat) (rdrs : Readers) : Sys :=
  {
    s with
    env := {
      s.env with
      slots := update s.env.slots th (some i)
      txns := update s.env.txns i (some (s.env.newTxn th true))
    }
    log := s.log ++ [.txnRenew false]
    rdrPool := update s.rdrPool th (some rdrs)
  }

end Sys

variable {i c : Nat} {x : Lmdb.Txn} {txns : List Nat}

theorem internalGetReadTxn_pool (hpool : s.rdrPool th = some ⟨c, tt :: txns⟩) (ht : s.tts tt = some t)
    (hi : t.txn = some i) (hx : s.env.txns i = some x) (hrd : x.rdonly = true) (hreset : x.state = .reset)
    (hslot : s.env.slots th = none)
    : (internalGetReadTxn th).run s = .ok tt (s.taken th i ⟨c, txns⟩) := by
  simp [internalGetReadTxn, hpool, derefTt, ht, mdbTxnRenew, hi, hx, call, Lmdb.Env.renew, hrd, hreset, hslot,
    setEnv, Lmdb.Env.setTxn, Lmdb.Env.newTxn, Sys.taken]

theorem internalGetReadTxn_busy {j : Nat} (hpool : s.rdrPool th = some ⟨c, tt :: txns⟩)
    (ht : s.tts tt = some t) (hi : t.txn = some i) (hx : s.env.txns i = some x) (hslot : s.env.slots th = some j)
    : ∃ s', (internalGetReadTxn th).run s = .error (.assertFailed .txnRenew) s' := by
  have hrc : (s.env.renew th i x).1 ≠ .success := by
    unfold Lmdb.Env.renew
    split
    . rw [hslot]
      nofun
    . nofun
  have hne : ((s.env.renew th i x).1 == Lmdb.Rc.success) = false := by simpa using hrc
  simp [internalGetReadTxn, hpool, derefTt, ht, mdbTxnRenew, hi, hx, call, setEnv, hne]

theorem internalGetReadTxn_new {s' : Sys} (hpool : s.rdrPool th = none)
    (hrun : (internalGetReadTxn th).run s = .ok tt s')
    : (∃ i, s'.env.slots th = some i) ∧ s'.rdrPool th = none ∧
        ∃ txn, s'.tts tt = some ⟨txn, true, false, false, false, none⟩ := by
  cases hslot : s.env.slots th with
  | none =>
    simp only [internalGetReadTxn, hpool, mdbTxnBegin, call, Lmdb.Env.beginRead, hslot, setEnv,
      internalCreateTrashTxn, EStateM.run_bind, EStateM.run_get, EStateM.run_modify, EStateM.run_set, if_true] at hrun
    cases hrun
    exact ⟨⟨s.env.nextTxn, update_self _ _ _⟩, hpool, some s.env.nextTxn, update_self _ _ _⟩
  | some i =>
    simp only [internalGetReadTxn, hpool, mdbTxnBegin, call, Lmdb.Env.beginRead, hslot, setEnv,
      internalCreateTrashTxn, EStateM.run_bind, EStateM.run_get, EStateM.run_modify, EStateM.run_set, if_true] at hrun
    cases hrun
    exact ⟨⟨i, hslot⟩, hpool, none, update_self _ _ _⟩

/--
The first call of `mdb_txn_begin` for the pool fails while another read transaction is active.
-/
theorem createReaders_clash {n : Nat} (hslot : s.env.slots th = some i)
    : ∃ s', (createReaders th (n + 1)).run s = .error (.assertFailed .txnBegin) s' := by
  simp [createReaders, mdbTxnBegin, call, hslot, Lmdb.Env.beginRead]

section

variable (ht : s.tts tt = some t) (hrd : t.rd = true) (hwr : t.wr = false) (hcommit : t.commit = false)
  (hi : t.txn = some i) (hx : s.env.txns i = some x) (hended : x.state ≠ .ended)

include ht hrd hwr hcommit hi hx hended

theorem endTxn_read
    : (endTxn tt).run s = .ok t {
        s with
        env := s.env.finish i x .reset
        log := s.log ++ [.access (x.state == .active)]
      } := by
  have hderef : (derefTxn (some i)).run s = .ok (i, x) { s with log := s.log ++ [.access (x.state == .active)] } := by
    simp [derefTxn, call, hx, hended]
  have hreset : (mdbTxnReset (some i)).run s = .ok () {
      s with
      env := s.env.finish i x .reset
      log := s.log ++ [.access (x.state == .active)]
    } := by
    rw [mdbTxnReset, bind_of_ok hderef]
    rfl
  rw [endTxn, bind_of_ok (derefTt_of_some ht), hcommit, hwr, hrd, hi]
  simp [hreset]

variable (th)

theorem returnTxn_kept (hdontFin : t.dontFin = true)
    : (returnTxn th tt).run s = .ok () {
        s with
        env := s.env.finish i x .reset
        tts := update s.tts tt (some { t with dontFin := false })
        log := s.log ++ [.access (x.state == .active)]
      } := by
  rw [returnTxn, bind_of_ok (endTxn_read ht hrd hwr hcommit hi hx hended), hrd, hdontFin]
  rfl

theorem returnTxn_pooled {rdrs : Readers} (hdontFin : t.dontFin = false)
    (hpool : s.rdrPool th = some rdrs) (hroom : rdrs.txns.length < s.capacity)
    : (returnTxn th tt).run s = (releaseDb tt t).run {
        s with
        env := s.env.finish i x .reset
        rdrPool := update s.rdrPool th (some { rdrs with txns := tt :: rdrs.txns })
        out := s.out.filter (· != (th, tt))
        log := s.log ++ [.access (x.state == .active)]
      } := by
  rw [returnTxn, bind_of_ok (endTxn_read ht hrd hwr hcommit hi hx hended), hrd, hdontFin, Bool.and_false,
    if_neg (by simp), giveBack, bind_of_ok (EStateM.run_modify _ _), when_true]
  refine bind_of_ok (a := ()) ?_
  simp [returnToPool, hpool, hroom]

end

end Db
