import TrashDb.Db.Lemmas.Begin
import TrashDb.Db.Lemmas.Env

/-!
This module contains the end of a write transaction after any number of puts. `trash_put` marks the
transaction for a commit when a put succeeds and leaves the mark when a later one fails; if that one has
run out of pages, LMDB does not commit any more.
-/

namespace Db

structure Put where
  key : Bytes
  val : Bytes
  flags : BitVec 32
  answer : Lmdb.Answer

end Db

namespace Lmdb

open Db

def Txn.target (x : Txn) (dbi : Nat) : Bytes := ((x.handle dbi).map Dbi.name).getD []

theorem Txn.put_cases {x x' : Txn} {dbi : Nat} {key val : Bytes} {flags : BitVec 32} {answer : Answer} {rc : Rc}
    (h : x.put dbi key val flags answer = (rc, x'))
    : (rc = .success ∧ x.failed = false ∧ x' = { x with view := x.view.put (x.target dbi) key val answer }) ∨
      (rc = .mapFull ∧ x.failed = false ∧ x' = { x with failed := true }) ∨
      (rc ≠ .success ∧ rc ≠ .mapFull ∧ x' = x) := by
  have hrefused : ∀ {rc' : Rc}, (rc', x) = (rc, x') → rc' ≠ .success → rc' ≠ .mapFull →
      rc ≠ .success ∧ rc ≠ .mapFull ∧ x' = x := by
    rintro _ ⟨⟩ hsuccess hfull
    exact ⟨hsuccess, hfull, rfl⟩
  unfold put at h
  split at h
  . exact .inr (.inr (hrefused h (by decide) (by decide)))
  . next d hd =>
    have htarget : x.target dbi = d.name := by rw [target, hd, Option.map_some, Option.getD_some]
    split at h
    . exact .inr (.inr (hrefused h (by decide) (by decide)))
    split at h
    . exact .inr (.inr (hrefused h (by decide) (by decide)))
    split at h
    . exact .inr (.inr (hrefused h (by decide) (by decide)))
    next husable =>
    have hfailed : x.failed = false := by
      rw [Bool.not_eq_true, Bool.not_eq_false'] at husable
      exact (usable_iff.mp husable).2
    split at h
    . exact .inr (.inr (hrefused h (by decide) (by decide)))
    split at h
    . exact .inr (.inr (hrefused h (by decide) (by decide)))
    split at h
    . cases h
      exact .inr (.inl ⟨rfl, hfailed, rfl⟩)
    . exact .inr (.inr (hrefused h (by decide) (by decide)))
    . cases h
      exact .inl ⟨rfl, hfailed, by rw [htarget]⟩

theorem Txn.put_full (x : Txn) (dbi : Nat) (key val : Bytes) (flags : BitVec 32)
    : x.put dbi key val flags .full = x.put dbi key val flags .plain ∨ (x.put dbi key val flags .full).1 = .mapFull := by
  unfold put
  cases x.handle dbi with
  | none => exact .inl rfl
  | some d =>
    dsimp only
    split_ifs <;> simp

theorem Txn.put_answer {x x' : Txn} {dbi n : Nat} {key val : Bytes} {flags : BitVec 32} {l : Limits} {rc : Rc}
    (h : x.put dbi key val flags (l.answer n) = (rc, x')) (hrc : rc ≠ .mapFull)
    : x.put dbi key val flags .plain = (rc, x') := by
  unfold Limits.answer at h
  split at h
  . rcases put_full x dbi key val flags with hsame | hfull
    . exact hsame ▸ h
    . rw [h] at hfull
      exact absurd hfull hrc
  . exact h

theorem Txn.put_of_usable {x : Txn} {dbi : Nat} {d : Dbi} {key val : Bytes} {flags : BitVec 32}
    (hd : x.handle dbi = some d) (hrd : x.rdonly = false) (hactive : x.state = .active) (hfailed : x.failed = false)
    (hkey : key ≠ []) (hlen : key.length ≤ 511) (hval : val.length < 4294967296) (hflags : flags &&& ~~~putFlags = 0)
    : x.put dbi key val flags .plain =
        if flags &&& mdbNoOverwrite ≠ 0 ∧ (((x.view.lookup d.name).getD []).lookup key).isSome then
          (.keyExist, x)
        else
          (.success, { x with view := x.view.store d.name key val }) := by
  have husable : x.usable = true := usable_iff.mpr ⟨hactive, hfailed⟩
  unfold put
  rw [hd]
  dsimp only
  rw [if_neg (by simp [hflags]), if_neg (by simp [hrd]), husable, if_neg (by simp),
    if_neg (by simp [hkey, hlen, hval])]
  rfl

def Txn.putAll (x : Txn) (dbi : Nat) : List Put → List Rc × Txn
  | [] => ([], x)
  | p :: ps =>
    let r := x.put dbi p.key p.val p.flags p.answer
    let rs := r.2.putAll dbi ps
    (r.1 :: rs.1, rs.2)

def Data.applied (name : Bytes) : List Put → List Rc → Data → Data
  | p :: ps, .success :: rcs, data => applied name ps rcs (data.put name p.key p.val p.answer)
  | _ :: ps, _ :: rcs, data => applied name ps rcs data
  | _, _, data => data

/--
The transaction is out of pages as soon as a put is, and has the puts before that succeeded.
-/
theorem Txn.putAll_eq {x : Txn} (hrd : x.rdonly = false) (dbi : Nat) (ps : List Put)
    : (x.putAll dbi ps).2 = {
        x with
        failed := x.failed || (x.putAll dbi ps).1.contains .mapFull
        view := x.view.applied (x.target dbi) ps (x.putAll dbi ps).1
      } := by
  induction ps generalizing x with
  | nil => simp [putAll, Data.applied]
  | cons p ps ih =>
    cases hput : x.put dbi p.key p.val p.flags p.answer with
    | mk rc x₁ =>
      simp only [putAll, hput]
      rcases put_cases hput with ⟨rfl, hfailed, rfl⟩ | ⟨rfl, hfailed, rfl⟩ | ⟨hs, hf, rfl⟩
      . refine (ih (x := { x with view := x.view.put (x.target dbi) p.key p.val p.answer }) hrd).trans ?_
        rfl
      . refine (ih (x := { x with failed := true }) hrd).trans ?_
        rw [List.contains_cons, hfailed]
        rfl
      . refine (ih hrd).trans ?_
        rw [List.contains_cons, beq_eq_false_iff_ne.mpr (Ne.symm hf), Bool.false_or, Data.applied]
        rintro ⟨⟩
        exact hs rfl

end Lmdb

namespace Db

open Prog Function
open Lmdb (Rc)

def trashPuts (tt : Nat) : List Put → M (List (Option Rc))
  | [] => pure []
  | p :: ps => do
    let rc ← trashPut tt p.key p.val p.flags p.answer
    let rcs ← trashPuts tt ps
    pure (rc :: rcs)

/--
The write transaction `tt` on the database `db` is the transaction `x` of LMDB.
-/
structure Writing (tt i : Nat) (t : TrashTxn) (x : Lmdb.Txn) (db : OpenDb) (s : Sys) : Prop where
  tt : s.tts tt = some t
  rd : t.rd = false
  wr : t.wr = true
  txn : t.txn = some i
  db : ∃ d, t.db = some d ∧ s.dbs[d]? = some db
  env : s.env.txns i = some x
  active : x.state = .active
  rdonly : x.rdonly = false

namespace Writing

variable {s : Sys} {tt i : Nat} {t : TrashTxn} {x : Lmdb.Txn} {db : OpenDb}

theorem transfer {s' : Sys} {x' : Lmdb.Txn} (h : Writing tt i t x db s) (htt : s'.tts tt = s.tts tt)
    (hdbs : s.dbs <+: s'.dbs) (henv : s'.env.txns i = some x') (hstate : x'.state = x.state)
    (hrdonly : x'.rdonly = x.rdonly)
    : Writing tt i t x' db s' := by
  obtain ⟨d, hd, hdb⟩ := h.db
  obtain ⟨dbs, hdbs⟩ := hdbs
  have hdb' : s'.dbs[d]? = some db := by
    rw [← hdbs, List.getElem?_append_left (List.getElem?_eq_some_iff.mp hdb).1]
    exact hdb
  exact ⟨htt.trans h.tt, h.rd, h.wr, h.txn, ⟨d, hd, hdb'⟩, henv, hstate.trans h.active, hrdonly.trans h.rdonly⟩

theorem trashPut {x' : Lmdb.Txn} {key val : Bytes} {flags : BitVec 32} {answer : Lmdb.Answer} {rc : Rc}
    (h : Writing tt i t x db s) (hput : x.put db.id key val flags answer = (rc, x'))
    : (trashPut tt key val flags answer).run s = .ok (some rc) {
        s with
        env := s.env.setTxn i x'
        log := s.log ++ [.access true, .put key val]
        tts := if rc = .success then update s.tts tt (some { t with commit := true }) else s.tts
      } := by
  obtain ⟨d, hd, hdb⟩ := h.db
  have hderef : (derefDb t.db).run s = .ok db s := by
    simp [derefDb, hd, hdb]
  rw [Db.trashPut, bind_of_ok (derefTt_of_some h.tt), h.rd, if_neg (by simp), bind_of_ok hderef, h.txn,
    bind_of_ok (mdbPut_of_active h.env h.active hput)]
  cases rc <;> rfl

theorem putRecord {n : Nat} {x' : Lmdb.Txn} {key val : Bytes} {flags : BitVec 32} {rc : Rc}
    (h : Writing tt i t x db s) (hroom : s.env.limits.Suffice n) (hput : x.put db.id key val flags .plain = (rc, x'))
    : (putRecord tt key val flags).run s = .ok (some rc) {
        s with
        env := s.env.setTxn i x'
        log := s.log ++ [.access true, .put key val]
        tts := if rc = .success then update s.tts tt (some { t with commit := true }) else s.tts
      } := by
  rw [putRecord_run, hroom.answer]
  exact h.trashPut hput

theorem put {x' : Lmdb.Txn} {key val : Bytes} {flags : BitVec 32} {answer : Lmdb.Answer} {rc : Rc} (log : List Call)
    (h : Writing tt i t x db s) (hput : x.put db.id key val flags answer = (rc, x'))
    : Writing tt i { t with commit := t.commit || rc == .success } x' db {
        s with
        env := s.env.setTxn i x'
        log := log
        tts := if rc = .success then update s.tts tt (some { t with commit := true }) else s.tts } := by
  obtain ⟨hstate, hrdonly⟩ : x'.state = .active ∧ x'.rdonly = false := by
    rcases Lmdb.Txn.put_cases hput with ⟨_, _, rfl⟩ | ⟨_, _, rfl⟩ | ⟨_, _, rfl⟩ <;>
      exact ⟨h.active, h.rdonly⟩
  refine ⟨?_, h.rd, h.wr, h.txn, h.db, by simp [Lmdb.Env.setTxn], hstate, hrdonly⟩
  by_cases hrc : rc = .success
  . simp [hrc]
  . simp [hrc, h.tt, beq_eq_false_iff_ne.mpr hrc]

theorem trashPuts (ps : List Put) (h : Writing tt i t x db s)
    : ∃ s' t', (trashPuts tt ps).run s = .ok ((x.putAll db.id ps).1.map some) s' ∧
        Writing tt i t' (x.putAll db.id ps).2 db s' ∧ s'.env.data = s.env.data ∧ s'.env.limits = s.env.limits ∧
        t'.commit = (t.commit || (x.putAll db.id ps).1.contains .success) := by
  induction ps generalizing s t x with
  | nil => exact ⟨s, t, rfl, h, rfl, rfl, by simp [Lmdb.Txn.putAll]⟩
  | cons p ps ih =>
    cases hput : x.put db.id p.key p.val p.flags p.answer with
    | mk rc x₁ =>
      obtain ⟨s', t', hrest, hw, hdata, hlimits, hcommit⟩ := ih (h.put _ hput)
      refine ⟨s', t', ?_, ?_, hdata, hlimits, ?_⟩
      . rw [Db.trashPuts, bind_of_ok (h.trashPut hput), bind_of_ok hrest]
        simp only [Lmdb.Txn.putAll, hput]
        rfl
      . simpa only [Lmdb.Txn.putAll, hput] using hw
      . rw [hcommit]
        simp only [Lmdb.Txn.putAll, hput, List.contains_cons, Bool.or_assoc]
        rw [show (rc == Rc.success) = (Rc.success == rc) from BEq.comm]

theorem createCursor {d : Lmdb.Dbi} (th : Nat) (h : Writing tt i t x db s) (hfailed : x.failed = false)
    (hd : x.handle db.id = some d)
    : (createCursor th (some tt)).run s = .ok s.nextCursor {
        s with
        cursors := update s.cursors s.nextCursor (some ⟨i, db.id⟩)
        nextCursor := s.nextCursor + 1
        log := s.log ++ [.access true]
      } := by
  obtain ⟨d', hd', hdb⟩ := h.db
  have husable : x.usable = true := Lmdb.Txn.usable_iff.mpr ⟨h.active, hfailed⟩
  have hopen : (mdbCursorOpen (some i) db.id).run s = .ok (some s.nextCursor) {
      s with
      cursors := update s.cursors s.nextCursor (some ⟨i, db.id⟩)
      nextCursor := s.nextCursor + 1
      log := s.log ++ [.access true] } := by
    rw [mdbCursorOpen, bind_of_ok (derefTxn_of_active h.env h.active)]
    simp [husable, hd]
  have hderef : (derefDb t.db).run s = .ok db s := by simp [derefDb, hd', hdb]
  rw [Db.createCursor, cursorTxn, bind_of_ok (EStateM.run_pure _ _), bind_of_ok (derefTt_of_some h.tt),
    hd', Option.isNone_some, when_false, bind_of_ok (EStateM.run_pure _ _), bind_of_ok (derefTt_of_some h.tt),
    bind_of_ok (EStateM.run_get s), h.rd, Bool.false_and]
  cases s.rdrPool th with
  | none =>
    rw [bind_of_ok hderef, h.txn, bind_of_ok hopen]
    rfl
  | some rdrs =>
    rw [bind_of_ok hderef, h.txn, bind_of_ok hopen]
    rfl

theorem release (th : Nat) (t' : TrashTxn) (s' : Sys) (h : Writing tt i t x db s) (hrd : t'.rd = false)
    (hdb : t'.db = t.db) (hdbs : s'.dbs = s.dbs)
    : ∃ s₂, (if t'.rd && t'.dontFin then setTt tt { t' with dontFin := false } else do
        giveBack th tt
        when t'.rd (returnToPool th tt t')
        releaseDb tt t' : M Unit).run s' = .ok () s₂ ∧ s₂.env = s'.env := by
  obtain ⟨d, hd, hd'⟩ := h.db
  rw [hrd, Bool.false_and, if_neg (by simp), giveBack, bind_of_ok (EStateM.run_modify _ _), when_false,
    bind_of_ok (EStateM.run_pure _ _)]
  have hderef : (derefDb t'.db).run { s' with out := s'.out.filter (· != (th, tt)) } =
      .ok db { s' with out := s'.out.filter (· != (th, tt)) } := by
    simp [derefDb, hdb, hd, hdbs, hd']
  rw [releaseDb, bind_of_ok hderef]
  exact ⟨_, rfl, rfl⟩

theorem returnTxn (th : Nat) (h : Writing tt i t x db s)
    (hclean : t.commit = true → x.failed = false ∧ s.env.limits.commitFails i = false)
    : ∃ s', (returnTxn th tt).run s = .ok () s' ∧
        s'.env.data = (if t.commit then x.view else s.env.data) ∧
        ∃ y, s'.env.txns i = some y ∧ y.state = .ended := by
  have hend := endTxn_write h.tt h.rd h.wr h.txn h.env h.active
  cases hcommit : t.commit with
  | true =>
    obtain ⟨hfailed, hcommits⟩ := hclean hcommit
    have heq : s.env.commit i x = (.success, {
        s.env.finish i x .ended with
        data := x.view
        dbis := s.env.dbis ++ x.opened }) := by
      simp [Lmdb.Env.commit, hfailed, hcommits, h.rdonly]
    rw [hcommit, if_pos rfl, if_pos (by rw [heq])] at hend
    obtain ⟨s', hrun, henv⟩ := h.release th { t with commit := false } {
      s with
      env := (s.env.commit i x).2
      tts := update s.tts tt (some { t with commit := false })
      log := s.log ++ [.access true] } h.rd rfl rfl
    refine ⟨s', by rw [Db.returnTxn, bind_of_ok hend]; exact hrun, ?_, { x with state := .ended, opened := [] }, ?_, rfl⟩
    . rw [henv, heq]
      rfl
    . rw [henv, Lmdb.Env.commit_txns, update_self]
  | false =>
    rw [hcommit, if_neg (by simp)] at hend
    obtain ⟨s', hrun, henv⟩ := h.release th t { s with env := s.env.finish i x .ended } h.rd rfl rfl
    refine ⟨s', by rw [Db.returnTxn, bind_of_ok hend]; exact hrun, ?_, { x with state := .ended, opened := [] }, ?_, rfl⟩
    . rw [henv, Lmdb.Env.finish_data]
      rfl
    . rw [henv, Lmdb.Env.finish_txns, update_self]

/--
LMDB does not commit a transaction that has run out of pages, and it may not be able to commit another one.
-/
theorem returnTxn_failed (th : Nat) (h : Writing tt i t x db s) (hcommit : t.commit = true)
    (hfailed : x.failed = true ∨ s.env.limits.commitFails i = true)
    : ∃ s', (Db.returnTxn th tt).run s = .error (.assertFailed .txnCommit) s' := by
  have hend := endTxn_write h.tt h.rd h.wr h.txn h.env h.active
  have hrc : (s.env.commit i x).1 ≠ .success := by
    rcases hfailed with hfailed | hfails
    . simp [Lmdb.Env.commit, hfailed]
    . unfold Lmdb.Env.commit
      split
      . nofun
      . rw [if_pos (by simp [h.rdonly, hfails])]
        nofun
  rw [hcommit, if_pos rfl, if_neg hrc] at hend
  exact ⟨_, by rw [Db.returnTxn, bind_of_error hend]⟩

end Writing

/--
The transaction `i` of LMDB is active after the puts `ps`, which returned `rcs`, and `return_txn` ends
it. The stored data are those before, or those with all puts that succeeded.
-/
structure EndsCleanly (th tt i : Nat) (data : Lmdb.Data) (name : Bytes) (ps : List Put) (rcs : List Rc)
    (s : Sys) : Prop where
  active : ∃ x, s.env.txns i = some x ∧ x.state = .active
  ended : ∃ s', (returnTxn th tt).run s = .ok () s' ∧ (∃ x, s'.env.txns i = some x ∧ x.state = .ended) ∧
    (s'.env.data = data ∨ s'.env.data = data.applied name ps rcs) ∧
    (.success ∉ rcs → s'.env.data = data)

/--
The condition for that: no put has succeeded, or none has run out of pages and LMDB can commit the transaction.
-/
def CanEnd (l : Lmdb.Limits) (i : Nat) (rcs : List Rc) : Prop :=
  .success ∈ rcs → .mapFull ∉ rcs ∧ l.commitFails i = false

theorem Writing.clean_iff {s : Sys} {tt i : Nat} {t : TrashTxn} {x : Lmdb.Txn} {db : OpenDb} (th : Nat)
    (h : Writing tt i t x db s) (hcommit : t.commit = false) (hfailed : x.failed = false)
    (hview : x.view = s.env.data) (ps : List Put)
    : ∃ s', (Db.trashPuts tt ps).run s = .ok ((x.putAll db.id ps).1.map some) s' ∧
        (EndsCleanly th tt i s.env.data (x.target db.id) ps (x.putAll db.id ps).1 s' ↔
          CanEnd s.env.limits i (x.putAll db.id ps).1) := by
  obtain ⟨s', t', hrun, hw, hdata, hlimits, hcommit'⟩ := h.trashPuts ps
  have heq := Lmdb.Txn.putAll_eq h.rdonly db.id ps
  generalize x.putAll db.id ps = r at *
  obtain ⟨rcs, x'⟩ := r
  dsimp only at *
  rw [hcommit, Bool.false_or] at hcommit'
  rw [hfailed, Bool.false_or, hview] at heq
  have hsuccess : t'.commit = true ↔ .success ∈ rcs := by rw [hcommit', List.contains_iff_mem]
  have hfull : x'.failed = true ↔ .mapFull ∈ rcs := by rw [heq, List.contains_iff_mem]
  refine ⟨s', hrun, ?_⟩
  constructor
  . rintro ⟨-, s₂, hreturn, -⟩ hmem
    by_contra hcan
    have hfailed' : x'.failed = true ∨ s'.env.limits.commitFails i = true := by
      rw [hfull, hlimits]
      simpa [Classical.or_iff_not_imp_left] using hcan
    obtain ⟨s₃, herror⟩ := hw.returnTxn_failed th (hsuccess.mpr hmem) hfailed'
    rw [hreturn] at herror
    cases herror
  . intro hcan
    have hclean : t'.commit = true → x'.failed = false ∧ s'.env.limits.commitFails i = false := by
      intro hmarked
      rw [hlimits, ← Bool.not_eq_true, hfull]
      exact hcan (hsuccess.mp hmarked)
    obtain ⟨s₂, hreturn, hstored, hended⟩ := hw.returnTxn th hclean
    refine ⟨⟨x', hw.env, hw.active⟩, s₂, hreturn, hended, ?_, ?_⟩
    . rw [hstored]
      split
      . right
        rw [heq]
      . left
        exact hdata
    . intro hnone
      have hunmarked : t'.commit = false := by
        rw [← Bool.not_eq_true, hsuccess]
        exact hnone
      rw [hstored, hunmarked]
      exact hdata

theorem writing_of_beginTxn {s₀ s : Sys} {th tt : Nat} {dbname : Bytes}
    (h : (beginTxn th dbname false).run s₀ = .ok (.success, tt) s)
    : ∃ t db, Writing tt s₀.env.nextTxn t (s₀.env.newTxn th false) db s ∧ t.commit = false ∧
        s.env.data = s₀.env.data ∧ s.env.limits = s₀.env.limits ∧ ∃ db₀ ∈ s₀.dbs, db₀.id = db.id := by
  cases hwriter : s₀.env.writer with
  | some j =>
    rw [beginTxn, bind_of_error (internalBeginTxn_busy hwriter)] at h
    cases h
  | none =>
    rw [beginTxn_write hwriter] at h
    split at h
    . next d hd =>
      cases h
      obtain ⟨hlt, -, -⟩ := List.findIdx?_eq_some_iff_getElem.mp hd
      let t : TrashTxn := {
        txn := some s₀.env.nextTxn
        rd := false
        wr := true
        commit := false
        dontFin := false
        db := some d }
      let db := { s₀.dbs[d] with count := Word.add32 s₀.dbs[d].count 1 }
      refine ⟨t, db, ?_, rfl, rfl, rfl, s₀.dbs[d], List.getElem_mem hlt, rfl⟩
      refine ⟨by simp [Sys.use, t], rfl, rfl, rfl, ⟨d, rfl, ?_⟩, ?_, rfl, rfl⟩
      . simp [Sys.use, Sys.handOut, Sys.begun, hlt, db]
      . simp [Sys.use, Sys.handOut, Sys.begun]
    . cases h

def Sys.target (s : Sys) (tt : Nat) : Bytes :=
  match s.tts tt with
  | none => []
  | some t =>
    match t.db.bind (s.dbs[·]?), t.txn.bind s.env.txns with
    | some db, some x => x.target db.id
    | _, _ => []

end Db
