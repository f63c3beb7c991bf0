import TrashDb.Lib.Word
import TrashDb.Db.Lemmas.Run

/-!
This module contains what the functions of `db.c` can change. A relation between states that holds across
each of the few kinds of writes that a function does holds across the whole function.
-/

namespace Db

open Prog Function

class TxnFrame (R : Sys → Sys → Prop) : Prop extends LmdbFrame R where
  tts (s : Sys) (tts : Nat → Option TrashTxn) (n : Nat) : R s { s with tts := tts, nextTt := n }
  out (s : Sys) (out : List (Nat × Nat)) : R s { s with out := out }
  -- the counters stay numbers of 32 bits
  count (s : Sys) (d : Nat) {f : OpenDb → Nat} (hf : ∀ db, db.count < 2 ^ 32 → f db < 2 ^ 32)
    : R s { s with dbs := s.dbs.modify d fun db => { db with count := f db } }
  pool (s : Sys) (txns : List Nat) {th : Nat} {rdrs : Readers} (hpool : s.rdrPool th = some rdrs)
    : R s { s with rdrPool := update s.rdrPool th (some { rdrs with txns := txns }) }

class AddFrame (R : Sys → Sys → Prop) : Prop extends TxnFrame R where
  add (s : Sys) (dbname : Bytes) (id : Nat) (flags : BitVec 32)
    : R s { s with dbs := s.dbs ++ [⟨dbname, flags, id, 0⟩] }

class OpenFrame (R : Sys → Sys → Prop) : Prop extends AddFrame R where
  pc (s : Sys) (pc : Nat → Pc) : R s { s with pc := pc }

section

variable {R : Sys → Sys → Prop} (th tt : Nat)

namespace TxnFrame

theorem of_le {R' : Sys → Sys → Prop} [TxnFrame R] [IsTrans Sys R'] (h : ∀ s s', R s s' → R' s s')
    : TxnFrame R' where
  refl s := h _ _ (refl (r := R) s)
  env s e := h _ _ (LmdbFrame.env s e)
  log s _ hc := h _ _ (LmdbFrame.log s hc)
  tts s _ n := h _ _ (tts s _ n)
  out s _ := h _ _ (out s _)
  count s d _ hf := h _ _ (count s d hf)
  pool s txns _ _ hpool := h _ _ (pool s txns hpool)

variable [TxnFrame R]

theorem setTt (t : TrashTxn) : Extends R (setTt tt t) := fun s => tts s _ s.nextTt

theorem giveBack : Extends R (giveBack th tt) := fun s => out s _

theorem internalCreateTrashTxn (txn : Option Nat) (rd : Bool) : Extends R (internalCreateTrashTxn txn rd) :=
  fun s => tts s _ _

theorem internalGetReadTxn : Extends R (internalGetReadTxn th) := by
  intro s
  unfold Db.internalGetReadTxn
  rw [bind_of_ok (EStateM.run_get s)]
  split
  . exact extends_bind (R := R) (LmdbFrame.mdbTxnBegin th true) (fun txn => internalCreateTrashTxn txn true) s
  . next rdrs hpool =>
    split
    . exact refl s
    . next tt txns _ =>
      refine IsTrans.trans _ { s with rdrPool := update s.rdrPool th (some { rdrs with txns := txns }) } _ ?_ ?_
      . exact pool s txns hpool
      . refine extends_bind (R := R) (LmdbFrame.derefTt tt) (fun t => ?_) _
        refine extends_bind (LmdbFrame.mdbTxnRenew th t.txn) fun rc => ?_
        exact extends_bind (extends_ensure _ _) fun _ => extends_pure _

theorem internalBeginTxn (rd : Bool) : Extends R (internalBeginTxn th rd) := by
  unfold Db.internalBeginTxn
  split
  . exact internalGetReadTxn th
  . exact extends_bind (LmdbFrame.mdbTxnBegin th false) fun txn => internalCreateTrashTxn txn false

theorem changeTxnDb (dbname : Bytes) : Extends R (changeTxnDb tt dbname) := by
  refine extends_bind (LmdbFrame.derefTt tt) fun t s => ?_
  rw [bind_of_ok (EStateM.run_get s)]
  split
  . exact refl s
  . split
    . exact refl s
    . next d _ =>
      exact IsTrans.trans _ _ _ (count s d fun db _ => Word.add32_lt db.count 1) (tts _ _ _)

theorem beginTxn (dbname : Bytes) (rd : Bool) : Extends R (beginTxn th dbname rd) := by
  refine extends_bind (internalBeginTxn th rd) fun tt => ?_
  refine extends_bind (fun s => out s _) fun _ => ?_
  exact extends_bind (changeTxnDb tt dbname) fun _ => extends_pure _

theorem endTxn : Extends R (endTxn tt) := by
  refine extends_bind (LmdbFrame.derefTt tt) fun t => ?_
  split
  . refine extends_bind (LmdbFrame.mdbTxnCommit _) fun rc => ?_
    refine extends_bind (extends_ensure _ _) fun _ => ?_
    exact extends_bind (setTt tt _) fun _ => extends_pure _
  . refine extends_bind (extends_when _ (LmdbFrame.mdbTxnAbort _)) fun _ => ?_
    exact extends_bind (extends_when _ (LmdbFrame.mdbTxnReset _)) fun _ => extends_pure _

theorem returnToPool (t : TrashTxn) : Extends R (returnToPool th tt t) := by
  intro s
  unfold Db.returnToPool
  rw [bind_of_ok (EStateM.run_get s)]
  split
  . exact refl s
  . next rdrs hpool =>
    split
    . exact pool s _ hpool
    . exact LmdbFrame.mdbTxnAbort _ s

theorem releaseDb (t : TrashTxn) : Extends R (releaseDb tt t) := by
  refine extends_bind (LmdbFrame.derefDb _) fun _ s => ?_
  refine IsTrans.trans _ _ _ (count s (t.db.getD 0) fun db => Word.sub32_lt (b := 1)) ?_
  exact tts (R := R) _ (if t.wr then update s.tts tt none else s.tts) s.nextTt

theorem returnTxn : Extends R (returnTxn th tt) := by
  refine extends_bind (endTxn tt) fun t => ?_
  split
  . exact setTt tt _
  . refine extends_bind (giveBack th tt) fun _ => ?_
    exact extends_bind (extends_when _ (returnToPool th tt t)) fun _ => releaseDb tt t

theorem trashPut {key val : Bytes} (hput : ∀ s, R s { s with log := s.log ++ [.put key val] }) (flags : BitVec 32)
    (answer : Lmdb.Answer)
    : Extends R (trashPut tt key val flags answer) := by
  refine extends_bind (LmdbFrame.derefTt tt) fun t => ?_
  split
  . apply extends_pure
  . refine extends_bind (LmdbFrame.derefDb _) fun db => ?_
    refine extends_bind (LmdbFrame.mdbPut _ hput _ _ _) fun rc => ?_
    exact extends_bind (extends_when _ (setTt tt _)) fun _ => extends_pure _

theorem putRecord {key val : Bytes} (hput : ∀ s, R s { s with log := s.log ++ [.put key val] }) (flags : BitVec 32)
    : Extends R (putRecord tt key val flags) :=
  extends_bind extends_get fun _ => trashPut tt hput flags _

theorem trashGet {key : Bytes} (hget : ∀ s res, R s { s with log := s.log ++ [.get key res] })
    : Extends R (trashGet tt key) := by
  refine extends_bind (LmdbFrame.derefTt tt) fun t => ?_
  refine extends_bind (LmdbFrame.derefDb _) fun db => ?_
  exact LmdbFrame.mdbGet _ hget _

theorem createReaders (n : Nat) : Extends R (createReaders th n) := by
  induction n with
  | zero => apply extends_pure
  | succ n ih =>
    refine extends_bind (LmdbFrame.mdbTxnBegin th true) fun txn => ?_
    refine extends_bind (extends_ensure _ _) fun _ => ?_
    refine extends_bind (LmdbFrame.mdbTxnReset txn) fun _ => ?_
    refine extends_bind (internalCreateTrashTxn txn true) fun tt => ?_
    exact extends_bind ih fun tts => extends_pure _

theorem createCursor [CursorFrame R] (tt : Option Nat) : Extends R (createCursor th tt) := by
  refine extends_bind ?_ fun tt => ?_
  . cases tt with
    | none => exact internalGetReadTxn th
    | some tt => apply extends_pure
  refine extends_bind (LmdbFrame.derefTt tt) fun t => ?_
  refine extends_bind (extends_when _ ?_) fun _ => ?_
  . exact extends_bind (changeTxnDb tt metadata) fun _ => extends_pure _
  refine extends_bind (LmdbFrame.derefTt tt) fun t => ?_
  refine extends_bind extends_get fun s => ?_
  split
  . refine extends_bind (CursorFrame.mdbCursorRenew _ _) fun _ => ?_
    exact extends_bind (extends_ensure _ _) fun _ => extends_pure _
  . refine extends_bind (LmdbFrame.derefDb _) fun db => ?_
    refine extends_bind (CursorFrame.mdbCursorOpen _ _) fun c => ?_
    split
    . apply extends_throw
    . apply extends_pure

end TxnFrame

namespace KeyFrame

variable [TxnFrame R] [KeyFrame R]

theorem trashPut (key val : Bytes) (flags : BitVec 32) (answer : Lmdb.Answer)
    : Extends R (trashPut tt key val flags answer) :=
  TxnFrame.trashPut tt (fun s => KeyFrame.key s (.put key val)) flags answer

theorem putRecord (key val : Bytes) (flags : BitVec 32) : Extends R (putRecord tt key val flags) :=
  TxnFrame.putRecord tt (fun s => KeyFrame.key s (.put key val)) flags

theorem trashGet (key : Bytes) : Extends R (trashGet tt key) :=
  TxnFrame.trashGet tt fun s res => KeyFrame.key s (.get key res)

end KeyFrame

namespace AddFrame

variable [AddFrame R]

theorem internalAddDb (dbname : Bytes) (id : Nat) (flags : BitVec 32)
    : Extends R (internalAddDb dbname id flags) := fun s => add s dbname id flags

theorem openRecords (after : Bytes → Bytes) (records : Lmdb.Contents)
    : ∀ dbMeta, Extends R (openRecords tt after dbMeta records) := by
  induction records with
  | nil => exact fun _ => extends_pure _
  | cons r records ih =>
    intro dbMeta
    unfold Db.openRecords
    split
    . split
      . apply extends_throw
      . refine extends_bind (LmdbFrame.derefTt tt) fun t => ?_
        refine extends_bind (LmdbFrame.mdbDbiOpen _ _ _) fun res => ?_
        split
        . apply extends_throw
        . exact extends_bind (internalAddDb _ _ _) fun _ => ih _
    . apply extends_pure

theorem initMetadata [KeyFrame R] [CursorFrame R] (after : Bytes → Bytes) : Extends R (initMetadata th after) := by
  refine extends_bind (TxnFrame.beginTxn th metadata false) fun ⟨rc, tt⟩ => extends_when _ ?_
  refine extends_bind (LmdbFrame.derefTt tt) fun t => ?_
  refine extends_bind (LmdbFrame.mdbDbiOpen _ _ _) fun res => ?_
  split
  . apply extends_throw
  . refine extends_bind (internalAddDb _ _ _) fun db => ?_
    refine extends_bind (TxnFrame.setTt tt _) fun _ => ?_
    refine extends_bind (KeyFrame.putRecord tt _ _ _) fun rc => ?_
    refine extends_bind (extends_ensure _ _) fun _ => ?_
    refine extends_bind (TxnFrame.createCursor th _) fun curr => ?_
    refine extends_bind (LmdbFrame.cursorRange _ _) fun records => ?_
    refine extends_bind (openRecords tt after records _) fun _ => ?_
    refine extends_bind (CursorFrame.returnCursor _) fun _ => ?_
    exact TxnFrame.returnTxn th tt

end AddFrame

namespace OpenFrame

variable [OpenFrame R]

theorem setPc (pc : Pc) : Extends R (setPc th pc) := fun s => OpenFrame.pc s _

theorem openDbi {dbname : Bytes} {dbMeta : BitVec 32}
    (hput : ∀ s, R s { s with log := s.log ++ [.put (dbRecord dbname dbMeta).1 (dbRecord dbname dbMeta).2] })
    (temp : Nat) (flags : BitVec 32)
    : Extends R (openDbi th tt temp dbname flags dbMeta) := by
  refine extends_bind (LmdbFrame.derefTt temp) fun t => ?_
  refine extends_bind (LmdbFrame.mdbDbiOpen _ _ _) fun res => ?_
  split
  . apply extends_throw
  . split
    . refine extends_bind (TxnFrame.putRecord temp hput _) fun rc => ?_
      exact extends_bind (extends_ensure _ _) fun _ => setPc th _
    . exact setPc th _

theorem openDb {dbname : Bytes} (hget : ∀ s res, R s { s with log := s.log ++ [.get dbname res] })
    (hput : ∀ s val, R s { s with log := s.log ++ [.put (dbKeyName dbname) val] }) (flags : BitVec 32)
    : Extends R (openDb th tt dbname flags) := by
  refine extends_bind (TxnFrame.changeTxnDb tt metadata) fun _ => ?_
  refine extends_bind (TxnFrame.trashGet tt hget) fun res => ?_
  split
  . split
    . apply extends_throw
    . exact openDbi th tt (fun s => hput s _) _ _
  . refine extends_bind (LmdbFrame.derefTt tt) fun t => ?_
    split
    . refine extends_bind (TxnFrame.setTt tt _) fun _ => ?_
      exact extends_bind (TxnFrame.returnTxn th tt) fun _ => setPc th _
    . exact openDbi th tt (fun s => hput s _) _ _
  . apply extends_throw

end OpenFrame

namespace KeyFrame

variable [OpenFrame R] [KeyFrame R]

theorem openDbi (temp : Nat) (dbname : Bytes) (flags dbMeta : BitVec 32)
    : Extends R (openDbi th tt temp dbname flags dbMeta) :=
  OpenFrame.openDbi th tt (fun s => KeyFrame.key s (.put _ _)) temp flags

theorem openDb (dbname : Bytes) (flags : BitVec 32) : Extends R (openDb th tt dbname flags) :=
  OpenFrame.openDb th tt (fun s res => KeyFrame.key s (.get dbname res))
    (fun s val => KeyFrame.key s (.put _ val)) flags

theorem openDbResume : Extends R (openDbResume th) := by
  refine extends_bind extends_get fun s => ?_
  split
  . apply extends_throw
  . exact extends_bind (TxnFrame.beginTxn th metadata false) fun r => openDbi th _ _ _ _ _
  . exact extends_bind (TxnFrame.returnTxn th _) fun _ => OpenFrame.setPc th _
  . refine extends_bind (LmdbFrame.derefTt _) fun t => ?_
    exact extends_bind (LmdbFrame.mdbTxnRenew th t.txn) fun _ => OpenFrame.setPc th _
  . refine extends_bind (AddFrame.internalAddDb _ _ _) fun db => ?_
    refine extends_bind (LmdbFrame.derefTt _) fun t => ?_
    exact extends_bind (TxnFrame.setTt _ _) fun _ => OpenFrame.setPc th _

end KeyFrame

end

def Action.inits : Action → Bool
  | .initMetadata _ _ | .initThreadLocalReaders _ => true
  | _ => false

def Action.opens : Action → Bool
  | .initMetadata _ _ | .openDb _ _ _ _ | .resume _ | .initThreadLocalReaders _ => true
  | _ => false

def Action.isCursor : Action → Bool
  | .createCursor _ _ | .returnCursor _ _ => true
  | _ => false

section

variable {R : Sys → Sys → Prop} {a : Action}

theorem TxnFrame.exec [TxnFrame R] [KeyFrame R] (hopens : a.opens = false) (hcursor : a.isCursor = false)
    : Extends R (exec a) := by
  cases a with
  | beginTxn th dbname rd =>
    refine extends_bind (LmdbFrame.ready th) fun _ => ?_
    exact extends_bind (TxnFrame.beginTxn th dbname rd) fun _ => extends_pure _
  | internalBeginTxn th rd =>
    refine extends_bind (LmdbFrame.ready th) fun _ => ?_
    refine extends_bind (TxnFrame.internalBeginTxn th rd) fun tt => ?_
    exact extends_bind (fun s => TxnFrame.out s _) fun _ => extends_pure _
  | changeTxnDb th tt dbname =>
    refine extends_bind (LmdbFrame.holds th tt) fun _ => ?_
    exact extends_bind (TxnFrame.changeTxnDb tt dbname) fun _ => extends_pure _
  | trashPut th tt key val flags answer =>
    refine extends_bind (LmdbFrame.holds th tt) fun _ => ?_
    exact extends_bind (KeyFrame.trashPut tt key val flags answer) fun _ => extends_pure _
  | trashGet th tt key =>
    refine extends_bind (LmdbFrame.holds th tt) fun _ => ?_
    exact extends_bind (KeyFrame.trashGet tt key) fun _ => extends_pure _
  | returnTxn th tt =>
    refine extends_bind (LmdbFrame.holds th tt) fun _ => ?_
    exact extends_bind (TxnFrame.returnTxn th tt) fun _ => extends_pure _
  | createCursor th tt => cases hcursor
  | returnCursor th c => cases hcursor
  | _ => cases hopens

theorem CursorFrame.exec [TxnFrame R] [KeyFrame R] [CursorFrame R] (hopens : a.opens = false)
    : Extends R (exec a) := by
  cases a with
  | createCursor th tt =>
    cases tt with
    | none =>
      refine extends_bind (LmdbFrame.ready th) fun _ => ?_
      exact extends_bind (TxnFrame.createCursor th none) fun _ => extends_pure _
    | some tt =>
      refine extends_bind (LmdbFrame.holds th tt) fun _ => ?_
      exact extends_bind (TxnFrame.createCursor th (some tt)) fun _ => extends_pure _
  | returnCursor th c =>
    refine extends_bind (LmdbFrame.ready th) fun _ => ?_
    exact extends_bind (CursorFrame.returnCursor c) fun _ => extends_pure _
  | _ => exact TxnFrame.exec hopens rfl

theorem OpenFrame.exec [OpenFrame R] [KeyFrame R] (hinits : a.inits = false) (hcursor : a.isCursor = false)
    : Extends R (exec a) := by
  cases a with
  | openDb th tt dbname flags =>
    refine extends_bind (LmdbFrame.holds th tt) fun _ => ?_
    exact extends_bind (KeyFrame.openDb th tt dbname flags) fun _ => extends_pure _
  | resume th => exact extends_bind (KeyFrame.openDbResume th) fun _ => extends_pure _
  | initMetadata th after => cases hinits
  | initThreadLocalReaders th => cases hinits
  | _ => exact TxnFrame.exec rfl hcursor

end

def Logged (s s' : Sys) : Prop := s.log <+: s'.log

instance : KeyFrame Logged where
  refl _ := List.prefix_refl _
  trans _ _ _ := List.IsPrefix.trans
  env _ _ := List.prefix_refl _
  log _ _ _ := List.prefix_append _ _
  key _ _ := List.prefix_append _ _

instance : CursorFrame Logged where
  cursors _ _ _ := List.prefix_refl _

instance : OpenFrame Logged where
  tts _ _ _ := List.prefix_refl _
  out _ _ := List.prefix_refl _
  count _ _ _ _ := List.prefix_refl _
  pool _ _ _ _ _ := List.prefix_refl _
  pc _ _ := List.prefix_refl _
  add _ _ _ _ := List.prefix_refl _

def OpenDb.entry (db : OpenDb) : Bytes × BitVec 32 × Nat := (db.name, db.flags, db.id)

def Sys.Counts (s : Sys) : Prop := ∀ db ∈ s.dbs, db.count < 2 ^ 32

/--
The registry stays as it is but for the counters, and every thread where it is in `open_db`.
-/
structure Framed (s s' : Sys) : Prop where
  dbs : s'.dbs.map OpenDb.entry = s.dbs.map OpenDb.entry
  pc : s'.pc = s.pc
  capacity : s'.capacity = s.capacity
  log : s.log <+: s'.log
  counts : s.Counts → s'.Counts
  pools : ∀ th, s.rdrPool th = none → s'.rdrPool th = none

namespace Framed

variable {s s' : Sys}

theorem entry_modify (d : Nat) (f : OpenDb → Nat) (dbs : List OpenDb)
    : (dbs.modify d fun db => { db with count := f db }).map OpenDb.entry = dbs.map OpenDb.entry := by
  apply List.ext_getElem?
  intro i
  simp only [List.getElem?_map, List.getElem?_modify]
  split
  . cases dbs[i]? <;> rfl
  . simp

theorem counts_modify {d : Nat} {f : OpenDb → Nat} (hf : ∀ db, db.count < 2 ^ 32 → f db < 2 ^ 32)
    (hcounts : s.Counts)
    : Sys.Counts { s with dbs := s.dbs.modify d fun db => { db with count := f db } } := by
  intro db hdb
  obtain ⟨i, hi⟩ := List.mem_iff_getElem?.mp hdb
  dsimp only at hi
  rw [List.getElem?_modify] at hi
  obtain ⟨db', hdb', heq⟩ := Option.map_eq_some_iff.mp hi
  have hlt := hcounts db' (List.mem_of_getElem? hdb')
  split at heq
  . rw [← heq]
    exact hf db' hlt
  . rw [← heq]
    exact hlt

theorem pools_update {th : Nat} {rdrs : Readers} {rdrs' : Option Readers} (hpool : s.rdrPool th = some rdrs)
    : ∀ th', s.rdrPool th' = none → update s.rdrPool th rdrs' th' = none := by
  intro th' hnone
  rw [update_of_ne]
  . exact hnone
  . rintro rfl
    rw [hpool] at hnone
    cases hnone

instance : KeyFrame Framed where
  refl _ := ⟨rfl, rfl, rfl, List.prefix_refl _, id, fun _ => id⟩
  trans _ _ _ h h' := ⟨h'.dbs.trans h.dbs, h'.pc.trans h.pc, h'.capacity.trans h.capacity, h.log.trans h'.log,
    fun hc => h'.counts (h.counts hc), fun th hp => h'.pools th (h.pools th hp)⟩
  env _ _ := ⟨rfl, rfl, rfl, List.prefix_refl _, id, fun _ => id⟩
  log _ _ _ := ⟨rfl, rfl, rfl, List.prefix_append _ _, id, fun _ => id⟩
  key _ _ := ⟨rfl, rfl, rfl, List.prefix_append _ _, id, fun _ => id⟩

instance : CursorFrame Framed where
  cursors _ _ _ := ⟨rfl, rfl, rfl, List.prefix_refl _, id, fun _ => id⟩

instance : TxnFrame Framed where
  tts _ _ _ := ⟨rfl, rfl, rfl, List.prefix_refl _, id, fun _ => id⟩
  out _ _ := ⟨rfl, rfl, rfl, List.prefix_refl _, id, fun _ => id⟩
  count s d f hf := ⟨entry_modify d f s.dbs, rfl, rfl, List.prefix_refl _, counts_modify hf, fun _ => id⟩
  pool _ _ _ _ hpool := ⟨rfl, rfl, rfl, List.prefix_refl _, id, pools_update hpool⟩

theorem names (h : Framed s s') : s'.dbs.map OpenDb.name = s.dbs.map OpenDb.name := by
  have hfst := congrArg (List.map fun e => e.1) h.dbs
  rw [List.map_map, List.map_map] at hfst
  exact hfst

theorem of_initThreadLocalReaders {th : Nat} {u : Unit} (hrun : (initThreadLocalReaders th).run s = .ok u s')
    : Framed s s' ∨ s.rdrPool th = none ∧
        ∃ s₁ rdrs, Framed s s₁ ∧ s' = { s₁ with rdrPool := update s₁.rdrPool th (some rdrs) } := by
  rw [initThreadLocalReaders, bind_of_ok (EStateM.run_get s)] at hrun
  cases hpool : s.rdrPool th with
  | some rdrs =>
    rw [hpool] at hrun
    cases hrun
    exact .inl (refl _)
  | none =>
    rw [hpool] at hrun
    obtain ⟨curr, s₁, hcursor, hrest⟩ := bind_eq_ok.mp hrun
    obtain ⟨txns, s₂, hreaders, hset⟩ := bind_eq_ok.mp hrest
    cases hset
    have hs₁ : Framed s s₁ := (TxnFrame.createCursor th none).of_run hcursor
    have hs₂ : Framed s₁ s₂ := (TxnFrame.createReaders th _).of_run hreaders
    exact .inr ⟨rfl, s₂, _, IsTrans.trans _ _ _ hs₁ hs₂, rfl⟩

end Framed

end Db
