import TrashDb.Lib.Prog
import TrashDb.Lib.Word
import TrashDb.Db.Lmdb

/-!
This module contains `db.c` as a system of threads that call its functions. A function is a program on the
state of all threads, a call of it is one step. Two functions are cut where other threads can come in between:
- `begin_txn` is `internalBeginTxn` and then `changeTxnDb`. The action `beginTxn` is both of them where no other
  thread comes in between. It makes no difference to a call for the metadata, whose entry is the first one.
- `open_db` is cut where it waits for the other writers, and before it commits, renews and publishes what the
  others can see.

A program stops if an `assert` fails or if its behaviour is undefined. It is not enabled while another
thread is writing, nor if the caller does not have the transaction that it is called with.

The registry `dbs` only grows, an open database is the place it has there. Its name is a copy of the bytes that
the pointer in the source points to, which are the caller's or a record's in a page of LMDB. That these keep their
contents is taken for granted but in `Db.Lemmas.Registry`. So is the memory of a `TrashTxn`: the source allocates
the size of a pointer for it and writes 24 bytes, which the smallest block of `malloc` holds.

The fields `out` and `log` record the history. No function of the source reads them:
- `out` are the transactions that were handed out and not returned yet, with their threads.
- `log` are the calls of LMDB in their order.
-/

namespace Db

open Lmdb (Answer Rc)
open Word Prog

inductive TrashRc where
  | success
  | dbDne
  deriving DecidableEq, Repr

/--
The calls whose result is the condition of an `assert`, and the `assert(0)`.
-/
inductive Assert where
  | txnBegin
  | txnRenew
  | txnCommit
  | cursorOpen
  | cursorRenew
  | dbiOpen
  | put
  | get
  | poolEmpty
  deriving DecidableEq, Repr

inductive Stop where
  | assertFailed (a : Assert)
  | undefined
  | disabled
  deriving DecidableEq, Repr

/--
A call of LMDB. `clash` says that the thread has another active read transaction.
-/
inductive Call where
  | txnBegin (rdonly clash : Bool)
  | txnRenew (clash : Bool)
  -- any call that is given a transaction to work with
  | access (live : Bool)
  | get (key : Bytes) (res : Except Rc Bytes)
  | put (key val : Bytes)
  | dbiOpen (name : Bytes) (flags : BitVec 32)

structure OpenDb where
  name : Bytes
  flags : BitVec 32
  id : Nat
  count : Nat
  deriving DecidableEq, Repr

/--
The field `txn` is `none` if the pointer is not initialized.
-/
structure TrashTxn where
  txn : Option Nat
  rd : Bool
  wr : Bool
  commit : Bool
  dontFin : Bool
  db : Option Nat
  deriving DecidableEq, Repr

/--
The cursor is `none` once it has been closed.
-/
structure Cursor where
  txn : Nat
  dbi : Nat
  deriving DecidableEq, Repr

/--
The transactions are those in the array up to `numTxns`, the last one first.
-/
structure Readers where
  iCurr : Nat
  txns : List Nat
  deriving DecidableEq, Repr

inductive Pc where
  | idle
  | begin (tt : Nat) (dbname : Bytes) (flags : BitVec 32)
  | commit (tt temp : Nat) (dbname : Bytes) (id : Nat) (dbMeta : BitVec 32)
  | renew (tt : Nat) (dbname : Bytes) (id : Nat) (dbMeta : BitVec 32)
  | publish (tt : Nat) (dbname : Bytes) (id : Nat) (dbMeta : BitVec 32)
  deriving DecidableEq, Repr

structure Sys where
  env : Lmdb.Env
  dbs : List OpenDb
  tts : Nat → Option TrashTxn
  nextTt : Nat
  cursors : Nat → Option Cursor
  nextCursor : Nat
  rdrPool : Nat → Option Readers
  -- `TXN_POOL_CAPACITY`
  capacity : Nat
  pc : Nat → Pc
  out : List (Nat × Nat)
  log : List Call

abbrev M := EStateM Stop Sys

section

variable (th tt : Nat)

def call (c : Call) : M Unit := modify fun s => { s with log := s.log ++ [c] }

def setEnv (e : Lmdb.Env) : M Unit := modify fun s => { s with env := e }

def setTt (t : TrashTxn) : M Unit :=
  modify fun s => { s with tts := Function.update s.tts tt (some t) }

def setPc (pc : Pc) : M Unit := modify fun s => { s with pc := Function.update s.pc th pc }

def derefTt : M TrashTxn := do
  let s ← get
  match s.tts tt with
  | none => throw .undefined
  | some t => pure t

/--
The database that `tt->db` points to.
-/
def derefDb (db : Option Nat) : M OpenDb := do
  let s ← get
  match db.bind (s.dbs[·]?) with
  | none => throw .undefined
  | some db => pure db

/--
The use of a transaction by LMDB, which was not freed.
-/
def derefTxn (txn : Option Nat) : M (Nat × Lmdb.Txn) := do
  let s ← get
  match txn.bind fun i => (s.env.txns i).map fun t => (i, t) with
  | none =>
    call (.access false)
    throw .undefined
  | some (i, t) =>
    call (.access (t.state == .active))
    if t.state = .ended then throw .undefined else pure (i, t)

def mdbTxnBegin (rdonly : Bool) : M (Option Nat) := do
  let s ← get
  if rdonly then
    call (.txnBegin true (s.env.slots th).isSome)
    match s.env.beginRead th with
    | none => pure none
    | some (i, e) =>
      setEnv e
      pure (some i)
  else
    match s.env.beginWrite th with
    | none => throw .disabled
    | some (i, e) =>
      call (.txnBegin false false)
      setEnv e
      pure (some i)

def mdbTxnRenew (txn : Option Nat) : M Rc := do
  let s ← get
  match txn.bind fun i => (s.env.txns i).map fun t => (i, t) with
  | none =>
    call (.access false)
    throw .undefined
  | some (i, t) =>
    call (.txnRenew (s.env.slots th).isSome)
    let (rc, e) := s.env.renew th i t
    setEnv e
    pure rc

def mdbTxnReset (txn : Option Nat) : M Unit := do
  let (i, t) ← derefTxn txn
  modify fun s => { s with env := s.env.finish i t .reset }

/--
A read transaction may be reset before.
-/
def mdbTxnAbort (txn : Option Nat) : M Unit := do
  let s ← get
  match txn.bind fun i => (s.env.txns i).map fun t => (i, t) with
  | none => throw .undefined
  | some (i, t) => setEnv (s.env.finish i t .ended)

def mdbTxnCommit (txn : Option Nat) : M Rc := do
  let (i, t) ← derefTxn txn
  let s ← get
  let (rc, e) := s.env.commit i t
  setEnv e
  pure rc

def mdbGet (txn : Option Nat) (dbi : Nat) (key : Bytes) : M (Except Rc Bytes) := do
  let (_, t) ← derefTxn txn
  call (.get key (t.get dbi key))
  pure (t.get dbi key)

def mdbPut (txn : Option Nat) (dbi : Nat) (key val : Bytes) (flags : BitVec 32) (answer : Answer)
    : M Rc := do
  let (i, t) ← derefTxn txn
  call (.put key val)
  let (rc, t) := t.put dbi key val flags answer
  modify fun s => { s with env := s.env.setTxn i t }
  pure rc

def mdbDbiOpen (txn : Option Nat) (name : Bytes) (flags : BitVec 32) : M (Except Rc Nat) := do
  let (i, t) ← derefTxn txn
  call (.dbiOpen name flags)
  let s ← get
  match t.dbiOpen name flags s.env.nextDbi with
  | .error rc => pure (.error rc)
  | .ok (id, t') =>
    match s.env.refusal s.log.length t t' with
    | some rc => pure (.error rc)
    | none =>
      setEnv { s.env.setTxn i t' with nextDbi := s.env.nextDbi + 1 }
      pure (.ok id)

def mdbCursorOpen (txn : Option Nat) (dbi : Nat) : M (Option Nat) := do
  let (i, t) ← derefTxn txn
  if t.usable ∧ (t.handle dbi).isSome then
    let s ← get
    let c := s.nextCursor
    set { s with cursors := Function.update s.cursors c (some ⟨i, dbi⟩), nextCursor := c + 1 }
    pure (some c)
  else
    pure none

def mdbCursorRenew (txn : Option Nat) (c : Nat) : M Bool := do
  let (i, t) ← derefTxn txn
  let s ← get
  match s.cursors c with
  | none => throw .undefined
  | some curr =>
    if t.usable ∧ (t.handle curr.dbi).isSome then
      set { s with cursors := Function.update s.cursors c (some { curr with txn := i }) }
      pure true
    else
      pure false

def dbMatch (db : Option OpenDb) (dbname : Bytes) : Bool :=
  match db with
  | none => false
  | some db => db.name == dbname

def internalAddDb (dbname : Bytes) (id : Nat) (flags : BitVec 32) : M Nat := do
  let s ← get
  let db := { name := dbname, flags := flags, id := id, count := 0 }
  set { s with dbs := s.dbs ++ [db] }
  pure s.dbs.length

def internalCreateTrashTxn (txn : Option Nat) (rd : Bool) : M Nat := do
  let s ← get
  let tt := s.nextTt
  let t := { txn := txn, rd := rd, wr := !rd, commit := false, dontFin := false, db := none }
  set { s with tts := Function.update s.tts tt (some t), nextTt := tt + 1 }
  pure tt

def internalGetReadTxn : M Nat := do
  let s ← get
  match s.rdrPool th with
  | none =>
    -- the result of `mdb_txn_begin` is not looked at
    let txn ← mdbTxnBegin th true
    internalCreateTrashTxn txn true
  | some rdrs =>
    match rdrs.txns with
    | [] => throw (.assertFailed .poolEmpty)
    | tt :: txns =>
      set { s with rdrPool := Function.update s.rdrPool th (some { rdrs with txns := txns }) }
      let t ← derefTt tt
      let rc ← mdbTxnRenew th t.txn
      ensure (rc == .success) (.assertFailed .txnRenew)
      pure tt

def internalBeginTxn (rd : Bool) : M Nat := do
  if rd then
    internalGetReadTxn th
  else
    let txn ← mdbTxnBegin th false
    internalCreateTrashTxn txn false

def changeTxnDb (dbname : Bytes) : M TrashRc := do
  let t ← derefTt tt
  let s ← get
  if dbMatch (t.db.bind (s.dbs[·]?)) dbname then
    pure .success
  else
    match s.dbs.findIdx? fun db => dbMatch (some db) dbname with
    | none => pure .dbDne
    | some d =>
      set { s with dbs := s.dbs.modify d fun db => { db with count := add32 db.count 1 } }
      setTt tt { t with db := some d }
      pure .success

def beginTxn (dbname : Bytes) (rd : Bool) : M (TrashRc × Nat) := do
  let tt ← internalBeginTxn th rd
  modify fun s => { s with out := (th, tt) :: s.out }
  let rc ← changeTxnDb tt dbname
  pure (rc, tt)

/--
The part of `return_txn` in which LMDB ends the transaction.
-/
def endTxn : M TrashTxn := do
  let t ← derefTt tt
  if t.commit then
    let rc ← mdbTxnCommit t.txn
    ensure (rc == .success) (.assertFailed .txnCommit)
    let t := { t with commit := false }
    setTt tt t
    pure t
  else
    when t.wr (mdbTxnAbort t.txn)
    when t.rd (mdbTxnReset t.txn)
    pure t

/--
The caller does not have the transaction any more.
-/
def giveBack : M Unit := modify fun s => { s with out := s.out.filter (· != (th, tt)) }

def returnToPool (t : TrashTxn) : M Unit := do
  let s ← get
  match s.rdrPool th with
  | none => throw .undefined
  | some rdrs =>
    if rdrs.txns.length < s.capacity then
      let rdrs := { rdrs with txns := tt :: rdrs.txns }
      set { s with rdrPool := Function.update s.rdrPool th (some rdrs) }
    else
      mdbTxnAbort t.txn

/--
The end of `return_txn`.
-/
def releaseDb (t : TrashTxn) : M Unit := do
  let _ ← derefDb t.db
  modify fun s =>
    {
      s with
      dbs := s.dbs.modify (t.db.getD 0) fun db => { db with count := sub32 db.count 1 }
      tts := if t.wr then Function.update s.tts tt none else s.tts
    }

def returnTxn : M Unit := do
  let t ← endTxn tt
  if t.rd && t.dontFin then
    setTt tt { t with dontFin := false }
  else
    giveBack th tt
    when t.rd (returnToPool th tt t)
    releaseDb tt t

def cursorTxn : Option Nat → M Nat
  | none => internalGetReadTxn th
  | some tt => pure tt

def createCursor (tt : Option Nat) : M Nat := do
  let tt ← cursorTxn th tt
  let t ← derefTt tt
  when t.db.isNone do
    let _ ← changeTxnDb tt metadata
  let t ← derefTt tt
  let s ← get
  match s.rdrPool th, t.rd && dbMatch (t.db.bind (s.dbs[·]?)) metadata with
  | some rdrs, true =>
    let renewed ← mdbCursorRenew t.txn rdrs.iCurr
    ensure renewed (.assertFailed .cursorRenew)
    pure rdrs.iCurr
  | _, _ =>
    let db ← derefDb t.db
    match ← mdbCursorOpen t.txn db.id with
    | none => throw (.assertFailed .cursorOpen)
    | some c => pure c

def returnCursor (c : Nat) : M Unit := do
  let s ← get
  match s.cursors c with
  | none => throw .undefined
  | some _ => set { s with cursors := Function.update s.cursors c none }

/--
The result is `none` for `TRASH_ERROR`.
-/
def trashPut (key val : Bytes) (flags : BitVec 32) (answer : Answer) : M (Option Rc) := do
  let t ← derefTt tt
  if t.rd then
    pure none
  else
    let db ← derefDb t.db
    let rc ← mdbPut t.txn db.id key val flags answer
    when (rc == .success) (setTt tt { t with commit := true })
    pure (some rc)

/--
A put of `db.c` itself.
-/
def putRecord (key val : Bytes) (flags : BitVec 32) : M (Option Rc) := do
  let s ← get
  trashPut tt key val flags (s.env.limits.answer s.log.length)

def trashGet (key : Bytes) : M (Except Rc Bytes) := do
  let t ← derefTt tt
  let db ← derefDb t.db
  mdbGet t.txn db.id key

def createReaders : Nat → M (List Nat)
  | 0 => pure []
  | n + 1 => do
    let txn ← mdbTxnBegin th true
    ensure txn.isSome (.assertFailed .txnBegin)
    mdbTxnReset txn
    let tt ← internalCreateTrashTxn txn true
    let tts ← createReaders n
    pure (tts ++ [tt])

def initThreadLocalReaders : M Unit := do
  let s ← get
  when (s.rdrPool th).isNone do
    let curr ← createCursor th none
    let txns ← createReaders th s.capacity
    let rdrs := { iCurr := curr, txns := txns }
    modify fun s => { s with rdrPool := Function.update s.rdrPool th (some rdrs) }

/--
The records that the cursor goes through from the first key that is not smaller.
-/
def cursorRange (c : Nat) (key : Bytes) : M Lmdb.Contents := do
  let s ← get
  match s.cursors c with
  | none => throw .undefined
  | some curr =>
    let (_, t) ← derefTxn (some curr.txn)
    match t.handle curr.dbi with
    | none => pure []
    | some d => pure (((t.view.lookup d.name).getD []).dropWhile fun r => r.1 < key)

/--
The loop of `init_metadata`, `after` is the memory behind the record of a key.
-/
def openRecords (after : Bytes → Bytes) (dbMeta : BitVec 32) : Lmdb.Contents → M Unit
  | [] => pure ()
  | (key, val) :: records => do
    if (key ++ val ++ after key).take dbPrefix.length = dbPrefix then
      match readRecord dbMeta key val (after key) with
      | none => throw .undefined
      | some (dbname, dbMeta) =>
        let t ← derefTt tt
        match ← mdbDbiOpen t.txn dbname dbMeta with
        | .error _ => throw (.assertFailed .dbiOpen)
        | .ok dbi =>
          let _ ← internalAddDb dbname dbi dbMeta
          openRecords after dbMeta records

def initMetadata (after : Bytes → Bytes) : M Unit := do
  let (rc, tt) ← beginTxn th metadata false
  when (rc == .dbDne) do
    let t ← derefTt tt
    match ← mdbDbiOpen t.txn metadata metadataFlags with
    | .error _ => throw (.assertFailed .dbiOpen)
    | .ok dbi =>
      let db ← internalAddDb metadata dbi metadataFlags
      setTt tt { t with db := some db, commit := true }
      let rc ← putRecord tt metaMeta [] mdbNoOverwrite
      ensure (rc == some .success || rc == some .keyExist) (.assertFailed .put)
      let curr ← createCursor th (some tt)
      let records ← cursorRange curr dbPrefix
      openRecords tt after metadataFlags records
      returnCursor curr
      returnTxn th tt

/--
The part of `open_db` from `mdb_dbi_open` on, up to where it commits or publishes the database.
-/
def openDbi (temp : Nat) (dbname : Bytes) (flags dbMeta : BitVec 32) : M Unit := do
  let t ← derefTt temp
  match ← mdbDbiOpen t.txn dbname flags with
  | .error _ => throw (.assertFailed .dbiOpen)
  | .ok id =>
    if flags &&& mdbCreate ≠ 0 then
      let (key, val) := dbRecord dbname dbMeta
      let rc ← putRecord temp key val 0
      ensure (rc == some .success) (.assertFailed .put)
      let dbMeta := dbMeta &&& ~~~mdbCreate
      setPc th (if temp ≠ tt then .commit tt temp dbname id dbMeta else .renew tt dbname id dbMeta)
    else
      setPc th (.publish tt dbname id dbMeta)

/--
The part of `open_db` up to `mdb_dbi_open`, or to where it waits for the other writers.
-/
def openDb (dbname : Bytes) (flags : BitVec 32) : M Unit := do
  let _ ← changeTxnDb tt metadata
  match ← trashGet tt dbname with
  | .ok data =>
    match readFlags data with
    | none => throw .undefined
    | some dbMeta => openDbi th tt tt dbname (flags &&& dbMeta) dbMeta
  | .error .notFound =>
    let t ← derefTt tt
    if t.rd then
      setTt tt { t with dontFin := true }
      returnTxn th tt
      setPc th (.begin tt dbname flags)
    else
      openDbi th tt tt dbname (flags ||| mdbCreate) flags
  | .error _ => throw (.assertFailed .get)

/--
The rest of `open_db`.
-/
def openDbResume : M Unit := do
  let s ← get
  match s.pc th with
  | .idle => throw .disabled
  | .begin tt dbname flags =>
    let (_, temp) ← beginTxn th metadata false
    openDbi th tt temp dbname (flags ||| mdbCreate) flags
  | .commit tt temp dbname id dbMeta =>
    returnTxn th temp
    setPc th (.renew tt dbname id dbMeta)
  | .renew tt dbname id dbMeta =>
    let t ← derefTt tt
    let _ ← mdbTxnRenew th t.txn
    setPc th (.publish tt dbname id dbMeta)
  | .publish tt dbname id dbMeta =>
    let db ← internalAddDb dbname id dbMeta
    let t ← derefTt tt
    setTt tt { t with db := some db }
    setPc th .idle

end

inductive Action where
  | initThreadLocalReaders (th : Nat)
  | initMetadata (th : Nat) (after : Bytes → Bytes)
  | beginTxn (th : Nat) (dbname : Bytes) (rd : Bool)
  | internalBeginTxn (th : Nat) (rd : Bool)
  | changeTxnDb (th tt : Nat) (dbname : Bytes)
  | openDb (th tt : Nat) (dbname : Bytes) (flags : BitVec 32)
  | resume (th : Nat)
  | createCursor (th : Nat) (tt : Option Nat)
  | returnCursor (th c : Nat)
  | trashPut (th tt : Nat) (key val : Bytes) (flags : BitVec 32) (answer : Answer)
  | trashGet (th tt : Nat) (key : Bytes)
  | returnTxn (th tt : Nat)

inductive Ret where
  | void
  | rc (rc : TrashRc)
  | txn (rc : TrashRc) (tt : Nat)
  | begun (tt : Nat)
  | cursor (c : Nat)
  | put (rc : Option Rc)
  | get (res : Except Rc Bytes)

def ready (th : Nat) : M Unit := do
  let s ← get
  ensure (s.pc th == .idle) .disabled

/--
The thread has the transaction that it calls a function with.
-/
def holds (th tt : Nat) : M Unit := do
  ready th
  let s ← get
  ensure (s.out.contains (th, tt)) .disabled

def exec : Action → M Ret
  | .initThreadLocalReaders th => do
    ready th
    initThreadLocalReaders th
    pure .void
  | .initMetadata th after => do
    ready th
    initMetadata th after
    pure .void
  | .beginTxn th dbname rd => do
    ready th
    let (rc, tt) ← beginTxn th dbname rd
    pure (.txn rc tt)
  | .internalBeginTxn th rd => do
    ready th
    let tt ← internalBeginTxn th rd
    modify fun s => { s with out := (th, tt) :: s.out }
    pure (.begun tt)
  | .changeTxnDb th tt dbname => do
    holds th tt
    return .rc (← changeTxnDb tt dbname)
  | .openDb th tt dbname flags => do
    holds th tt
    openDb th tt dbname flags
    pure .void
  | .resume th => do
    openDbResume th
    pure .void
  | .createCursor th none => do
    ready th
    return .cursor (← createCursor th none)
  | .createCursor th (some tt) => do
    holds th tt
    return .cursor (← createCursor th (some tt))
  | .returnCursor th c => do
    ready th
    returnCursor c
    pure .void
  | .trashPut th tt key val flags answer => do
    holds th tt
    return .put (← trashPut tt key val flags answer)
  | .trashGet th tt key => do
    holds th tt
    return .get (← trashGet tt key)
  | .returnTxn th tt => do
    holds th tt
    returnTxn th tt
    pure .void

namespace Sys

/--
The state in which `open_env` calls `init_metadata`, with what the file contains.
-/
def initWith (limits : Lmdb.Limits) (data : Lmdb.Data) : Sys where
  env := {
    limits := limits
    data := data
    dbis := []
    txns := fun _ => none
    nextTxn := 0
    nextDbi := 0
    slots := fun _ => none
    writer := none
  }
  dbs := []
  tts := fun _ => none
  nextTt := 0
  cursors := fun _ => none
  nextCursor := 0
  rdrPool := fun _ => none
  capacity := 1
  pc := fun _ => .idle
  out := []
  log := []

/--
A call of `db.c` that reaches one of the limits fails its `assert`, so no run is left out here.
-/
abbrev init (data : Lmdb.Data) : Sys := initWith .unlimited data

def step (s : Sys) (a : Action) : Option Sys :=
  match (exec a).run s with
  | .ok _ s' => some s'
  | .error _ _ => none

end Sys

end Db
