import TrashDb.Lib.Assoc
import TrashDb.Db.Basic

/-!
This module contains what `db.c` relies on of LMDB, as `lmdb.h` documents it:
- A database is a finite map from byte strings to byte strings. A transaction works on the data that was
  committed before it began. There is one write transaction at a time.
- A thread has one slot for an active read transaction. A read transaction that is reset gives it back and
  can be renewed.
- A handle of a database is private to the transaction that has opened it until that is committed, and
  closed if it is not. A transaction knows the handles that were committed before it began, and its own.
- The flags of a database are not kept. What they make of a put, and what the flags of the put do, is the answer
  that the put is given.
- The limits that `mdb_env_set_maxdbs` and `mdb_env_set_mapsize` have set are those of the environment.

LMDB gives the number of a closed handle to a handle that is opened later, and one number to two handles that
are opened by two transactions at a time. A handle has its own number here, so what depends on that is stated for
runs that do neither.

The limit on the number of readers is left out.
-/

namespace Lmdb

open Db

abbrev Contents := List (Bytes × Bytes)

abbrev Data := List (Bytes × Contents)

inductive Rc where
  | success
  | keyExist
  | notFound
  | badRslot
  | badTxn
  | badValsize
  | mapFull
  | dbsFull
  | einval
  | eacces
  -- any other error
  | other
  deriving DecidableEq, Repr

/--
What LMDB makes of a put that it does not refuse for its arguments:
- `plain`: it is stored.
- `full`: there are no pages left, or another error marks the transaction as failed.
- `refused`: the transaction is left as it is. So are a key out of order with `MDB_APPEND` and a pair that is there
  with `MDB_NODUPDATA`.
- `values`: these are the values of the key then. With `MDB_RESERVE` they are the caller's, with `MDB_DUPSORT` the
  one that is put is added to them.
-/
inductive Answer where
  | plain
  | full
  | refused
  | values (val : Bytes) (more : List Bytes)
  deriving DecidableEq, Repr

/--
The value of a key after a put into the database of that name.
-/
def Data.store (data : Data) (name key val : Bytes) : Data :=
  Assoc.put name (Assoc.put key val ((data.lookup name).getD [])) data

def Data.put (data : Data) (name key val : Bytes) : Answer → Data
  | .values val' more => Assoc.put name (Assoc.putAll key (val' :: more) ((data.lookup name).getD [])) data
  | _ => data.store name key val

inductive TxnState where
  | active
  | reset
  | ended
  deriving DecidableEq, Repr

structure Dbi where
  id : Nat
  name : Bytes
  deriving DecidableEq, Repr

structure Txn where
  rdonly : Bool
  thread : Nat
  state : TxnState
  -- `MDB_TXN_ERROR`
  failed : Bool
  view : Data
  -- the handles that were committed before it began
  dbis : List Dbi
  -- the handles that were opened in it
  opened : List Dbi
  deriving DecidableEq, Repr

/--
The limits of an environment.
-/
structure Limits where
  -- `numdbs`, if there is a bound
  numdbs : Option Nat
  -- there are no pages left for what `db.c` itself does at that call
  full : Nat → Bool
  -- the pages of that transaction cannot be written
  commitFails : Nat → Bool

def Limits.unlimited : Limits := ⟨none, fun _ => false, fun _ => false⟩

def Limits.answer (l : Limits) (n : Nat) : Answer := if l.full n then .full else .plain

structure Env where
  limits : Limits
  data : Data
  dbis : List Dbi
  txns : Nat → Option Txn
  nextTxn : Nat
  nextDbi : Nat
  -- the active read transaction of a thread
  slots : Nat → Option Nat
  writer : Option Nat

namespace Txn

def known (t : Txn) : List Dbi := t.dbis ++ t.opened

def handle (t : Txn) (dbi : Nat) : Option Dbi := t.known.find? fun d => d.id == dbi

def usable (t : Txn) : Bool := t.state == .active && !t.failed

def get (t : Txn) (dbi : Nat) (key : Bytes) : Except Rc Bytes :=
  match t.handle dbi with
  | none => .error .einval
  | some d =>
    if !t.usable then
      .error .badTxn
    else if key = [] then
      .error .badValsize
    else
      match ((t.view.lookup d.name).getD []).lookup key with
      | none => .error .notFound
      | some val => .ok val

def put (t : Txn) (dbi : Nat) (key val : Bytes) (flags : BitVec 32) (answer : Answer) : Rc × Txn :=
  match t.handle dbi with
  | none => (.einval, t)
  | some d =>
    if flags &&& ~~~putFlags ≠ 0 then
      (.einval, t)
    else if t.rdonly then
      (.eacces, t)
    else if !t.usable then
      (.badTxn, t)
    else if key = [] ∨ 511 < key.length ∨ 4294967296 ≤ val.length then
      (.badValsize, t)
    else if flags &&& mdbNoOverwrite ≠ 0 ∧ (((t.view.lookup d.name).getD []).lookup key).isSome then
      (.keyExist, t)
    else
      match answer with
      | .full => (.mapFull, { t with failed := true })
      | .refused => (.other, t)
      | _ => (.success, { t with view := t.view.put d.name key val answer })

/--
`next` is the number of the handle if there is none of that name yet.
-/
def dbiOpen (t : Txn) (name : Bytes) (flags : BitVec 32) (next : Nat) : Except Rc (Nat × Txn) :=
  if flags &&& ~~~validFlags ≠ 0 then
    .error .einval
  else if !t.usable then
    .error .badTxn
  else
    match t.known.find? fun d => d.name == name with
    | some d => .ok (d.id, t)
    | none =>
      let opened := t.opened ++ [⟨next, name⟩]
      if name = [] then
        .error .badValsize
      else if (t.view.lookup name).isSome then
        .ok (next, { t with opened := opened })
      else if flags &&& mdbCreate = 0 then
        .error .notFound
      else if t.rdonly then
        .error .eacces
      else if 511 < name.length then
        .error .badValsize
      else
        .ok (next, { t with opened := opened, view := Assoc.put name [] t.view })

end Txn

namespace Env

def setTxn (e : Env) (i : Nat) (t : Txn) : Env := { e with txns := Function.update e.txns i (some t) }

/--
A transaction on what is committed now.
-/
def newTxn (e : Env) (th : Nat) (rdonly : Bool) : Txn where
  rdonly := rdonly
  thread := th
  state := .active
  failed := false
  view := e.data
  dbis := e.dbis
  opened := []

/--
There is no transaction if the slot of the thread is taken, which is `MDB_BAD_RSLOT`.
-/
def beginRead (e : Env) (th : Nat) : Option (Nat × Env) :=
  match e.slots th with
  | some _ => none
  | none =>
    let i := e.nextTxn
    let e := { e with nextTxn := i + 1, slots := Function.update e.slots th (some i) }
    some (i, e.setTxn i (e.newTxn th true))

/--
There is no transaction yet if another one is writing.
-/
def beginWrite (e : Env) (th : Nat) : Option (Nat × Env) :=
  match e.writer with
  | some _ => none
  | none =>
    let i := e.nextTxn
    let e := { e with nextTxn := i + 1, writer := some i }
    some (i, e.setTxn i (e.newTxn th false))

def renew (e : Env) (th i : Nat) (t : Txn) : Rc × Env :=
  if t.rdonly ∧ t.state = .reset then
    match e.slots th with
    | some _ => (.badRslot, e)
    | none =>
      let e := { e with slots := Function.update e.slots th (some i) }
      (.success, e.setTxn i (e.newTxn th true))
  else
    (.einval, e)

/--
The end of an active transaction, which closes the handles it has opened.
-/
def finish (e : Env) (i : Nat) (t : Txn) (state : TxnState) : Env :=
  let e := e.setTxn i { t with state := state, opened := [] }
  if t.state ≠ .active then
    e
  else if t.rdonly then
    { e with slots := Function.update e.slots t.thread none }
  else
    { e with writer := none }

def commit (e : Env) (i : Nat) (t : Txn) : Rc × Env :=
  if t.failed then
    (.badTxn, e.finish i t .ended)
  else if !t.rdonly && e.limits.commitFails i then
    (.other, e.finish i t .ended)
  else
    let data := if t.rdonly then e.data else t.view
    (.success, { e.finish i t .ended with data := data, dbis := e.dbis ++ t.opened })

/--
Why the transaction `t'` cannot have the handle that it has in addition to those of `t`, at the call `n`.
-/
def refusal (e : Env) (n : Nat) (t t' : Txn) : Option Rc :=
  if (e.limits.numdbs.any fun numdbs => numdbs ≤ t.known.length) ∧ t'.opened ≠ t.opened then
    some .dbsFull
  else if e.limits.full n ∧ t'.view ≠ t.view then
    some .mapFull
  else
    none

end Env

end Lmdb
