import TrashDb.Db.Lemmas.Run

/-!
This module contains the functions of `db.c` that change the data, the counters and the database of a
transaction only: no transaction begins or ends, no database is opened and nothing is handed out.
-/

namespace Lmdb

def Txn.core (x : Txn) : Bool × Nat × TxnState × List Dbi × List Dbi :=
  (x.rdonly, x.thread, x.state, x.dbis, x.opened)

end Lmdb

namespace Db

open Prog Function

def TrashTxn.core (t : TrashTxn) : Option Nat × Bool × Bool × Bool × Bool :=
  (t.txn, t.rd, t.wr, t.dontFin, t.rd && t.commit)

/--
The states agree but for the data, the counters, and which transactions are to be committed.
-/
structure Alike (s s' : Sys) : Prop where
  nextTxn : s'.env.nextTxn = s.env.nextTxn
  slots : s'.env.slots = s.env.slots
  dbis : s'.env.dbis = s.env.dbis
  txns : ∀ i, (s'.env.txns i).map Lmdb.Txn.core = (s.env.txns i).map Lmdb.Txn.core
  tts : ∀ tt, (s'.tts tt).map TrashTxn.core = (s.tts tt).map TrashTxn.core
  nextTt : s'.nextTt = s.nextTt
  out : s'.out = s.out
  rdrPool : s'.rdrPool = s.rdrPool
  capacity : s'.capacity = s.capacity
  pc : s'.pc = s.pc
  dbs : s'.dbs.map (fun db => (db.name, db.id)) = s.dbs.map (fun db => (db.name, db.id))

namespace Alike

instance : Std.Refl Alike :=
  ⟨fun _ => ⟨rfl, rfl, rfl, fun _ => rfl, fun _ => rfl, rfl, rfl, rfl, rfl, rfl, rfl⟩⟩

instance : IsTrans Sys Alike := by
  constructor
  intro a b c h h'
  exact ⟨h'.nextTxn.trans h.nextTxn, h'.slots.trans h.slots, h'.dbis.trans h.dbis,
    fun i => (h'.txns i).trans (h.txns i), fun tt => (h'.tts tt).trans (h.tts tt),
    h'.nextTt.trans h.nextTt, h'.out.trans h.out, h'.rdrPool.trans h.rdrPool,
    h'.capacity.trans h.capacity, h'.pc.trans h.pc, h'.dbs.trans h.dbs⟩

variable {s s' : Sys} {i tt : Nat}

theorem txn_of_some {x' : Lmdb.Txn} (h : Alike s s') (hx : s'.env.txns i = some x')
    : ∃ x, s.env.txns i = some x ∧ x.core = x'.core := by
  have hi := h.txns i
  rw [hx, Option.map_some] at hi
  exact Option.map_eq_some_iff.mp hi.symm

theorem tt_of_some {t' : TrashTxn} (h : Alike s s') (ht : s'.tts tt = some t')
    : ∃ t, s.tts tt = some t ∧ t.core = t'.core := by
  have htt := h.tts tt
  rw [ht, Option.map_some] at htt
  exact Option.map_eq_some_iff.mp htt.symm

theorem call (c : Call) : Extends Alike (call c) :=
  fun _ => ⟨rfl, rfl, rfl, fun _ => rfl, fun _ => rfl, rfl, rfl, rfl, rfl, rfl, rfl⟩

theorem derefTt (tt : Nat) : Extends Alike (derefTt tt) := by
  refine extends_bind extends_get fun s => ?_
  split
  . apply extends_throw
  . apply extends_pure

theorem derefDb (db : Option Nat) : Extends Alike (derefDb db) := by
  refine extends_bind extends_get fun s => ?_
  split
  . apply extends_throw
  . apply extends_pure

theorem derefTxn (txn : Option Nat) : Extends Alike (derefTxn txn) := by
  refine extends_bind extends_get fun s => ?_
  split
  . exact extends_bind (call _) fun _ => extends_throw _
  . refine extends_bind (call _) fun _ => ?_
    split
    . apply extends_throw
    . apply extends_pure

theorem mdbGet (txn : Option Nat) (dbi : Nat) (key : Bytes) : Extends Alike (mdbGet txn dbi key) := by
  refine extends_bind (derefTxn txn) fun _ => ?_
  exact extends_bind (call _) fun _ => extends_pure _

theorem trashGet (tt : Nat) (key : Bytes) : Extends Alike (trashGet tt key) := by
  refine extends_bind (derefTt tt) fun t => ?_
  exact extends_bind (derefDb _) fun db => mdbGet _ _ _

theorem ready (th : Nat) : Extends Alike (ready th) :=
  extends_bind extends_get fun _ => extends_ensure _ _

theorem holds (th tt : Nat) : Extends Alike (holds th tt) := by
  refine extends_bind (ready th) fun _ => ?_
  exact extends_bind extends_get fun _ => extends_ensure _ _

theorem setTt {t t' : TrashTxn} (ht : s.tts tt = some t) (hcore : t'.core = t.core)
    : Alike s { s with tts := update s.tts tt (some t') } := by
  refine ⟨rfl, rfl, rfl, fun _ => rfl, ?_, rfl, rfl, rfl, rfl, rfl, rfl⟩
  intro i
  dsimp only
  rw [update_apply]
  split
  . next heq => rw [heq, ht, Option.map_some, Option.map_some, hcore]
  . rfl

theorem setTxn {x x' : Lmdb.Txn} (hx : s.env.txns i = some x) (hcore : x'.core = x.core)
    : Alike s { s with env := s.env.setTxn i x' } := by
  refine ⟨rfl, rfl, rfl, ?_, fun _ => rfl, rfl, rfl, rfl, rfl, rfl, rfl⟩
  intro j
  dsimp only [Lmdb.Env.setTxn]
  rw [update_apply]
  split
  . next heq => rw [heq, hx, Option.map_some, Option.map_some, hcore]
  . rfl

theorem setCount (s : Sys) (d : Nat) (f : OpenDb → Nat)
    : Alike s { s with dbs := s.dbs.modify d fun db => { db with count := f db } } := by
  refine ⟨rfl, rfl, rfl, fun _ => rfl, fun _ => rfl, rfl, rfl, rfl, rfl, rfl, ?_⟩
  apply List.ext_getElem?
  intro i
  simp only [List.getElem?_map, List.getElem?_modify]
  split
  . cases s.dbs[i]? <;> rfl
  . simp

theorem cursors (s : Sys) (c : Nat → Option Cursor) (n : Nat)
    : Alike s { s with cursors := c, nextCursor := n } :=
  ⟨rfl, rfl, rfl, fun _ => rfl, fun _ => rfl, rfl, rfl, rfl, rfl, rfl, rfl⟩

theorem log {s₀ : Sys} (h : Alike s₀ s) (l : List Call) : Alike s₀ { s with log := l } :=
  ⟨h.nextTxn, h.slots, h.dbis, h.txns, h.tts, h.nextTt, h.out, h.rdrPool,
    h.capacity, h.pc, h.dbs⟩

theorem changeTxnDb (tt : Nat) (dbname : Bytes) : Extends Alike (changeTxnDb tt dbname) := by
  refine extends_of_spec fun s₀ => ?_
  refine spec_bind (derefTt_spec tt fun _ => id) fun t => ?_
  refine spec_get fun s ⟨hs, ht⟩ => ?_
  split
  . refine spec_pure _ ?_
    rintro _ rfl
    exact hs
  . split
    . refine spec_pure _ ?_
      rintro _ rfl
      exact hs
    . next d hd =>
      refine spec_bind (Q := fun _ s => Alike s₀ s ∧ s.tts tt = some t) ?_ fun _ => ?_
      . refine spec_set fun _ _ => ⟨?_, ht⟩
        exact IsTrans.trans _ _ _ hs (setCount s d _)
      . refine spec_bind (Q := fun _ => Alike s₀) ?_ fun _ => spec_pure _ fun _ => id
        refine spec_modify _ fun s ⟨hs, ht⟩ => ?_
        exact IsTrans.trans _ _ _ hs (setTt ht rfl)

theorem put_core (x : Lmdb.Txn) (dbi : Nat) (key val : Bytes) (flags : BitVec 32) (answer : Lmdb.Answer)
    : (x.put dbi key val flags answer).2.core = x.core := by
  unfold Lmdb.Txn.put
  repeat' split
  all_goals rfl

theorem mdbPut (txn : Option Nat) (dbi : Nat) (key val : Bytes) (flags : BitVec 32) (answer : Lmdb.Answer)
    : Extends Alike (mdbPut txn dbi key val flags answer) := by
  refine extends_of_spec fun s₀ => ?_
  refine spec_bind (derefTxn_spec txn (fun s c hs => hs.log _) fun _ => id) fun ⟨i, x⟩ => ?_
  refine spec_bind (Q := fun _ s => Alike s₀ s ∧ s.env.txns i = some x) ?_ fun _ => ?_
  . exact spec_modify _ fun s ⟨hs, _, hx, _⟩ => ⟨hs.log _, hx⟩
  . refine spec_bind (Q := fun _ => Alike s₀) ?_ fun _ => spec_pure _ fun _ => id
    refine spec_modify _ fun s ⟨hs, hx⟩ => ?_
    exact IsTrans.trans _ _ _ hs (setTxn hx (put_core x _ _ _ _ _))

theorem trashPut (tt : Nat) (key val : Bytes) (flags : BitVec 32) (answer : Lmdb.Answer)
    : Extends Alike (trashPut tt key val flags answer) := by
  refine extends_of_spec fun s₀ => ?_
  refine spec_bind (derefTt_spec tt fun _ => id) fun t => ?_
  split
  . exact spec_pure _ fun s hs => hs.1
  . next hrd =>
    refine spec_bind (derefDb_spec t.db fun _ hs => hs.1) fun db => ?_
    refine spec_bind (Q := fun _ s => Alike s₀ s ∧ s.tts tt = some t) ?_ fun rc => ?_
    . -- the call of LMDB does not touch the transactions of `db.c`
      have hput := (mdbPut t.txn db.id key val flags answer).and
        (KeyFrame.mdbPut (R := LmdbOnly) t.txn db.id key val flags answer)
      intro s ⟨⟨hs, ht⟩, _⟩
      obtain ⟨hok, herror⟩ := spec_of_extends (I := fun s => Alike s₀ s ∧ s.tts tt = some t) hput (by
        rintro s _ ⟨hs, ht⟩ ⟨halike, e, l, c, n, rfl⟩
        exact ⟨IsTrans.trans _ _ _ hs halike, ht⟩) s ⟨hs, ht⟩
      exact ⟨hok, fun e s' hrun => (herror e s' hrun).1⟩
    . refine spec_bind (Q := fun _ => Alike s₀) ?_ fun _ => spec_pure _ fun _ => id
      refine spec_when (fun _ => spec_modify _ fun s ⟨hs, ht⟩ => ?_) fun _ _ => And.left
      refine IsTrans.trans _ _ _ hs (setTt ht ?_)
      simp only [Bool.not_eq_true] at hrd
      simp [TrashTxn.core, hrd]

theorem putRecord (tt : Nat) (key val : Bytes) (flags : BitVec 32) : Extends Alike (putRecord tt key val flags) :=
  extends_bind extends_get fun _ => trashPut tt key val flags _

theorem mdbCursorOpen (txn : Option Nat) (dbi : Nat) : Extends Alike (mdbCursorOpen txn dbi) := by
  refine extends_bind (derefTxn txn) fun ⟨i, x⟩ => ?_
  dsimp only
  split
  . exact fun s => cursors s _ _
  . apply extends_pure

theorem mdbCursorRenew (txn : Option Nat) (c : Nat) : Extends Alike (mdbCursorRenew txn c) := by
  refine extends_bind (derefTxn txn) fun r s => ?_
  simp only [EStateM.run_bind, EStateM.run_get]
  split
  . exact refl s
  . split
    . exact cursors s _ _
    . exact refl s

theorem returnCursor (c : Nat) : Extends Alike (returnCursor c) := by
  intro s
  simp only [Db.returnCursor, EStateM.run_bind, EStateM.run_get]
  split
  . exact refl s
  . exact cursors s _ _

theorem cursorRange (c : Nat) (key : Bytes) : Extends Alike (cursorRange c key) := by
  refine extends_bind extends_get fun s => ?_
  split
  . apply extends_throw
  . refine extends_bind (derefTxn _) fun ⟨i, x⟩ => ?_
    dsimp only
    split <;> apply extends_pure

theorem createCursor (th tt : Nat) : Extends Alike (createCursor th (some tt)) := by
  refine extends_bind (extends_pure _) fun tt => ?_
  refine extends_bind (derefTt tt) fun t => ?_
  refine extends_bind (extends_when _ ?_) fun _ => ?_
  . exact extends_bind (changeTxnDb tt _) fun _ => extends_pure _
  refine extends_bind (derefTt tt) fun t => ?_
  refine extends_bind extends_get fun s => ?_
  split
  . refine extends_bind (mdbCursorRenew _ _) fun _ => ?_
    exact extends_bind (extends_ensure _ _) fun _ => extends_pure _
  . refine extends_bind (derefDb _) fun db => ?_
    refine extends_bind (mdbCursorOpen _ _) fun c => ?_
    split
    . apply extends_throw
    . apply extends_pure

end Alike

end Db
