import TrashDb.Lib.Lts
import TrashDb.Db.Lemmas.Run

/-!
This module contains why the counters of the open databases are wrong as soon as the environment is open.
The transaction of `init_metadata` is not counted when it is set to the metadata database, but it is when
it is returned.
-/

namespace Db

open Prog Word

/--
The counter of every open database is the number of the transactions that are handed out with it.
-/
def Counted (s : Sys) : Prop :=
  ∀ d db, s.dbs[d]? = some db →
    db.count = (s.out.filter fun p => (s.tts p.2).bind (·.db) == some d).length

structure Unopened (s : Sys) : Prop where
  dbs : s.dbs = []
  db : ∀ tt t, s.tts tt = some t → t.db = none
  idle : ∀ th, s.pc th = .idle

def Action.isInit : Action → Bool
  | .initMetadata _ _ => true
  | _ => false

namespace Unopened

variable {s : Sys} (th tt : Nat)

theorem init (data : Lmdb.Data) : Unopened (.init data) := ⟨rfl, nofun, fun _ => rfl⟩

theorem counted (h : Unopened s) : Counted s := by
  intro d db hd
  rw [h.dbs] at hd
  cases hd

theorem of_lmdbOnly {α : Type} {m : M α} (h : Extends LmdbOnly m) : Returns Unopened m (fun _ => Unopened) := by
  refine returns_of_extends h ?_
  rintro s _ hs ⟨e, l, c, n, rfl⟩
  exact ⟨hs.dbs, hs.db, hs.idle⟩

theorem setTt {t : TrashTxn} (h : Unopened s) (ht : t.db = none)
    : Unopened { s with tts := Function.update s.tts tt (some t) } := by
  refine ⟨h.dbs, ?_, h.idle⟩
  intro i t' hi
  dsimp only at hi
  rw [Function.update_apply] at hi
  split at hi
  . cases hi
    exact ht
  . exact h.db i t' hi

theorem derefTt : Returns Unopened (derefTt tt) (fun t s => Unopened s ∧ t.db = none) := by
  apply returns_iff.mpr
  intro s t s' hs hrun
  obtain ⟨ht, rfl⟩ := derefTt_eq_ok.mp hrun
  exact ⟨hs, hs.db tt t ht⟩

theorem derefDb : Returns Unopened (derefDb none) (fun _ _ => False) := by
  refine spec_get fun s hs => ?_
  exact spec_throw _ fun _ _ => trivial

theorem internalCreateTrashTxn (txn : Option Nat) (rd : Bool)
    : Returns Unopened (internalCreateTrashTxn txn rd) (fun tt s => Unopened s ∧
        ∃ t, s.tts tt = some t ∧ t.rd = rd ∧ t.wr = !rd ∧ t.dontFin = false) := by
  apply returns_iff.mpr
  intro s a s' hs hrun
  cases hrun
  refine ⟨?_, _, Function.update_self _ _ _, rfl, rfl, rfl⟩
  have := hs.setTt s.nextTt (t := ⟨txn, rd, !rd, false, false, none⟩) rfl
  exact ⟨this.dbs, this.db, this.idle⟩

theorem internalGetReadTxn : Returns Unopened (internalGetReadTxn th) (fun _ => Unopened) := by
  refine spec_get fun s hs => ?_
  split
  . refine spec_bind (Q := fun _ => Unopened) ?_ fun txn => ?_
    . exact spec_weaken (of_lmdbOnly (LmdbFrame.mdbTxnBegin th true)) (by rintro _ rfl; exact hs) fun _ _ => id
    . exact spec_weaken (internalCreateTrashTxn txn true) (fun _ => id) fun _ _ => And.left
  . split
    . exact spec_throw _ fun _ _ => trivial
    . next tt txns _ =>
      refine spec_bind (Q := fun _ => Unopened) ?_ fun _ => ?_
      . refine spec_set fun s' hs' => ?_
        subst hs'
        exact ⟨hs.dbs, hs.db, hs.idle⟩
      . refine spec_bind (derefTt tt) fun t => ?_
        refine spec_bind (Q := fun _ => Unopened) ?_ fun rc => ?_
        . exact spec_weaken (of_lmdbOnly (LmdbFrame.mdbTxnRenew th t.txn)) (fun _ => And.left) fun _ _ => id
        . refine spec_bind (of_lmdbOnly (extends_ensure _ _)) fun _ => ?_
          exact spec_pure tt fun _ => id

theorem changeTxnDb (P : Sys → Prop) (hP : ∀ s, P s → Unopened s) (dbname : Bytes)
    : Returns P (changeTxnDb tt dbname) (fun rc s => P s ∧ rc = .dbDne) := by
  refine spec_bind (Q := fun t s => P s ∧ t.db = none) ?_ fun t => ?_
  . apply returns_iff.mpr
    intro s t s' hs hrun
    obtain ⟨ht, rfl⟩ := derefTt_eq_ok.mp hrun
    exact ⟨hs, (hP s' hs).db tt t ht⟩
  . refine spec_get fun s ⟨hs, ht⟩ => ?_
    rw [ht, (hP s hs).dbs]
    refine spec_pure _ ?_
    rintro s rfl
    exact ⟨hs, rfl⟩

def Fresh (rd : Bool) (tt : Nat) (s : Sys) : Prop :=
  rd = false → ∃ t, s.tts tt = some t ∧ t.rd = false ∧ t.wr = true

theorem internalBeginTxn (rd : Bool)
    : Returns Unopened (internalBeginTxn th rd) (fun tt s => Unopened s ∧ Fresh rd tt s) := by
  cases rd with
  | true => exact spec_weaken (internalGetReadTxn th) (fun _ => id) fun _ _ hs => ⟨hs, nofun⟩
  | false =>
    refine spec_bind (of_lmdbOnly (LmdbFrame.mdbTxnBegin th false)) fun txn => ?_
    refine spec_weaken (internalCreateTrashTxn txn false) (fun _ => id) ?_
    rintro tt s ⟨hs, t, ht, hrd, hwr, _⟩
    exact ⟨hs, fun _ => ⟨t, ht, hrd, hwr⟩⟩

theorem handOut (rd : Bool)
    : Returns (fun s => Unopened s ∧ Fresh rd tt s) (modify fun s => { s with out := (th, tt) :: s.out } : M Unit)
        (fun _ s => Unopened s ∧ Fresh rd tt s) :=
  spec_modify _ fun _ ⟨hs, hfresh⟩ => ⟨⟨hs.dbs, hs.db, hs.idle⟩, hfresh⟩

theorem beginTxn (dbname : Bytes) (rd : Bool)
    : Returns Unopened (beginTxn th dbname rd) (fun r s =>
        (Unopened s ∧ Fresh rd r.2 s) ∧ r.1 = .dbDne) := by
  refine spec_bind (internalBeginTxn th rd) fun tt => ?_
  refine spec_bind (handOut th tt rd) fun _ => ?_
  refine spec_bind (changeTxnDb tt _ (fun _ => And.left) dbname) fun rc => ?_
  exact spec_pure _ fun _ => id

theorem endTxn : Returns Unopened (endTxn tt) (fun t s => Unopened s ∧ t.db = none) := by
  refine spec_bind (derefTt tt) fun t => spec_assume fun ht => ?_
  split
  . refine spec_bind (of_lmdbOnly (LmdbFrame.mdbTxnCommit t.txn)) fun rc => ?_
    refine spec_bind (of_lmdbOnly (extends_ensure _ _)) fun _ => ?_
    refine spec_bind (spec_modify (Q := fun _ => Unopened) _ fun s hs => hs.setTt tt ht) fun _ => ?_
    exact spec_pure _ fun s hs => ⟨hs, ht⟩
  . refine spec_bind (of_lmdbOnly (extends_when _ (LmdbFrame.mdbTxnAbort _))) fun _ => ?_
    refine spec_bind (of_lmdbOnly (extends_when _ (LmdbFrame.mdbTxnReset _))) fun _ => ?_
    exact spec_pure _ fun s hs => ⟨hs, ht⟩

theorem returnTxn : Returns Unopened (returnTxn th tt) (fun _ => Unopened) := by
  refine spec_bind (endTxn tt) fun t => spec_assume fun ht => ?_
  split
  . exact spec_modify _ fun s hs => hs.setTt tt ht
  . refine spec_bind (Q := fun _ => Unopened) (spec_modify _ fun s hs => ⟨hs.dbs, hs.db, hs.idle⟩) fun _ => ?_
    refine spec_bind (Q := fun _ => Unopened) ?_ fun _ => ?_
    . refine spec_when (fun _ => ?_) fun _ _ => id
      refine spec_get fun s hs => ?_
      split
      . exact spec_throw _ fun _ _ => trivial
      . split
        . refine spec_set fun s' hs' => ?_
          subst hs'
          exact ⟨hs.dbs, hs.db, hs.idle⟩
        . refine spec_weaken (of_lmdbOnly (LmdbFrame.mdbTxnAbort t.txn)) ?_ fun _ _ => id
          rintro _ rfl
          exact hs
    . unfold releaseDb
      rw [ht]
      exact spec_bind derefDb fun _ => spec_false

theorem createCursor (txn : Option Nat) : Returns Unopened (createCursor th txn) (fun _ _ => False) := by
  have htxn : Returns Unopened (cursorTxn th txn) (fun _ => Unopened) := by
    cases txn with
    | none => apply internalGetReadTxn
    | some tt => exact spec_pure tt fun _ => id
  refine spec_bind htxn fun tt => ?_
  refine spec_bind (derefTt tt) fun t => spec_assume fun ht => ?_
  refine spec_bind (Q := fun _ => Unopened) ?_ fun _ => ?_
  . refine spec_when (fun _ => ?_) fun _ _ => id
    refine spec_bind (changeTxnDb tt Unopened (fun _ => id) metadata) fun _ => ?_
    exact spec_pure _ fun _ => And.left
  . refine spec_bind (derefTt tt) fun t => spec_assume fun ht => ?_
    refine spec_get fun s hs => ?_
    -- there is no metadata database to renew the cursor for
    rw [ht, Option.bind_none, dbMatch, Bool.and_false]
    split
    . next hmatch => cases hmatch
    . refine spec_bind (Q := fun _ _ => False) ?_ fun _ => spec_false
      refine spec_weaken derefDb ?_ fun _ _ => id
      rintro _ rfl
      exact hs

theorem trashPut (key val : Bytes) (flags : BitVec 32) (answer : Lmdb.Answer)
    : Returns Unopened (trashPut tt key val flags answer) (fun _ => Unopened) := by
  refine spec_bind (derefTt tt) fun t => spec_assume fun ht => ?_
  split
  . exact spec_pure _ fun _ => id
  . rw [ht]
    exact spec_bind derefDb fun _ => spec_false

theorem trashGet (key : Bytes) : Returns Unopened (trashGet tt key) (fun _ _ => False) := by
  refine spec_bind (derefTt tt) fun t => spec_assume fun ht => ?_
  rw [ht]
  exact spec_bind derefDb fun _ => spec_false

theorem openDb (dbname : Bytes) (flags : BitVec 32)
    : Returns Unopened (openDb th tt dbname flags) (fun _ _ => False) := by
  refine spec_bind (changeTxnDb tt Unopened (fun _ => id) metadata) fun _ => spec_assume fun _ => ?_
  exact spec_bind (trashGet tt dbname) fun _ => spec_false

theorem initThreadLocalReaders : Returns Unopened (initThreadLocalReaders th) (fun _ => Unopened) := by
  refine spec_get fun s hs => ?_
  refine spec_when (fun _ => ?_) ?_
  . refine spec_bind (Q := fun _ _ => False) ?_ fun _ => spec_false
    refine spec_weaken (createCursor th none) ?_ fun _ _ => id
    rintro _ rfl
    exact hs
  . rintro _ _ rfl
    exact hs

theorem openDbResume : Returns Unopened (openDbResume th) (fun _ _ => False) := by
  refine spec_get fun s hs => ?_
  rw [hs.idle]
  exact spec_throw _ fun _ _ => trivial

theorem exec {a : Action} (ha : a.isInit = false) : Returns Unopened (exec a) (fun _ => Unopened) := by
  cases a with
  | initThreadLocalReaders th =>
    refine spec_bind (of_lmdbOnly (LmdbFrame.ready th)) fun _ => ?_
    exact spec_bind (initThreadLocalReaders th) fun _ => spec_pure _ fun _ => id
  | initMetadata th after => cases ha
  | beginTxn th dbname rd =>
    refine spec_bind (of_lmdbOnly (LmdbFrame.ready th)) fun _ => ?_
    exact spec_bind (beginTxn th dbname rd) fun _ => spec_pure _ fun _ h => h.1.1
  | internalBeginTxn th rd =>
    refine spec_bind (of_lmdbOnly (LmdbFrame.ready th)) fun _ => ?_
    refine spec_bind (internalBeginTxn th rd) fun tt => ?_
    exact spec_bind (handOut th tt rd) fun _ => spec_pure _ fun _ => And.left
  | changeTxnDb th tt dbname =>
    refine spec_bind (of_lmdbOnly (LmdbFrame.holds th tt)) fun _ => ?_
    exact spec_bind (changeTxnDb tt Unopened (fun _ => id) dbname) fun _ => spec_pure _ fun _ => And.left
  | openDb th tt dbname flags =>
    refine spec_bind (of_lmdbOnly (LmdbFrame.holds th tt)) fun _ => ?_
    exact spec_bind (openDb th tt dbname flags) fun _ => spec_false
  | resume th => exact spec_bind (openDbResume th) fun _ => spec_false
  | createCursor th txn =>
    cases txn with
    | none =>
      refine spec_bind (of_lmdbOnly (LmdbFrame.ready th)) fun _ => ?_
      exact spec_bind (createCursor th none) fun _ => spec_false
    | some tt =>
      refine spec_bind (of_lmdbOnly (LmdbFrame.holds th tt)) fun _ => ?_
      exact spec_bind (createCursor th (some tt)) fun _ => spec_false
  | returnCursor th c =>
    refine spec_bind (of_lmdbOnly (LmdbFrame.ready th)) fun _ => ?_
    exact spec_bind (of_lmdbOnly (CursorFrame.returnCursor c)) fun _ => spec_pure _ fun _ => id
  | trashPut th tt key val flags answer =>
    refine spec_bind (of_lmdbOnly (LmdbFrame.holds th tt)) fun _ => ?_
    exact spec_bind (trashPut tt key val flags answer) fun _ => spec_pure _ fun _ => id
  | trashGet th tt key =>
    refine spec_bind (of_lmdbOnly (LmdbFrame.holds th tt)) fun _ => ?_
    exact spec_bind (trashGet tt key) fun _ => spec_false
  | returnTxn th tt =>
    refine spec_bind (of_lmdbOnly (LmdbFrame.holds th tt)) fun _ => ?_
    exact spec_bind (returnTxn th tt) fun _ => spec_pure _ fun _ => id

end Unopened

/--
The metadata database is open and the transaction of `init_metadata` is set to it without being counted.
-/
structure Opening (tt : Nat) (s : Sys) : Prop where
  head : ∃ db, s.dbs[0]? = some db ∧ db.count = 0
  own : ∃ t, s.tts tt = some t ∧ t.db = some 0 ∧ t.rd = false ∧ t.wr = true
  other : ∀ tt' t, tt' ≠ tt → s.tts tt' = some t → t.db = none

namespace Opening

variable {s : Sys} (th tt : Nat)

theorem of_lmdbOnly {α : Type} {m : M α} (h : Extends LmdbOnly m)
    : Returns (Opening tt) m (fun _ => Opening tt) := by
  refine returns_of_extends h ?_
  rintro s _ hs ⟨e, l, c, n, rfl⟩
  exact ⟨hs.head, hs.own, hs.other⟩

theorem setTt {t : TrashTxn} (h : Opening tt s) (hdb : t.db = some 0) (hrd : t.rd = false)
    (hwr : t.wr = true)
    : Opening tt { s with tts := Function.update s.tts tt (some t) } := by
  refine ⟨h.head, ⟨t, Function.update_self _ _ _, hdb, hrd, hwr⟩, ?_⟩
  intro tt' t' hne ht'
  dsimp only at ht'
  rw [Function.update_of_ne hne] at ht'
  exact h.other tt' t' hne ht'

theorem derefTt
    : Returns (Opening tt) (derefTt tt) (fun t s =>
        Opening tt s ∧ t.db = some 0 ∧ t.rd = false ∧ t.wr = true) := by
  apply returns_iff.mpr
  intro s t s' hs hrun
  obtain ⟨ht, rfl⟩ := derefTt_eq_ok.mp hrun
  obtain ⟨t', ht', hown⟩ := hs.own
  rw [ht] at ht'
  cases ht'
  exact ⟨hs, hown⟩

theorem trashPut (key val : Bytes) (flags : BitVec 32) (answer : Lmdb.Answer)
    : Returns (Opening tt) (trashPut tt key val flags answer) (fun _ => Opening tt) := by
  refine spec_bind (derefTt tt) fun t => spec_assume fun ⟨hdb, hrd, hwr⟩ => ?_
  rw [if_neg (by simp [hrd])]
  refine spec_bind (of_lmdbOnly tt (LmdbFrame.derefDb _)) fun db => ?_
  refine spec_bind (of_lmdbOnly tt (KeyFrame.mdbPut _ _ _ _ _ _)) fun rc => ?_
  refine spec_bind (Q := fun _ => Opening tt) ?_ fun _ => spec_pure _ fun _ => id
  refine spec_when (fun _ => ?_) fun _ _ => id
  exact spec_modify _ fun s hs => hs.setTt tt hdb hrd hwr

theorem createCursor : Returns (Opening tt) (createCursor th (some tt)) (fun _ => Opening tt) := by
  refine spec_bind (spec_pure (Q := fun tt' s => Opening tt s ∧ tt' = tt) tt fun s hs => ⟨hs, rfl⟩) fun tt' => ?_
  refine spec_assume fun heq => ?_
  subst heq
  refine spec_bind (derefTt tt') fun t => spec_assume fun ⟨hdb, hrd, hwr⟩ => ?_
  rw [hdb, Option.isNone_some, when_false]
  refine spec_bind (spec_pure (Q := fun _ => Opening tt') () fun _ => id) fun _ => ?_
  refine spec_bind (derefTt tt') fun t => spec_assume fun ⟨hdb, hrd, hwr⟩ => ?_
  refine spec_get fun s hs => ?_
  rw [hrd, Bool.false_and]
  split
  . next hmatch => cases hmatch
  . refine spec_weaken (A := Opening tt') (of_lmdbOnly tt' ?_) ?_ fun _ _ => id
    . refine extends_bind (LmdbFrame.derefDb _) fun db => ?_
      refine extends_bind (CursorFrame.mdbCursorOpen _ _) fun c => ?_
      split
      . apply extends_throw
      . apply extends_pure
    . rintro _ rfl
      exact hs

theorem internalAddDb (dbname : Bytes) (id : Nat) (flags : BitVec 32)
    : Returns (Opening tt) (internalAddDb dbname id flags) (fun _ => Opening tt) := by
  apply returns_iff.mpr
  intro s a s' hs hrun
  cases hrun
  obtain ⟨db, hdb, hcount⟩ := hs.head
  refine ⟨⟨db, ?_, hcount⟩, hs.own, hs.other⟩
  rw [List.getElem?_append_left (List.getElem?_eq_some_iff.mp hdb).1]
  exact hdb

theorem openRecords (after : Bytes → Bytes) (records : Lmdb.Contents)
    : ∀ dbMeta, Returns (Opening tt) (openRecords tt after dbMeta records) (fun _ => Opening tt) := by
  induction records with
  | nil => exact fun _ => spec_pure _ fun _ => id
  | cons r records ih =>
    intro dbMeta
    unfold Db.openRecords
    split
    . split
      . exact spec_throw _ fun _ _ => trivial
      . refine spec_bind (of_lmdbOnly tt (LmdbFrame.derefTt tt)) fun t => ?_
        refine spec_bind (of_lmdbOnly tt (LmdbFrame.mdbDbiOpen _ _ _)) fun res => ?_
        split
        . exact spec_throw _ fun _ _ => trivial
        . exact spec_bind (internalAddDb tt _ _ _) fun _ => ih _
    . exact spec_pure _ fun _ => id

theorem endTxn
    : Returns (Opening tt) (endTxn tt) (fun t s =>
        Opening tt s ∧ t.db = some 0 ∧ t.rd = false ∧ t.wr = true) := by
  refine spec_bind (derefTt tt) fun t => spec_assume fun ⟨hdb, hrd, hwr⟩ => ?_
  split
  . refine spec_bind (of_lmdbOnly tt (LmdbFrame.mdbTxnCommit t.txn)) fun rc => ?_
    refine spec_bind (of_lmdbOnly tt (extends_ensure _ _)) fun _ => ?_
    refine spec_bind (spec_modify (Q := fun _ => Opening tt) _ fun s hs => hs.setTt tt hdb hrd hwr) fun _ => ?_
    exact spec_pure _ fun s hs => ⟨hs, hdb, hrd, hwr⟩
  . refine spec_bind (of_lmdbOnly tt (extends_when _ (LmdbFrame.mdbTxnAbort _))) fun _ => ?_
    refine spec_bind (of_lmdbOnly tt (extends_when _ (LmdbFrame.mdbTxnReset _))) fun _ => ?_
    exact spec_pure _ fun s hs => ⟨hs, hdb, hrd, hwr⟩

theorem returnTxn
    : Returns (Opening tt) (returnTxn th tt) (fun _ s =>
        (∃ db, s.dbs[0]? = some db ∧ db.count = 2 ^ 32 - 1) ∧
        ∀ tt t, s.tts tt = some t → t.db = none) := by
  refine spec_bind (endTxn tt) fun t => spec_assume fun ⟨hdb, hrd, hwr⟩ => ?_
  rw [hrd, Bool.false_and, if_neg (by simp), when_false]
  refine spec_bind (Q := fun _ => Opening tt) (spec_modify _ fun s hs => ⟨hs.head, hs.own, hs.other⟩) fun _ => ?_
  refine spec_bind (Q := fun _ => Opening tt) (spec_pure _ fun _ => id) fun _ => ?_
  refine spec_bind (of_lmdbOnly tt (LmdbFrame.derefDb _)) fun _ => ?_
  refine spec_modify _ fun s hs => ?_
  obtain ⟨db, hhead, hcount⟩ := hs.head
  constructor
  . refine ⟨{ db with count := sub32 db.count 1 }, ?_, by rw [hcount]; rfl⟩
    simp [hdb, hhead]
  . intro tt' t' ht'
    simp only [hwr, if_true] at ht'
    rw [Function.update_apply] at ht'
    split at ht'
    . cases ht'
    . next hne => exact hs.other tt' t' hne ht'

end Opening

section

variable {s s' : Sys} {th tt : Nat}

theorem Unopened.open_ {t : TrashTxn} {db : OpenDb} (h : Unopened s) (hcount : db.count = 0)
    (hrd : t.rd = false) (hwr : t.wr = true)
    : Opening tt
        { s with dbs := [db], tts := Function.update s.tts tt (some { t with db := some 0, commit := true }) } := by
  refine ⟨⟨db, rfl, hcount⟩, ⟨_, Function.update_self _ _ _, rfl, hrd, hwr⟩, ?_⟩
  intro tt' t' hne ht'
  dsimp only at ht'
  rw [Function.update_of_ne hne] at ht'
  exact h.db tt' t' ht'

theorem initMetadata_wraps (after : Bytes → Bytes)
    : Returns Unopened (initMetadata th after) (fun _ s =>
        (∃ db, s.dbs[0]? = some db ∧ db.count = 2 ^ 32 - 1) ∧
        ∀ tt t, s.tts tt = some t → t.db = none) := by
  refine spec_bind (Unopened.beginTxn th metadata false) fun ⟨rc, tt⟩ => spec_assume fun hrc => ?_
  dsimp only at hrc ⊢
  subst hrc
  refine spec_bind (Q := fun t s => Unopened s ∧ t.rd = false ∧ t.wr = true) ?_ fun t => ?_
  . apply returns_iff.mpr
    rintro s t s' ⟨hs, hfresh⟩ hrun
    obtain ⟨ht, rfl⟩ := derefTt_eq_ok.mp hrun
    obtain ⟨t', ht', hrd, hwr⟩ := hfresh rfl
    rw [ht] at ht'
    cases ht'
    exact ⟨hs, hrd, hwr⟩
  refine spec_assume fun ⟨hrd, hwr⟩ => ?_
  refine spec_bind (Unopened.of_lmdbOnly (LmdbFrame.mdbDbiOpen _ _ _)) fun res => ?_
  split
  . exact spec_throw _ fun _ _ => trivial
  . next dbi =>
    refine spec_bind (Q := fun d s => d = 0 ∧ ∃ db u, s = { u with dbs := [db] } ∧ db.count = 0 ∧ Unopened u) ?_
      fun d => ?_
    . apply returns_iff.mpr
      intro s d s' hs hrun
      cases hrun
      refine ⟨by rw [hs.dbs]; rfl, ⟨metadata, metadataFlags, dbi, 0⟩, s, ?_, rfl, hs⟩
      rw [hs.dbs]
      rfl
    refine spec_bind (Q := fun _ => Opening tt) ?_ fun _ => ?_
    . apply returns_iff.mpr
      rintro _ _ _ ⟨rfl, db, s, rfl, hcount, hs⟩ hrun
      cases hrun
      exact hs.open_ hcount hrd hwr
    refine spec_bind (putRecord_spec (Opening.trashPut tt _ _ _)) fun rc => ?_
    refine spec_bind (Opening.of_lmdbOnly tt (extends_ensure _ _)) fun _ => ?_
    refine spec_bind (Opening.createCursor th tt) fun curr => ?_
    refine spec_bind (Opening.of_lmdbOnly tt (LmdbFrame.cursorRange _ _)) fun records => ?_
    refine spec_bind (Opening.openRecords tt _ _ _) fun _ => ?_
    refine spec_bind (Opening.of_lmdbOnly tt (CursorFrame.returnCursor _)) fun _ => ?_
    apply Opening.returnTxn

theorem not_counted_of_initMetadata {a : Action} (h : Unopened s) (ha : a.isInit = true)
    (hstep : s.step a = some s')
    : ¬ Counted s' := by
  cases a with
  | initMetadata th after =>
    have hspec : Returns Unopened (exec (.initMetadata th after)) (fun _ s =>
        (∃ db, s.dbs[0]? = some db ∧ db.count = 2 ^ 32 - 1) ∧
        ∀ tt t, s.tts tt = some t → t.db = none) := by
      refine spec_bind (Unopened.of_lmdbOnly (LmdbFrame.ready th)) fun _ => ?_
      exact spec_bind (initMetadata_wraps after) fun _ => spec_pure _ fun _ => id
    obtain ⟨r, hrun⟩ := exec_of_step hstep
    obtain ⟨⟨db, hdb, hcount⟩, hnone⟩ := hspec.of_run h hrun
    intro hcounted
    have hzero := hcounted 0 db hdb
    -- no transaction that is handed out has a database
    have hempty : (s'.out.filter fun p => (s'.tts p.2).bind (·.db) == some 0) = [] := by
      rw [List.filter_eq_nil_iff]
      intro p _
      cases ht : s'.tts p.2 with
      | none => simp
      | some t => simp [hnone p.2 t ht]
    rw [hempty, hcount] at hzero
    cases hzero
  | _ => cases ha

theorem Unopened.step {a : Action} (h : Unopened s) (ha : a.isInit = false) (hstep : s.step a = some s')
    : Unopened s' := by
  obtain ⟨r, hrun⟩ := exec_of_step hstep
  exact (Unopened.exec ha).of_run h hrun

end

/--
The counters are right in all states of a run exactly if the environment is not opened in it, so that
there is no database.
-/
theorem counted_iff_not_init {s : Sys} {as : List Action} (hstart : Unopened s)
    (hrun : (Lts.run Sys.step s as).isSome)
    : (∀ bs, bs <+: as → ∀ s', Lts.run Sys.step s bs = some s' → Counted s') ↔
        ∀ a ∈ as, a.isInit = false := by
  induction as generalizing s with
  | nil =>
    constructor
    . nofun
    . intro _ bs hbs s' hs'
      rw [List.prefix_nil.mp hbs] at hs'
      cases hs'
      exact hstart.counted
  | cons a as ih =>
    obtain ⟨s₁, hstep⟩ : ∃ s₁, s.step a = some s₁ := by
      cases h : s.step a with
      | none => simp [h] at hrun
      | some s₁ => exact ⟨s₁, rfl⟩
    rw [Lts.run_cons, hstep, Option.bind_some] at hrun
    cases ha : a.isInit with
    | true =>
      constructor
      . intro h
        have hone := h [a] (by simp) s₁ (by simp [hstep])
        exact absurd hone (not_counted_of_initMetadata hstart ha hstep)
      . intro h
        rw [h a List.mem_cons_self] at ha
        cases ha
    | false =>
      have hstart₁ := hstart.step ha hstep
      rw [List.forall_mem_cons, ha, ← ih hstart₁ hrun]
      constructor
      . intro h
        refine ⟨rfl, ?_⟩
        intro bs hbs s' hs'
        exact h (a :: bs) (by simpa using hbs) s' (by simpa [hstep] using hs')
      . rintro ⟨_, h⟩ bs hbs s' hs'
        cases bs with
        | nil =>
          cases hs'
          exact hstart.counted
        | cons b bs =>
          obtain ⟨rfl, hrest⟩ := List.cons_prefix_cons.mp hbs
          rw [Lts.run_cons, hstep, Option.bind_some] at hs'
          exact h bs hrest s' hs'

theorem counted_write_txn
    : ∃ s, Lts.run Sys.step (.init []) [.beginTxn 0 metadata false] = some s ∧
        ∀ bs, bs <+: [.beginTxn 0 metadata false] →
          ∀ s', Lts.run Sys.step (.init []) bs = some s' → Counted s' := by
  refine ⟨_, rfl, ?_⟩
  exact (@counted_iff_not_init (.init []) [.beginTxn 0 metadata false] (Unopened.init []) rfl).mpr
    (by decide)

theorem not_counted_open_env
    : ¬ ∀ (s : Sys) (as : List Action) (s' : Sys), Unopened s → Lts.run Sys.step s as = some s' →
        Counted s' := by
  intro h
  have hzero := h (.init []) [.initMetadata 0 fun _ => []] _ (Unopened.init []) rfl 0 _ rfl
  cases hzero

end Db
