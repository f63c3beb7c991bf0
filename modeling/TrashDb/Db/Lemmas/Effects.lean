import Mathlib.Logic.Relation
import TrashDb.Db.Lemmas.Handles
import TrashDb.Db.Lemmas.Writes

/-!
This module contains what the functions of `db.c` do to the transactions, to the data and to the handles, as
a sequence of effects of a few kinds. What every kind of effect keeps is kept by every call that returns.
-/

namespace Lmdb.Env

open Function

variable {e e' : Env} {th i : Nat} {rd : Bool}

def begin (e : Env) (th : Nat) (rd : Bool) : Option (Nat × Env) :=
  if rd then e.beginRead th else e.beginWrite th

structure Started (e : Env) (th i : Nat) (rd : Bool) (e' : Env) : Prop where
  index : i = e.nextTxn
  txns : e'.txns = update e.txns i (some (e.newTxn th rd))
  nextTxn : e'.nextTxn = e.nextTxn + 1
  data : e'.data = e.data
  dbis : e'.dbis = e.dbis
  nextDbi : e'.nextDbi = e.nextDbi
  read : rd = true → e'.writer = e.writer
  write : rd = false → e.writer = none ∧ e'.writer = some i

theorem begin_started (h : e.begin th rd = some (i, e')) : e.Started th i rd e' := by
  cases rd with
  | true =>
    simp only [begin, beginRead, if_true] at h
    split at h
    . cases h
    . cases h
      exact ⟨rfl, rfl, rfl, rfl, rfl, rfl, fun _ => rfl, by simp⟩
  | false =>
    simp only [begin, beginWrite, Bool.false_eq_true, if_false] at h
    split at h
    . cases h
    . next hwriter =>
      cases h
      exact ⟨rfl, rfl, rfl, rfl, rfl, rfl, by simp, fun _ => ⟨hwriter, rfl⟩⟩

end Lmdb.Env

namespace Db

open Prog Function

/--
Nothing is changed but the history, the counters, the cursors and the pools.
-/
structure Quiet (s s' : Sys) : Prop where
  env : s'.env = s.env
  tts : s'.tts = s.tts
  pc : s'.pc = s.pc
  dbs : s'.dbs.map (fun db => (db.name, db.id)) = s.dbs.map (fun db => (db.name, db.id))

def Sys.Mentions (s : Sys) (h : Lmdb.Dbi) : Prop :=
  h ∈ s.env.dbis ∨ (∃ i x, s.env.txns i = some x ∧ h ∈ x.known) ∨
    (h.name, h.id) ∈ s.dbs.map (fun db => (db.name, db.id)) ∨ ∃ th, (s.pc th).handle = some h

theorem Sys.Mentions.alike {s s' : Sys} {h : Lmdb.Dbi} (hs : s.Mentions h) (halike : Alike s s') : s'.Mentions h := by
  rcases hs with hpublic | ⟨i, x, hx, hknown⟩ | hdb | hpc
  . exact .inl (halike.dbis ▸ hpublic)
  . have hmap := halike.txns i
    rw [hx, Option.map_some] at hmap
    obtain ⟨x', hx', hcore⟩ := Option.map_eq_some_iff.mp hmap
    simp only [Lmdb.Txn.core, Prod.mk.injEq] at hcore
    refine .inr (.inl ⟨i, x', hx', ?_⟩)
    rw [Lmdb.Txn.known, hcore.2.2.2.1, hcore.2.2.2.2]
    exact hknown
  . exact .inr (.inr (.inl (halike.dbs ▸ hdb)))
  . exact .inr (.inr (.inr (halike.pc ▸ hpc)))

/--
One effect. The keys of the databases that may be put are those of `puts`.
-/
inductive Effect (puts : Bytes → Bytes → Prop) (s : Sys) : Sys → Prop where
  | quiet {s' : Sys} (h : Quiet s s') : Effect puts s s'
  | begin {i : Nat} {e : Lmdb.Env} (th tt : Nat) (rd : Bool) (h : s.env.begin th rd = some (i, e))
    : Effect puts s {
        s with
        env := e
        tts := update s.tts tt (some ⟨some i, rd, !rd, false, false, none⟩)
      }
  -- the result of `mdb_txn_begin` is not looked at
  | wild (tt : Nat) : Effect puts s { s with tts := update s.tts tt (some ⟨none, true, false, false, false, none⟩) }
  | touch {tt : Nat} {t u : TrashTxn} (ht : s.tts tt = some t) (htxn : u.txn = t.txn) (hrd : u.rd = t.rd)
      (hcommit : t.commit = true → u.commit = true)
    : Effect puts s { s with tts := update s.tts tt (some u) }
  | free (tt : Nat) : Effect puts s { s with tts := update s.tts tt none }
  | renew {i : Nat} {x : Lmdb.Txn} (th : Nat) (hx : s.env.txns i = some x)
    : Effect puts s { s with env := (s.env.renew th i x).2 }
  | commit {tt i : Nat} {t : TrashTxn} {x : Lmdb.Txn} (ht : s.tts tt = some t) (hcommit : t.commit = true)
      (hi : t.txn = some i) (hx : s.env.txns i = some x) (hended : x.state ≠ .ended)
      (hrc : (s.env.commit i x).1 = .success)
    : Effect puts s {
        s with
        env := (s.env.commit i x).2
        tts := update s.tts tt (some { t with commit := false })
      }
  | finish {tt i : Nat} {t : TrashTxn} {x : Lmdb.Txn} (st : Lmdb.TxnState) (ht : s.tts tt = some t)
      (hcommit : t.commit = false) (hi : t.txn = some i) (hx : s.env.txns i = some x)
      (hst : st = .ended ∨ st = .reset ∧ t.rd = true)
    : Effect puts s { s with env := s.env.finish i x st }
  | put {tt i dbi : Nat} {t : TrashTxn} {x x' : Lmdb.Txn} {key val : Bytes} {flags : BitVec 32} {answer : Lmdb.Answer}
      {rc : Lmdb.Rc} (ht : s.tts tt = some t) (hrd : t.rd = false) (hi : t.txn = some i)
      (hx : s.env.txns i = some x) (hput : x.put dbi key val flags answer = (rc, x'))
      (hkey : puts (x.target dbi) key)
    : Effect puts s { s with env := s.env.setTxn i x' }
  | dbiOpen {i id : Nat} {x x' : Lmdb.Txn} {name : Bytes} {flags : BitVec 32} (hx : s.env.txns i = some x)
      (hopen : x.dbiOpen name flags s.env.nextDbi = .ok (id, x'))
    : Effect puts s { s with env := { s.env.setTxn i x' with nextDbi := s.env.nextDbi + 1 } }
  | add {dbname : Bytes} {id : Nat} (flags : BitVec 32) (h : s.Mentions ⟨id, dbname⟩)
    : Effect puts s { s with dbs := s.dbs ++ [⟨dbname, flags, id, 0⟩] }
  | pc {pc : Pc} (th : Nat) (h : ∀ d, pc.handle = some d → s.Mentions d)
    : Effect puts s { s with pc := update s.pc th pc }

def Reaches (puts : Bytes → Bytes → Prop) : Sys → Sys → Prop := Relation.ReflTransGen (Effect puts)

section

variable {puts : Bytes → Bytes → Prop} {s₀ s s' : Sys} (th tt : Nat)

namespace Reaches

theorem tail (h : Reaches puts s₀ s) (heffect : Effect puts s s') : Reaches puts s₀ s' :=
  Relation.ReflTransGen.tail h heffect

theorem quiet (h : Reaches puts s₀ s) (hs' : Quiet s s') : Reaches puts s₀ s' := h.tail (.quiet hs')

theorem log (s : Sys) (c : Call) (h : Reaches puts s₀ s) : Reaches puts s₀ { s with log := s.log ++ [c] } :=
  h.quiet ⟨rfl, rfl, rfl, rfl⟩

theorem derefTt : Returns (Reaches puts s₀) (derefTt tt) (fun t s => Reaches puts s₀ s ∧ s.tts tt = some t) :=
  derefTt_spec tt fun _ _ => trivial

theorem derefTxn (txn : Option Nat)
    : Returns (Reaches puts s₀) (derefTxn txn) (fun r s =>
        Reaches puts s₀ s ∧ txn = some r.1 ∧ s.env.txns r.1 = some r.2 ∧ r.2.state ≠ .ended) :=
  derefTxn_spec txn log fun _ _ => trivial

theorem mdbTxnBegin_cases {rd : Bool} {txn : Option Nat} (hrun : (mdbTxnBegin th rd).run s = .ok txn s')
    : ∃ l, (txn = none ∧ rd = true ∧ s' = { s with log := l }) ∨
        ∃ i e, txn = some i ∧ s.env.begin th rd = some (i, e) ∧ s' = { s with env := e, log := l } := by
  rw [mdbTxnBegin, bind_of_ok (EStateM.run_get s)] at hrun
  cases rd with
  | true =>
    rw [if_pos rfl, call, bind_of_ok (EStateM.run_modify _ _)] at hrun
    split at hrun
    . cases hrun
      exact ⟨_, .inl ⟨rfl, rfl, rfl⟩⟩
    . next i e he =>
      cases hrun
      exact ⟨_, .inr ⟨i, e, rfl, he, rfl⟩⟩
  | false =>
    rw [if_neg (by simp)] at hrun
    split at hrun
    . cases hrun
    . next i e he =>
      cases hrun
      exact ⟨_, .inr ⟨i, e, rfl, he, rfl⟩⟩

theorem create (rd : Bool)
    : Returns (Reaches puts s₀) (do let txn ← mdbTxnBegin th rd; internalCreateTrashTxn txn rd)
        (fun _ => Reaches puts s₀) := by
  refine returns_iff.mpr fun s tt s' h hrun => ?_
  obtain ⟨txn, s₁, hbegin, hcreate⟩ := bind_eq_ok.mp hrun
  cases hcreate
  obtain ⟨l, ⟨rfl, rfl, rfl⟩ | ⟨i, e, rfl, he, rfl⟩⟩ := mdbTxnBegin_cases th hbegin
  . exact (h.tail (.wild s.nextTt)).quiet ⟨rfl, rfl, rfl, rfl⟩
  . exact (h.tail (.begin th s.nextTt rd he)).quiet ⟨rfl, rfl, rfl, rfl⟩

theorem mdbTxnRenew (txn : Option Nat)
    : Returns (Reaches puts s₀) (mdbTxnRenew th txn) (fun _ => Reaches puts s₀) := by
  refine returns_iff.mpr fun s rc s' h hrun => ?_
  rw [Db.mdbTxnRenew, bind_of_ok (EStateM.run_get s)] at hrun
  split at hrun
  . cases hrun
  . next i x htxn =>
    cases hrun
    exact (h.tail (.renew th (txn_eq_some htxn).2)).quiet ⟨rfl, rfl, rfl, rfl⟩

theorem internalGetReadTxn
    : Returns (Reaches puts s₀) (internalGetReadTxn th) (fun _ => Reaches puts s₀) := by
  refine spec_get fun s h => ?_
  split
  . refine spec_weaken (create th true) ?_ fun _ _ => id
    rintro _ rfl
    exact h
  . split
    . exact spec_throw _ fun _ _ => trivial
    . next rdrs _ tt txns _ =>
      refine spec_bind (Q := fun _ => Reaches puts s₀) (spec_set fun _ _ => h.quiet ⟨rfl, rfl, rfl, rfl⟩) fun _ => ?_
      refine spec_bind (derefTt tt) fun t => ?_
      refine spec_bind (Q := fun _ => Reaches puts s₀) ?_ fun rc => ?_
      . exact spec_weaken (mdbTxnRenew th t.txn) (fun _ => And.left) fun _ _ => id
      refine spec_bind (Q := fun _ => Reaches puts s₀) ?_ fun _ => spec_pure _ fun _ => id
      exact spec_ensure _ _ (fun _ h _ => h) fun _ _ _ => trivial

theorem internalBeginTxn (rd : Bool)
    : Returns (Reaches puts s₀) (internalBeginTxn th rd) (fun _ => Reaches puts s₀) := by
  cases rd with
  | true => exact internalGetReadTxn th
  | false => exact create th false

theorem changeTxnDb (dbname : Bytes)
    : Returns (Reaches puts s₀) (changeTxnDb tt dbname) (fun _ => Reaches puts s₀) := by
  refine returns_iff.mpr fun s rc s' h hrun => ?_
  obtain ⟨t, ht, ⟨-, rfl, -⟩ | ⟨-, rfl, -⟩ | ⟨d, db, -, -, -, rfl⟩⟩ := changeTxnDb_cases hrun
  . exact h
  . exact h
  . refine (h.tail (.touch (u := { t with db := some d }) ht rfl rfl id)).quiet ⟨rfl, rfl, rfl, ?_⟩
    exact (Alike.setCount s d _).dbs

theorem beginTxn (dbname : Bytes) (rd : Bool)
    : Returns (Reaches puts s₀) (beginTxn th dbname rd) (fun _ => Reaches puts s₀) := by
  refine spec_bind (internalBeginTxn th rd) fun tt => ?_
  refine spec_bind (Q := fun _ => Reaches puts s₀) (spec_modify _ ?_) fun _ => ?_
  . exact fun s h => h.quiet ⟨rfl, rfl, rfl, rfl⟩
  . exact spec_bind (changeTxnDb tt dbname) fun _ => spec_pure _ fun _ => id

def AtEnd (puts : Bytes → Bytes → Prop) (s₀ : Sys) (tt : Nat) (t : TrashTxn) (s : Sys) : Prop :=
  Reaches puts s₀ s ∧ s.tts tt = some t ∧ t.commit = false

theorem mdbTxnAbort {t : TrashTxn}
    : Returns (AtEnd puts s₀ tt t) (mdbTxnAbort t.txn) (fun _ => AtEnd puts s₀ tt t) := by
  refine spec_get fun s ⟨h, ht, hcommit⟩ => ?_
  split
  . exact spec_throw _ fun _ _ => trivial
  . next i x htxn =>
    obtain ⟨hi, hx⟩ := txn_eq_some htxn
    refine spec_modify _ ?_
    rintro _ rfl
    exact ⟨h.tail (.finish .ended ht hcommit hi hx (.inl rfl)), ht, hcommit⟩

theorem mdbTxnReset {t : TrashTxn} (hrd : t.rd = true)
    : Returns (AtEnd puts s₀ tt t) (mdbTxnReset t.txn) (fun _ => AtEnd puts s₀ tt t) := by
  refine returns_iff.mpr fun s u s' ⟨h, ht, hcommit⟩ hrun => ?_
  obtain ⟨⟨i, x⟩, s₁, hderef, hmodify⟩ := bind_eq_ok.mp hrun
  cases hmodify
  obtain ⟨hi, hx, -, l, rfl⟩ := derefTxn_eq_ok hderef
  exact ⟨(h.tail (.finish .reset ht hcommit hi hx (.inr ⟨rfl, hrd⟩))).quiet ⟨rfl, rfl, rfl, rfl⟩, ht, hcommit⟩

theorem endTxn : Returns (Reaches puts s₀) (endTxn tt) (AtEnd puts s₀ tt) := by
  refine spec_bind (derefTt tt) fun t => ?_
  split
  . next hcommit =>
    refine returns_iff.mpr fun s t' s' ⟨h, ht⟩ hrun => ?_
    obtain ⟨rc, s₁, hmdb, hrest⟩ := bind_eq_ok.mp hrun
    obtain ⟨u, s₂, hensure, hset⟩ := bind_eq_ok.mp hrest
    cases hset
    obtain ⟨hrc, rfl⟩ := ensure_eq_ok.mp hensure
    obtain ⟨⟨i, x⟩, s₃, hderef, hput⟩ := bind_eq_ok.mp hmdb
    cases hput
    obtain ⟨hi, hx, hended, l, rfl⟩ := derefTxn_eq_ok hderef
    refine ⟨?_, update_self _ _ _, rfl⟩
    exact (h.tail (.commit ht hcommit hi hx hended (beq_iff_eq.mp hrc))).quiet ⟨rfl, rfl, rfl, rfl⟩
  . next hcommit =>
    refine spec_bind (Q := fun _ => AtEnd puts s₀ tt t) ?_ fun _ => ?_
    . refine spec_weaken (A := AtEnd puts s₀ tt t) ?_ (fun s h => ⟨h.1, h.2, by simpa using hcommit⟩) fun _ _ => id
      exact spec_when (fun _ => mdbTxnAbort tt) fun _ _ => id
    . refine spec_bind (Q := fun _ => AtEnd puts s₀ tt t) ?_ fun _ => spec_pure _ fun _ => id
      exact spec_when (mdbTxnReset tt) fun _ _ => id

theorem returnToPool (t : TrashTxn)
    : Returns (AtEnd puts s₀ tt t) (returnToPool th tt t) (fun _ => AtEnd puts s₀ tt t) := by
  refine spec_get fun s h => ?_
  split
  . exact spec_throw _ fun _ _ => trivial
  . split
    . exact spec_set fun _ _ => ⟨h.1.quiet ⟨rfl, rfl, rfl, rfl⟩, h.2⟩
    . refine spec_weaken (mdbTxnAbort tt) ?_ fun _ _ => id
      rintro _ rfl
      exact h

theorem releaseDb (t : TrashTxn) : Returns (AtEnd puts s₀ tt t) (releaseDb tt t) (fun _ => Reaches puts s₀) := by
  refine returns_iff.mpr fun s u s' h hrun => ?_
  obtain ⟨-, rfl⟩ := releaseDb_cases hrun
  cases t.wr with
  | true => exact (h.1.tail (.free tt)).quiet ⟨rfl, rfl, rfl, (Alike.setCount s _ _).dbs⟩
  | false => exact h.1.quiet ⟨rfl, rfl, rfl, (Alike.setCount s _ _).dbs⟩

theorem returnTxn : Returns (Reaches puts s₀) (returnTxn th tt) (fun _ => Reaches puts s₀) := by
  refine spec_bind (endTxn tt) fun t => ?_
  split
  . exact spec_modify _ fun s h => h.1.tail (.touch h.2.1 rfl rfl id)
  . refine spec_bind (Q := fun _ => AtEnd puts s₀ tt t) (spec_modify _ ?_) fun _ => ?_
    . exact fun s h => ⟨h.1.quiet ⟨rfl, rfl, rfl, rfl⟩, h.2⟩
    refine spec_bind (Q := fun _ => AtEnd puts s₀ tt t) ?_ fun _ => releaseDb tt t
    exact spec_when (fun _ => returnToPool th tt t) fun _ _ => id

theorem mdbCursorOpen (txn : Option Nat) (dbi : Nat)
    : Returns (Reaches puts s₀) (mdbCursorOpen txn dbi) (fun _ => Reaches puts s₀) := by
  refine spec_bind (derefTxn txn) fun ⟨i, x⟩ => ?_
  dsimp only
  split
  . refine spec_get fun s h => ?_
    refine spec_bind (Q := fun _ => Reaches puts s₀) ?_ fun _ => spec_pure _ fun _ => id
    exact spec_set fun _ _ => h.1.quiet ⟨rfl, rfl, rfl, rfl⟩
  . exact spec_pure _ fun _ => And.left

theorem mdbCursorRenew (txn : Option Nat) (c : Nat)
    : Returns (Reaches puts s₀) (mdbCursorRenew txn c) (fun _ => Reaches puts s₀) := by
  refine spec_bind (derefTxn txn) fun ⟨i, x⟩ => ?_
  refine spec_get fun s h => ?_
  split
  . exact spec_throw _ fun _ _ => trivial
  . split
    . refine spec_bind (Q := fun _ => Reaches puts s₀) ?_ fun _ => spec_pure _ fun _ => id
      exact spec_set fun _ _ => h.1.quiet ⟨rfl, rfl, rfl, rfl⟩
    . refine spec_pure _ ?_
      rintro _ rfl
      exact h.1

theorem returnCursor (c : Nat) : Returns (Reaches puts s₀) (returnCursor c) (fun _ => Reaches puts s₀) := by
  refine spec_get fun s h => ?_
  split
  . exact spec_throw _ fun _ _ => trivial
  . exact spec_set fun _ _ => h.quiet ⟨rfl, rfl, rfl, rfl⟩

theorem createCursor (tt : Option Nat)
    : Returns (Reaches puts s₀) (createCursor th tt) (fun _ => Reaches puts s₀) := by
  refine spec_bind (Q := fun _ => Reaches puts s₀) ?_ fun tt => ?_
  . cases tt with
    | none => exact internalGetReadTxn th
    | some tt => exact spec_pure _ fun _ => id
  refine spec_bind (derefTt tt) fun t => ?_
  refine spec_bind (Q := fun _ => Reaches puts s₀) (spec_when (fun _ => ?_) fun _ _ => And.left) fun _ => ?_
  . refine spec_bind (Q := fun _ => Reaches puts s₀) ?_ fun _ => spec_pure _ fun _ => id
    exact spec_weaken (changeTxnDb tt metadata) (fun _ => And.left) fun _ _ => id
  refine spec_bind (derefTt tt) fun t => ?_
  refine spec_get fun s h => ?_
  have hstart : ∀ s', s' = s → Reaches puts s₀ s' := by
    rintro _ rfl
    exact h.1
  split
  . refine spec_bind (spec_weaken (mdbCursorRenew _ _) hstart fun _ _ => id) fun _ => ?_
    refine spec_bind (Q := fun _ => Reaches puts s₀) ?_ fun _ => spec_pure _ fun _ => id
    exact spec_ensure _ _ (fun _ h _ => h) fun _ _ _ => trivial
  . refine spec_bind (spec_weaken (derefDb_spec _ fun _ _ => trivial) hstart fun _ _ => And.left) fun db => ?_
    refine spec_bind (mdbCursorOpen _ _) fun c => ?_
    split
    . exact spec_throw _ fun _ _ => trivial
    . exact spec_pure _ fun _ => id

theorem trashGet (key : Bytes) : Returns (Reaches puts s₀) (trashGet tt key) (fun _ => Reaches puts s₀) := by
  refine spec_bind (derefTt tt) fun t => ?_
  refine spec_bind (derefDb_spec _ fun _ _ => trivial) fun db => ?_
  refine spec_bind (spec_weaken (derefTxn _) (fun _ h => h.1.1) fun _ _ => id) fun ⟨i, x⟩ => ?_
  refine spec_bind (Q := fun _ => Reaches puts s₀) (spec_modify _ ?_) fun _ => spec_pure _ fun _ => id
  exact fun s h => log s _ h.1

theorem trashPut (key val : Bytes) (flags : BitVec 32) (answer : Lmdb.Answer)
    : Returns (fun s => Reaches puts s₀ s ∧ puts (s.target tt) key) (trashPut tt key val flags answer)
        (fun _ => Reaches puts s₀) := by
  refine returns_iff.mpr fun s r s' ⟨h, hkey⟩ hrun => ?_
  obtain ⟨-, rfl⟩ | ⟨t, d, db, i, x, rc, x', l, ht, hrd, hd, hdb, hi, hx, hput, -, rfl⟩ := trashPut_cases hrun
  . exact h
  . have htarget : s.target tt = x.target db.id := by simp [Sys.target, ht, hd, hdb, hi, hx]
    rw [htarget] at hkey
    have hs := h.tail (.put ht hrd hi hx hput hkey)
    split
    . exact (hs.tail (.touch (u := { t with commit := true }) ht rfl rfl fun _ => rfl)).quiet ⟨rfl, rfl, rfl, rfl⟩
    . exact hs.quiet ⟨rfl, rfl, rfl, rfl⟩

theorem putRecord (key val : Bytes) (flags : BitVec 32)
    : Returns (fun s => Reaches puts s₀ s ∧ puts (s.target tt) key) (putRecord tt key val flags)
        (fun _ => Reaches puts s₀) :=
  putRecord_spec fun answer => trashPut tt key val flags answer

theorem mdbDbiOpen (txn : Option Nat) (name : Bytes) (flags : BitVec 32)
    : Returns (Reaches puts s₀) (mdbDbiOpen txn name flags) (fun r s =>
        Reaches puts s₀ s ∧ ∀ id, r = .ok id → s.Mentions ⟨id, name⟩) := by
  refine returns_iff.mpr fun s r s' h hrun => ?_
  cases r with
  | error rc =>
    obtain ⟨l, rfl⟩ := mdbDbiOpen_error hrun
    exact ⟨h.quiet ⟨rfl, rfl, rfl, rfl⟩, by simp⟩
  | ok id =>
    obtain ⟨i, x, x', l, hi, hx, hopen, rfl⟩ := mdbDbiOpen_cases hrun
    refine ⟨(h.tail (.dbiOpen hx hopen)).quiet ⟨rfl, rfl, rfl, rfl⟩, ?_⟩
    rintro _ ⟨⟩
    exact .inr (.inl ⟨i, x', update_self _ _ _, (Lmdb.Env.dbiOpen_known hopen).2.2.2⟩)

theorem internalAddDb (dbname : Bytes) (id : Nat) (flags : BitVec 32)
    : Returns (fun s => Reaches puts s₀ s ∧ s.Mentions ⟨id, dbname⟩) (internalAddDb dbname id flags)
        (fun _ => Reaches puts s₀) := by
  refine spec_get fun s h => ?_
  refine spec_bind (Q := fun _ => Reaches puts s₀) ?_ fun _ => spec_pure _ fun _ hs => hs
  exact spec_set fun _ _ => h.1.tail (.add flags h.2)

theorem setPc (pc : Pc)
    : Returns (fun s => Reaches puts s₀ s ∧ ∀ d, pc.handle = some d → s.Mentions d) (setPc th pc)
        (fun _ => Reaches puts s₀) :=
  spec_modify _ fun _ h => h.1.tail (.pc th h.2)

theorem createReaders (n : Nat)
    : Returns (Reaches puts s₀) (createReaders th n) (fun _ => Reaches puts s₀) := by
  induction n with
  | zero => exact spec_pure _ fun _ => id
  | succ n ih =>
    refine returns_iff.mpr fun s tts s' h hrun => ?_
    obtain ⟨txn, s₁, hbegin, hrest⟩ := bind_eq_ok.mp hrun
    obtain ⟨u, s₂, hensure, hrest₁⟩ := bind_eq_ok.mp hrest
    obtain ⟨htxn, rfl⟩ := ensure_eq_ok.mp hensure
    obtain ⟨l, ⟨rfl, -, -⟩ | ⟨i, e, rfl, he, rfl⟩⟩ := mdbTxnBegin_cases th hbegin
    . cases htxn
    . -- the transaction is reset before it is stored, which makes no difference
      have hx : e.txns i = some (s.env.newTxn th true) := by
        rw [(Lmdb.Env.begin_started he).txns, update_self]
      obtain ⟨u, s₃, hreset, hrest₂⟩ := bind_eq_ok.mp hrest₁
      rw [mdbTxnReset_of_active hx rfl] at hreset
      cases hreset
      obtain ⟨tt, s₄, hcreate, hrest₃⟩ := bind_eq_ok.mp hrest₂
      cases hcreate
      obtain ⟨tts', s₅, hreaders, hpure⟩ := bind_eq_ok.mp hrest₃
      cases hpure
      refine ih.of_run ?_ hreaders
      have hs := h.tail (.begin th s.nextTt true he)
      have hreset := hs.tail (.finish .reset (update_self _ _ _) rfl rfl hx (.inr ⟨rfl, rfl⟩))
      exact hreset.quiet ⟨rfl, rfl, rfl, rfl⟩

theorem initThreadLocalReaders
    : Returns (Reaches puts s₀) (initThreadLocalReaders th) (fun _ => Reaches puts s₀) := by
  refine spec_get fun s h => spec_when (fun _ => ?_) ?_
  . refine spec_bind (Q := fun _ => Reaches puts s₀) ?_ fun curr => ?_
    . refine spec_weaken (createCursor th none) ?_ fun _ _ => id
      rintro _ rfl
      exact h
    . refine spec_bind (createReaders th _) fun txns => ?_
      exact spec_modify _ fun s h => h.quiet ⟨rfl, rfl, rfl, rfl⟩
  . rintro _ - rfl
    exact h

theorem cursorRange (c : Nat) (key : Bytes)
    : Returns (Reaches puts s₀) (cursorRange c key) (fun _ => Reaches puts s₀) := by
  refine spec_get fun s h => ?_
  split
  . exact spec_throw _ fun _ _ => trivial
  . refine spec_bind (Q := fun _ => Reaches puts s₀) ?_ fun ⟨i, x⟩ => ?_
    . refine spec_weaken (derefTxn _) ?_ fun _ _ => And.left
      rintro _ rfl
      exact h
    . dsimp only
      split <;> exact spec_pure _ fun _ => id

theorem openRecords (after : Bytes → Bytes) (records : Lmdb.Contents)
    : ∀ dbMeta, Returns (Reaches puts s₀) (openRecords tt after dbMeta records) (fun _ => Reaches puts s₀) := by
  induction records with
  | nil => exact fun _ => spec_pure _ fun _ => id
  | cons r records ih =>
    intro dbMeta
    unfold Db.openRecords
    split
    . split
      . exact spec_throw _ fun _ _ => trivial
      . refine spec_bind (derefTt tt) fun t => ?_
        refine spec_bind (spec_weaken (mdbDbiOpen _ _ _) (fun _ => And.left) fun _ _ => id) fun res => ?_
        split
        . exact spec_throw _ fun _ _ => trivial
        . next dbi =>
          refine spec_bind (spec_weaken (internalAddDb _ dbi _) ?_ fun _ _ => id) fun _ => ih _
          exact fun s h => ⟨h.1, h.2 dbi rfl⟩
    . exact spec_pure _ fun _ => id

theorem initMetadata (after : Bytes → Bytes) (hputs : ∀ name, puts name metaMeta)
    : Returns (Reaches puts s₀) (initMetadata th after) (fun _ => Reaches puts s₀) := by
  refine spec_bind (beginTxn th metadata false) fun ⟨rc, tt⟩ => spec_when (fun _ => ?_) fun _ _ => id
  refine spec_bind (derefTt tt) fun t => ?_
  refine returns_iff.mpr fun s u s' ⟨h, ht⟩ hrun => ?_
  obtain ⟨res, s₁, hopen, hrest⟩ := bind_eq_ok.mp hrun
  obtain ⟨hs₁, hknown⟩ := (mdbDbiOpen t.txn metadata metadataFlags).of_run h hopen
  have ht₁ : s₁.tts tt = some t := by
    obtain ⟨e, l, c, n, rfl⟩ := (LmdbFrame.mdbDbiOpen (R := LmdbOnly) _ _ _).of_run hopen
    exact ht
  split at hrest
  . cases hrest
  . next dbi =>
    obtain ⟨d, s₂, hadd, hrest₂⟩ := bind_eq_ok.mp hrest
    cases hadd
    obtain ⟨_, s₃, hset, hrest₃⟩ := bind_eq_ok.mp hrest₂
    have hs₃ : Reaches puts s₀ s₃ := by
      cases hset
      have hs₂ := hs₁.tail (.add metadataFlags (hknown dbi rfl))
      exact hs₂.tail (.touch (u := { t with db := some s₁.dbs.length, commit := true }) ht₁ rfl rfl fun _ => rfl)
    refine Returns.of_run (P := Reaches puts s₀) (Q := fun _ => Reaches puts s₀) ?_ hs₃ hrest₃
    refine spec_bind (spec_weaken (putRecord tt _ _ _) (fun s h => ⟨h, hputs _⟩) fun _ _ => id) fun rc => ?_
    refine spec_bind (Q := fun _ => Reaches puts s₀) ?_ fun _ => ?_
    . exact spec_ensure _ _ (fun _ h _ => h) fun _ _ _ => trivial
    refine spec_bind (createCursor th _) fun curr => ?_
    refine spec_bind (cursorRange _ _) fun records => ?_
    refine spec_bind (openRecords tt after records _) fun _ => ?_
    exact spec_bind (returnCursor _) fun _ => returnTxn th tt

theorem openDbi (temp : Nat) {dbname : Bytes} {flags : BitVec 32} (dbMeta : BitVec 32)
    (hputs : flags &&& mdbCreate ≠ 0 → ∀ name, puts name (dbKeyName dbname))
    : Returns (Reaches puts s₀) (openDbi th tt temp dbname flags dbMeta) (fun _ => Reaches puts s₀) := by
  refine spec_bind (derefTt temp) fun t => ?_
  refine spec_bind (spec_weaken (mdbDbiOpen t.txn dbname flags) (fun _ => And.left) fun _ _ => id) fun res => ?_
  split
  . exact spec_throw _ fun _ _ => trivial
  . next dbi =>
    split
    . next hcreate =>
      refine spec_bind (Q := fun _ s => Reaches puts s₀ s ∧ s.Mentions ⟨dbi, dbname⟩) ?_ fun rc => ?_
      . refine returns_iff.mpr fun s rc s' ⟨h, hknown⟩ hrun => ?_
        refine ⟨(putRecord temp _ _ _).of_run ⟨h, hputs hcreate _⟩ hrun, ?_⟩
        exact (hknown dbi rfl).alike ((Alike.putRecord temp _ _ _).of_run hrun)
      . refine spec_bind (Q := fun _ s => Reaches puts s₀ s ∧ s.Mentions ⟨dbi, dbname⟩) ?_ fun _ => ?_
        . exact spec_ensure _ _ (fun _ h _ => h) fun _ _ _ => trivial
        . refine spec_weaken (setPc th _) (fun s h => ⟨h.1, ?_⟩) fun _ _ => id
          intro d hd
          split at hd
          . cases hd
            exact h.2
          . cases hd
            exact h.2
    . refine spec_weaken (setPc th _) (fun s h => ⟨h.1, ?_⟩) fun _ _ => id
      rintro d ⟨⟩
      exact h.2 dbi rfl

theorem openDb {dbname : Bytes} (flags : BitVec 32) (hputs : ∀ name, puts name (dbKeyName dbname))
    : Returns (Reaches puts s₀) (openDb th tt dbname flags) (fun _ => Reaches puts s₀) := by
  refine spec_bind (changeTxnDb tt metadata) fun _ => ?_
  refine spec_bind (trashGet tt dbname) fun res => ?_
  split
  . split
    . exact spec_throw _ fun _ _ => trivial
    . exact openDbi th tt tt _ fun _ => hputs
  . refine spec_bind (derefTt tt) fun t => ?_
    split
    . refine spec_bind (Q := fun _ => Reaches puts s₀) (spec_modify _ ?_) fun _ => ?_
      . exact fun s h => h.1.tail (.touch h.2 rfl rfl id)
      . refine spec_bind (returnTxn th tt) fun _ => ?_
        exact spec_weaken (setPc th _) (fun s h => ⟨h, nofun⟩) fun _ _ => id
    . exact spec_weaken (openDbi th tt tt _ fun _ => hputs) (fun _ => And.left) fun _ _ => id
  . exact spec_throw _ fun _ _ => trivial

theorem openDbResume (h : Reaches puts s₀ s) {u : Unit}
    (hputs : ∀ tt dbname flags, s.pc th = .begin tt dbname flags → ∀ name, puts name (dbKeyName dbname))
    (hrun : (openDbResume th).run s = .ok u s')
    : Reaches puts s₀ s' := by
  rw [Db.openDbResume, bind_of_ok (EStateM.run_get s)] at hrun
  cases hpc : s.pc th with
  | idle =>
    rw [hpc] at hrun
    cases hrun
  | begin tt dbname flags =>
    rw [hpc] at hrun
    refine Returns.of_run (P := Reaches puts s₀) (Q := fun _ => Reaches puts s₀) ?_ h hrun
    exact spec_bind (beginTxn th metadata false) fun r => openDbi th tt r.2 _ fun _ => hputs tt dbname flags hpc
  | commit tt temp dbname id dbMeta =>
    rw [hpc] at hrun
    obtain ⟨_, s₁, hreturn, hset⟩ := bind_eq_ok.mp hrun
    have hs₁ := (returnTxn th temp).of_run h hreturn
    have hsame : Framed s s₁ := (TxnFrame.returnTxn th temp).of_run hreturn
    refine (setPc th _).of_run ⟨hs₁, ?_⟩ hset
    rintro d ⟨⟩
    exact .inr (.inr (.inr ⟨th, by rw [hsame.pc, hpc]; rfl⟩))
  | renew tt dbname id dbMeta =>
    rw [hpc] at hrun
    obtain ⟨t, s₁, hderef, hrest⟩ := bind_eq_ok.mp hrun
    obtain ⟨-, rfl⟩ := derefTt_eq_ok.mp hderef
    obtain ⟨rc, s₂, hrenew, hset⟩ := bind_eq_ok.mp hrest
    have hs₂ := (mdbTxnRenew th t.txn).of_run h hrenew
    have hsame : Framed s₁ s₂ := (LmdbFrame.mdbTxnRenew th t.txn).of_run hrenew
    refine (setPc th _).of_run ⟨hs₂, ?_⟩ hset
    rintro d ⟨⟩
    exact .inr (.inr (.inr ⟨th, by rw [hsame.pc, hpc]; rfl⟩))
  | publish tt dbname id dbMeta =>
    rw [hpc] at hrun
    have hknown : s.Mentions ⟨id, dbname⟩ := .inr (.inr (.inr ⟨th, by rw [hpc]; rfl⟩))
    refine Returns.of_run (P := fun s' => Reaches puts s₀ s' ∧ s'.Mentions ⟨id, dbname⟩)
      (Q := fun _ => Reaches puts s₀) ?_ ⟨h, hknown⟩ hrun
    refine spec_bind (internalAddDb dbname id dbMeta) fun db => ?_
    refine spec_bind (derefTt tt) fun t => ?_
    refine spec_bind (Q := fun _ => Reaches puts s₀) (spec_modify _ ?_) fun _ => ?_
    . exact fun s h => h.1.tail (.touch h.2 rfl rfl fun ht => ht)
    . exact spec_weaken (setPc th _) (fun s h => ⟨h, nofun⟩) fun _ _ hs => hs

end Reaches

end

def Pc.creating : Pc → Option Bytes
  | .begin _ dbname _ => some dbname
  | _ => none

def Action.puts (s : Sys) : Action → Bytes → Bytes → Prop
  | .initMetadata _ _, _, key => key = metaMeta
  | .openDb _ _ dbname _, _, key => key = dbKeyName dbname
  | .resume th, _, key => (s.pc th).creating.map dbKeyName = some key
  | .trashPut _ tt key _ _ _, name, key' => name = s.target tt ∧ key' = key
  | _, _, _ => False

instance (s : Sys) (a : Action) (name key : Bytes) : Decidable (a.puts s name key) :=
  match a with
  | .initMetadata _ _ => inferInstanceAs (Decidable (key = metaMeta))
  | .openDb _ _ dbname _ => inferInstanceAs (Decidable (key = dbKeyName dbname))
  | .resume th => inferInstanceAs (Decidable ((s.pc th).creating.map dbKeyName = some key))
  | .trashPut _ tt key' _ _ _ => inferInstanceAs (Decidable (name = s.target tt ∧ key = key'))
  | .initThreadLocalReaders _ | .beginTxn _ _ _ | .internalBeginTxn _ _ | .changeTxnDb _ _ _ | .createCursor _ _
  | .returnCursor _ _ | .trashGet _ _ _ | .returnTxn _ _ => inferInstanceAs (Decidable False)

theorem reaches_of_step {s s' : Sys} {a : Action} (h : s.step a = some s') : Reaches (a.puts s) s s' := by
  have hrefl : Reaches (a.puts s) s s := Relation.ReflTransGen.refl
  obtain ⟨r, hrun⟩ := exec_of_step h
  cases a with
  | initThreadLocalReaders th =>
    obtain ⟨-, hrest⟩ := ready_bind_eq_ok.mp hrun
    obtain ⟨_, s₂, hinit, hpure⟩ := bind_eq_ok.mp hrest
    cases hpure
    exact (Reaches.initThreadLocalReaders th).of_run hrefl hinit
  | initMetadata th after =>
    obtain ⟨-, hrest⟩ := ready_bind_eq_ok.mp hrun
    obtain ⟨_, s₂, hinit, hpure⟩ := bind_eq_ok.mp hrest
    cases hpure
    exact (Reaches.initMetadata th after (by exact fun _ => rfl)).of_run hrefl hinit
  | beginTxn th dbname rd =>
    obtain ⟨-, hrest⟩ := ready_bind_eq_ok.mp hrun
    obtain ⟨_, s₂, hbegin, hpure⟩ := bind_eq_ok.mp hrest
    cases hpure
    exact (Reaches.beginTxn th dbname rd).of_run hrefl hbegin
  | internalBeginTxn th rd =>
    obtain ⟨-, hrest⟩ := ready_bind_eq_ok.mp hrun
    obtain ⟨_, s₂, hbegin, hmodify⟩ := bind_eq_ok.mp hrest
    cases hmodify
    exact ((Reaches.internalBeginTxn th rd).of_run hrefl hbegin).quiet ⟨rfl, rfl, rfl, rfl⟩
  | changeTxnDb th tt dbname =>
    obtain ⟨-, -, hrest⟩ := holds_bind_eq_ok.mp hrun
    obtain ⟨_, s₂, hchange, hpure⟩ := bind_eq_ok.mp hrest
    cases hpure
    exact (Reaches.changeTxnDb tt dbname).of_run hrefl hchange
  | openDb th tt dbname flags =>
    obtain ⟨-, -, hrest⟩ := holds_bind_eq_ok.mp hrun
    obtain ⟨_, s₂, hopen, hpure⟩ := bind_eq_ok.mp hrest
    cases hpure
    exact (Reaches.openDb th tt flags (by exact fun _ => rfl)).of_run hrefl hopen
  | resume th =>
    obtain ⟨_, s₂, hresume, hpure⟩ := bind_eq_ok.mp hrun
    cases hpure
    refine Reaches.openDbResume th hrefl ?_ hresume
    intro tt dbname flags hpc name
    rw [Action.puts, hpc]
    rfl
  | createCursor th tt =>
    cases tt with
    | none =>
      obtain ⟨-, hrest⟩ := ready_bind_eq_ok.mp hrun
      obtain ⟨_, s₂, hcreate, hpure⟩ := bind_eq_ok.mp hrest
      cases hpure
      exact (Reaches.createCursor th none).of_run hrefl hcreate
    | some tt =>
      obtain ⟨-, -, hrest⟩ := holds_bind_eq_ok.mp hrun
      obtain ⟨_, s₂, hcreate, hpure⟩ := bind_eq_ok.mp hrest
      cases hpure
      exact (Reaches.createCursor th (some tt)).of_run hrefl hcreate
  | returnCursor th c =>
    obtain ⟨-, hrest⟩ := ready_bind_eq_ok.mp hrun
    obtain ⟨_, s₂, hreturn, hpure⟩ := bind_eq_ok.mp hrest
    cases hpure
    exact (Reaches.returnCursor c).of_run hrefl hreturn
  | trashPut th tt key val flags answer =>
    obtain ⟨-, -, hrest⟩ := holds_bind_eq_ok.mp hrun
    obtain ⟨_, s₂, hput, hpure⟩ := bind_eq_ok.mp hrest
    cases hpure
    exact (Reaches.trashPut tt key val flags answer).of_run ⟨hrefl, rfl, rfl⟩ hput
  | trashGet th tt key =>
    obtain ⟨-, -, hrest⟩ := holds_bind_eq_ok.mp hrun
    obtain ⟨_, s₂, hget, hpure⟩ := bind_eq_ok.mp hrest
    cases hpure
    exact (Reaches.trashGet tt key).of_run hrefl hget
  | returnTxn th tt =>
    obtain ⟨-, -, hrest⟩ := holds_bind_eq_ok.mp hrun
    obtain ⟨_, s₂, hreturn, hpure⟩ := bind_eq_ok.mp hrest
    cases hpure
    exact (Reaches.returnTxn th tt).of_run hrefl hreturn

end Db
