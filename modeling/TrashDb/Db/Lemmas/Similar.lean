import TrashDb.Db.Lemmas.Alike
import TrashDb.Db.Lemmas.Env

/-!
This module contains the states in which the transactions have the same roles, whatever their data and the
databases they have opened.
-/

namespace Lmdb

def Txn.role (x : Txn) : Bool × Nat × TxnState := (x.rdonly, x.thread, x.state)

theorem Txn.dbiOpen_role {x x' : Txn} {name : Db.Bytes} {flags : BitVec 32} {next dbi : Nat}
    (h : x.dbiOpen name flags next = .ok (dbi, x'))
    : x'.role = x.role := by
  unfold dbiOpen at h
  repeat' split at h
  all_goals cases h
  all_goals rfl

end Lmdb

namespace Db

open Prog Function

def PublicMetadata (s : Sys) : Prop :=
  ∃ d db, s.dbs.findIdx? (fun db => dbMatch (some db) metadata) = some d ∧ s.dbs[d]? = some db ∧
    ∃ h ∈ s.env.dbis, h.id = db.id

structure Similar (s s' : Sys) : Prop where
  nextTxn : s'.env.nextTxn = s.env.nextTxn
  slots : s'.env.slots = s.env.slots
  txns : ∀ i, (s'.env.txns i).map Lmdb.Txn.role = (s.env.txns i).map Lmdb.Txn.role
  tts : ∀ tt, (s'.tts tt).map TrashTxn.core = (s.tts tt).map TrashTxn.core
  nextTt : s'.nextTt = s.nextTt
  out : s'.out = s.out
  rdrPool : s'.rdrPool = s.rdrPool
  capacity : s'.capacity = s.capacity
  pc : s'.pc = s.pc
  metadata : PublicMetadata s → PublicMetadata s'

theorem PublicMetadata.congr {s s' : Sys} (h : PublicMetadata s) (hdbis : s.env.dbis ⊆ s'.env.dbis)
    (hdbs : s'.dbs.map (fun db => (db.name, db.id)) = s.dbs.map (fun db => (db.name, db.id)))
    : PublicMetadata s' := by
  obtain ⟨d, db, hd, hdb, hid⟩ := h
  have hfind : ∀ l : List OpenDb, l.findIdx? (fun db => dbMatch (some db) metadata) =
      (l.map fun db => (db.name, db.id)).findIdx? fun p => p.1 == metadata := by
    intro l
    rw [List.findIdx?_map]
    rfl
  have hget : (s'.dbs[d]?).map (fun db => (db.name, db.id)) = some (db.name, db.id) := by
    rw [← List.getElem?_map, hdbs, List.getElem?_map, hdb, Option.map_some]
  obtain ⟨db', hdb', heq⟩ := Option.map_eq_some_iff.mp hget
  simp only [Prod.mk.injEq] at heq
  refine ⟨d, db', ?_, hdb', ?_⟩
  . rw [hfind, hdbs, ← hfind, hd]
  . obtain ⟨h, hh, hid⟩ := hid
    exact ⟨h, hdbis hh, by rw [hid, heq.2]⟩

namespace Similar

variable {s s' : Sys} {i tt : Nat}

theorem of_alike (h : Alike s s') : Similar s s' := by
  refine ⟨h.nextTxn, h.slots, ?_, h.tts, h.nextTt, h.out, h.rdrPool, h.capacity, h.pc, ?_⟩
  . intro i
    have hcore := congrArg (Option.map fun c => (c.1, c.2.1, c.2.2.1)) (h.txns i)
    rw [Option.map_map, Option.map_map] at hcore
    exact hcore
  . refine fun hmeta => hmeta.congr ?_ h.dbs
    rw [h.dbis]
    exact List.Subset.refl _

theorem txn_of_some {x : Lmdb.Txn} (h : Similar s s') (hx : s.env.txns i = some x)
    : ∃ x', s'.env.txns i = some x' ∧ x'.role = x.role := by
  have hi := h.txns i
  rw [hx, Option.map_some] at hi
  exact Option.map_eq_some_iff.mp hi

theorem tt_of_some {t : TrashTxn} (h : Similar s s') (ht : s.tts tt = some t)
    : ∃ t', s'.tts tt = some t' ∧ t'.core = t.core := by
  have htt := h.tts tt
  rw [ht, Option.map_some] at htt
  exact Option.map_eq_some_iff.mp htt

theorem setTt {t : TrashTxn} (ht : (s.tts tt).map TrashTxn.core = some t.core)
    : Similar s { s with tts := update s.tts tt (some t) } := by
  refine ⟨rfl, rfl, fun _ => rfl, ?_, rfl, rfl, rfl, rfl, rfl, fun h => h.congr (List.Subset.refl _) rfl⟩
  intro tt'
  dsimp only
  rw [update_apply]
  split
  . next heq => rw [heq, ht, Option.map_some]
  . rfl

theorem dbiOpen {name : Bytes} {flags : BitVec 32} {next dbi : Nat} {x x' : Lmdb.Txn}
    (hx : s.env.txns i = some x) (hopen : x.dbiOpen name flags next = .ok (dbi, x'))
    : Similar s { s with env := { s.env.setTxn i x' with nextDbi := next + 1 } } := by
  refine ⟨rfl, rfl, ?_, fun _ => rfl, rfl, rfl, rfl, rfl, rfl, ?_⟩
  . intro j
    dsimp only [Lmdb.Env.setTxn]
    rw [update_apply]
    split
    . next heq => rw [heq, hx, Option.map_some, Option.map_some, Lmdb.Txn.dbiOpen_role hopen]
    . rfl
  . exact fun h => h.congr (List.Subset.refl _) rfl

theorem addDb (s : Sys) (db : OpenDb) : Similar s { s with dbs := s.dbs ++ [db] } := by
  refine ⟨rfl, rfl, fun _ => rfl, fun _ => rfl, rfl, rfl, rfl, rfl, rfl, ?_⟩
  rintro ⟨d, db, hd, hdb, hid⟩
  refine ⟨d, db, ?_, ?_, hid⟩
  . dsimp only
    rw [List.findIdx?_append, hd, Option.some_or]
  . dsimp only
    rw [List.getElem?_append_left (List.getElem?_eq_some_iff.mp hdb).1]
    exact hdb

theorem log (s : Sys) (c : Call) : Similar s { s with log := s.log ++ [c] } :=
  of_alike ((refl s : Alike s s).log _)

end Similar

/--
A property of the states that depends on the roles of the transactions only.
-/
def Robust (P : Sys → Prop) : Prop := ∀ s s', P s → Similar s s' → P s'

namespace Robust

variable {P : Sys → Prop}

theorem of_alike {α : Type} {m : M α} (hP : Robust P) (h : Extends Alike m) : Returns P m (fun _ => P) :=
  returns_of_extends h fun s s' hs halike => hP s s' hs (.of_alike halike)

theorem mdbDbiOpen (hP : Robust P) (txn : Option Nat) (name : Bytes) (flags : BitVec 32)
    : Returns P (mdbDbiOpen txn name flags) (fun _ => P) := by
  refine spec_bind (derefTxn_spec txn (fun s c hs => hP s _ hs (.log s c)) fun _ _ => trivial) fun ⟨i, x⟩ => ?_
  refine spec_bind (Q := fun _ s => P s ∧ s.env.txns i = some x) (spec_modify _ ?_) fun _ => ?_
  . exact fun s ⟨hs, _, hx, _⟩ => ⟨hP s _ hs (.log s _), hx⟩
  refine spec_get fun s ⟨hs, hx⟩ => ?_
  split
  . refine spec_pure _ ?_
    rintro _ rfl
    exact hs
  . next dbi x' hopen =>
    split
    . refine spec_pure _ ?_
      rintro _ rfl
      exact hs
    . refine spec_bind (Q := fun _ => P) (spec_modify _ ?_) fun _ => spec_pure _ fun _ => id
      rintro s rfl
      exact hP s _ hs (.dbiOpen hx hopen)

end Robust

def Live (s : Sys) (txn : Option Nat) : Prop :=
  ∃ i x, txn = some i ∧ s.env.txns i = some x ∧ x.state = .active

/--
The transaction `tt` of the thread is the transaction `i` of LMDB, which is in the state `st`.
-/
structure Owns (rd : Bool) (th tt i : Nat) (st : Lmdb.TxnState) (s : Sys) : Prop where
  core : ∃ t, s.tts tt = some t ∧ t.core = (some i, rd, !rd, false, false)
  role : ∃ x, s.env.txns i = some x ∧ x.role = (rd, th, st)
  ttLt : tt < s.nextTt
  txnLt : i < s.env.nextTxn

namespace Owns

variable {s : Sys} {rd : Bool} {th tt i : Nat} {st : Lmdb.TxnState}

theorem robust : Robust (Owns rd th tt i st) := by
  intro s s' h hs
  obtain ⟨t, ht, hcore⟩ := h.core
  obtain ⟨x, hx, hrole⟩ := h.role
  obtain ⟨t', ht', hcore'⟩ := hs.tt_of_some ht
  obtain ⟨x', hx', hrole'⟩ := hs.txn_of_some hx
  refine ⟨⟨t', ht', hcore'.trans hcore⟩, ⟨x', hx', hrole'.trans hrole⟩, ?_, ?_⟩
  . rw [hs.nextTt]
    exact h.ttLt
  . rw [hs.nextTxn]
    exact h.txnLt

theorem core_eq {t : TrashTxn} (h : Owns rd th tt i st s) (ht : s.tts tt = some t)
    : t.core = (some i, rd, !rd, false, false) := by
  obtain ⟨t', ht', hcore⟩ := h.core
  rw [ht] at ht'
  cases ht'
  exact hcore

theorem live (h : Owns rd th tt i .active s) : Live s (some i) := by
  obtain ⟨x, hx, hrole⟩ := h.role
  simp only [Lmdb.Txn.role, Prod.mk.injEq] at hrole
  exact ⟨i, x, rfl, hx, hrole.2.2⟩

theorem mono {s' : Sys} (h : Owns rd th tt i st s) (htt : s'.tts tt = s.tts tt) (hi : s'.env.txns i = s.env.txns i)
    (hnextTt : s.nextTt ≤ s'.nextTt) (hnextTxn : s.env.nextTxn ≤ s'.env.nextTxn)
    : Owns rd th tt i st s' := by
  obtain ⟨t, ht, hcore⟩ := h.core
  obtain ⟨x, hx, hrole⟩ := h.role
  exact ⟨⟨t, htt.trans ht, hcore⟩, ⟨x, hi.trans hx, hrole⟩, Nat.lt_of_lt_of_le h.ttLt hnextTt,
    Nat.lt_of_lt_of_le h.txnLt hnextTxn⟩

theorem setTxn {e : Lmdb.Env} {j : Nat} {y : Lmdb.Txn} (h : Owns rd th tt i st s) (hij : i ≠ j)
    (htxns : e.txns = update s.env.txns j (some y)) (hnext : s.env.nextTxn ≤ e.nextTxn)
    : Owns rd th tt i st { s with env := e } := by
  refine h.mono rfl ?_ (Nat.le_refl _) hnext
  rw [htxns, update_of_ne hij]

theorem setState {e : Lmdb.Env} {y : Lmdb.Txn} {st' : Lmdb.TxnState} (h : Owns rd th tt i st s)
    (htxns : e.txns = update s.env.txns i (some y)) (hrole : y.role = (rd, th, st'))
    (hnext : s.env.nextTxn ≤ e.nextTxn)
    : Owns rd th tt i st' { s with env := e } := by
  refine ⟨h.core, ⟨y, ?_, hrole⟩, h.ttLt, Nat.lt_of_lt_of_le h.txnLt hnext⟩
  dsimp only
  rw [htxns, update_self]

theorem setTt {tt' n : Nat} {t : Option TrashTxn} (h : Owns rd th tt i st s) (hne : tt ≠ tt')
    (hnext : s.nextTt ≤ n)
    : Owns rd th tt i st { s with tts := update s.tts tt' t, nextTt := n } :=
  h.mono (update_of_ne hne _ _) rfl hnext (Nat.le_refl _)

theorem txn_ne {th' tt' j : Nat} {st' : Lmdb.TxnState} (h : Owns true th tt i st s)
    (h' : Owns false th' tt' j st' s)
    : i ≠ j := by
  rintro rfl
  obtain ⟨x, hx, hrole⟩ := h.role
  obtain ⟨y, hy, hrole'⟩ := h'.role
  rw [hx] at hy
  cases hy
  rw [hrole] at hrole'
  cases hrole'

theorem tt_ne {th' tt' j : Nat} {st' : Lmdb.TxnState} (h : Owns true th tt i st s)
    (h' : Owns false th' tt' j st' s)
    : tt ≠ tt' := by
  rintro rfl
  obtain ⟨t, ht, hcore⟩ := h.core
  have hcore' := h'.core_eq ht
  rw [hcore] at hcore'
  cases hcore'

end Owns

end Db
