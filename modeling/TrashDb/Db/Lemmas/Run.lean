import TrashDb.Db.Impl

/-!
This module contains what the small functions of `db.c` and the calls of LMDB do in a given state.
-/

namespace Db

open Prog

theorem or_mdbCreate (flags : BitVec 32) : (flags ||| mdbCreate) &&& mdbCreate ≠ 0 := by
  intro h
  have hbit := congrArg (fun b => b.getLsbD 18) h
  simp [mdbCreate] at hbit

/--
Calls of LMDB were made, which have changed its environment and the cursors only.
-/
def LmdbOnly (s s' : Sys) : Prop :=
  ∃ e l c n, s' = { s with env := e, log := s.log ++ l, cursors := c, nextCursor := n }

theorem LmdbOnly.refl (s : Sys) : LmdbOnly s s := ⟨s.env, [], s.cursors, s.nextCursor, by simp⟩

theorem LmdbOnly.ofEnv (s : Sys) (e : Lmdb.Env) : LmdbOnly s { s with env := e } :=
  ⟨e, [], s.cursors, s.nextCursor, by simp⟩

theorem LmdbOnly.ofCursors (s : Sys) (c : Nat → Option Cursor) (n : Nat)
    : LmdbOnly s { s with cursors := c, nextCursor := n } :=
  ⟨s.env, [], c, n, by simp⟩

instance : Std.Refl LmdbOnly := ⟨LmdbOnly.refl⟩

instance : IsTrans Sys LmdbOnly := by
  constructor
  rintro _ _ _ ⟨_, l, _, _, rfl⟩ ⟨e, l', c, n, rfl⟩
  exact ⟨e, l ++ l', c, n, by simp⟩

def Call.keyed : Call → Bool
  | .get _ _ | .put _ _ => true
  | _ => false

/--
The relation holds across every call of LMDB but those with a key or a cursor.
-/
class LmdbFrame (R : Sys → Sys → Prop) : Prop extends Std.Refl R, IsTrans Sys R where
  env (s : Sys) (e : Lmdb.Env) : R s { s with env := e }
  log (s : Sys) {c : Call} (hc : c.keyed = false) : R s { s with log := s.log ++ [c] }

class KeyFrame (R : Sys → Sys → Prop) : Prop extends LmdbFrame R where
  key (s : Sys) (c : Call) : R s { s with log := s.log ++ [c] }

class CursorFrame (R : Sys → Sys → Prop) : Prop extends LmdbFrame R where
  cursors (s : Sys) (c : Nat → Option Cursor) (n : Nat) : R s { s with cursors := c, nextCursor := n }

instance : KeyFrame LmdbOnly where
  env := .ofEnv
  log s c _ := ⟨s.env, [c], s.cursors, s.nextCursor, rfl⟩
  key s c := ⟨s.env, [c], s.cursors, s.nextCursor, rfl⟩

instance : CursorFrame LmdbOnly where
  cursors := .ofCursors

section

variable {R : Sys → Sys → Prop} (th tt : Nat) (txn : Option Nat)

namespace LmdbFrame

variable [LmdbFrame R]

theorem call {c : Call} (hc : c.keyed = false) : Extends R (call c) := fun s => log s hc

theorem setEnv (e : Lmdb.Env) : Extends R (setEnv e) := fun s => env s e

theorem derefTt : Extends R (derefTt tt) := by
  refine extends_bind extends_get fun s => ?_
  split
  . apply extends_throw
  . apply extends_pure

theorem derefDb (db : Option Nat) : Extends R (derefDb db) := by
  refine extends_bind extends_get fun s => ?_
  split
  . apply extends_throw
  . apply extends_pure

theorem derefTxn : Extends R (derefTxn txn) := by
  refine extends_bind extends_get fun s => ?_
  split
  . exact extends_bind (call rfl) fun _ => extends_throw _
  . refine extends_bind (call rfl) fun _ => ?_
    split
    . apply extends_throw
    . apply extends_pure

theorem mdbTxnBegin (rdonly : Bool) : Extends R (mdbTxnBegin th rdonly) := by
  refine extends_bind extends_get fun s => ?_
  split
  . refine extends_bind (call rfl) fun _ => ?_
    split
    . apply extends_pure
    . exact extends_bind (setEnv _) fun _ => extends_pure _
  . split
    . apply extends_throw
    . refine extends_bind (call rfl) fun _ => ?_
      exact extends_bind (setEnv _) fun _ => extends_pure _

theorem mdbTxnRenew : Extends R (mdbTxnRenew th txn) := by
  refine extends_bind extends_get fun s => ?_
  split
  . exact extends_bind (call rfl) fun _ => extends_throw _
  . refine extends_bind (call rfl) fun _ => ?_
    exact extends_bind (setEnv _) fun _ => extends_pure _

theorem mdbTxnReset : Extends R (mdbTxnReset txn) :=
  extends_bind (derefTxn txn) fun _ s => env s _

theorem mdbTxnAbort : Extends R (mdbTxnAbort txn) := by
  refine extends_bind extends_get fun s => ?_
  split
  . apply extends_throw
  . apply setEnv

theorem mdbTxnCommit : Extends R (mdbTxnCommit txn) := by
  refine extends_bind (derefTxn txn) fun _ => ?_
  refine extends_bind extends_get fun s => ?_
  exact extends_bind (setEnv _) fun _ => extends_pure _

theorem mdbGet {key : Bytes} (hget : ∀ s res, R s { s with log := s.log ++ [.get key res] }) (dbi : Nat)
    : Extends R (mdbGet txn dbi key) := by
  refine extends_bind (derefTxn txn) fun _ => ?_
  exact extends_bind (fun s => hget s _) fun _ => extends_pure _

theorem mdbPut {key val : Bytes} (hput : ∀ s, R s { s with log := s.log ++ [.put key val] }) (dbi : Nat)
    (flags : BitVec 32) (answer : Lmdb.Answer)
    : Extends R (mdbPut txn dbi key val flags answer) := by
  refine extends_bind (derefTxn txn) fun _ => ?_
  refine extends_bind hput fun _ => ?_
  exact extends_bind (fun s => env s _) fun _ => extends_pure _

theorem mdbDbiOpen (name : Bytes) (flags : BitVec 32)
    : Extends R (mdbDbiOpen txn name flags) := by
  refine extends_bind (derefTxn txn) fun _ => ?_
  refine extends_bind (call rfl) fun _ => ?_
  refine extends_bind extends_get fun s => ?_
  split
  . apply extends_pure
  . split
    . apply extends_pure
    . exact extends_bind (setEnv _) fun _ => extends_pure _

theorem cursorRange (c : Nat) (key : Bytes) : Extends R (cursorRange c key) := by
  refine extends_bind extends_get fun s => ?_
  split
  . apply extends_throw
  . refine extends_bind (derefTxn _) fun ⟨i, t⟩ => ?_
    dsimp only
    split <;> apply extends_pure

theorem ready : Extends R (ready th) :=
  extends_bind extends_get fun _ => extends_ensure _ _

theorem holds : Extends R (holds th tt) := by
  refine extends_bind (ready th) fun _ => ?_
  exact extends_bind extends_get fun _ => extends_ensure _ _

end LmdbFrame

namespace KeyFrame

variable [KeyFrame R]

theorem mdbPut (dbi : Nat) (key val : Bytes) (flags : BitVec 32) (answer : Lmdb.Answer)
    : Extends R (mdbPut txn dbi key val flags answer) :=
  LmdbFrame.mdbPut txn (fun s => KeyFrame.key s (.put key val)) dbi flags answer

end KeyFrame

namespace CursorFrame

variable [CursorFrame R]

theorem mdbCursorOpen (dbi : Nat) : Extends R (mdbCursorOpen txn dbi) := by
  refine extends_bind (LmdbFrame.derefTxn txn) fun ⟨i, t⟩ => ?_
  dsimp only
  split
  . intro s
    exact cursors s _ _
  . apply extends_pure

theorem mdbCursorRenew (c : Nat) : Extends R (mdbCursorRenew txn c) := by
  refine extends_bind (LmdbFrame.derefTxn txn) fun r => ?_
  intro s
  simp only [EStateM.run_bind, EStateM.run_get]
  split
  . exact refl s
  . split
    . exact cursors s _ _
    . exact refl s

theorem returnCursor (c : Nat) : Extends R (returnCursor c) := by
  intro s
  simp only [Db.returnCursor, EStateM.run_bind, EStateM.run_get]
  split
  . exact refl s
  . exact cursors s _ _

end CursorFrame

end

variable {s s' : Sys} {tt : Nat} {t : TrashTxn} {i : Nat} {x : Lmdb.Txn}

theorem exec_of_step {a : Action} (h : s.step a = some s') : ∃ r, (exec a).run s = .ok r s' := by
  unfold Sys.step at h
  split at h
  . next r s₁ hrun =>
    cases h
    exact ⟨r, hrun⟩
  . cases h

theorem ready_eq_ok {th : Nat} {u : Unit} : (ready th).run s = .ok u s' ↔ s.pc th = .idle ∧ s' = s := by
  simp only [ready, EStateM.run_bind, EStateM.run_get]
  rw [ensure_eq_ok, beq_iff_eq]

theorem holds_eq_ok {th : Nat} {u : Unit}
    : (holds th tt).run s = .ok u s' ↔ s.pc th = .idle ∧ (th, tt) ∈ s.out ∧ s' = s := by
  constructor
  . intro h
    obtain ⟨_, s₁, hready, hrest⟩ := bind_eq_ok.mp h
    obtain ⟨hidle, rfl⟩ := ready_eq_ok.mp hready
    rw [bind_of_ok (EStateM.run_get s₁), ensure_eq_ok, List.contains_iff_mem] at hrest
    exact ⟨hidle, hrest⟩
  . rintro ⟨hidle, hmem, rfl⟩
    rw [holds, bind_of_ok ((ready_eq_ok (u := ())).mpr ⟨hidle, rfl⟩), bind_of_ok (EStateM.run_get s'), ensure_eq_ok]
    exact ⟨List.contains_iff_mem.mpr hmem, rfl⟩

theorem ready_bind_eq_ok {α : Type} {m : Unit → M α} {th : Nat} {a : α}
    : (ready th >>= m).run s = .ok a s' ↔ s.pc th = .idle ∧ (m ()).run s = .ok a s' := by
  constructor
  . intro h
    obtain ⟨_, s₁, hready, hrest⟩ := bind_eq_ok.mp h
    obtain ⟨hidle, rfl⟩ := ready_eq_ok.mp hready
    exact ⟨hidle, hrest⟩
  . rintro ⟨hidle, hrest⟩
    exact bind_eq_ok.mpr ⟨(), s, ready_eq_ok.mpr ⟨hidle, rfl⟩, hrest⟩

theorem holds_bind_eq_ok {α : Type} {m : Unit → M α} {th : Nat} {a : α}
    : (holds th tt >>= m).run s = .ok a s' ↔ s.pc th = .idle ∧ (th, tt) ∈ s.out ∧ (m ()).run s = .ok a s' := by
  constructor
  . intro h
    obtain ⟨_, s₁, hholds, hrest⟩ := bind_eq_ok.mp h
    obtain ⟨hidle, hmem, rfl⟩ := holds_eq_ok.mp hholds
    exact ⟨hidle, hmem, hrest⟩
  . rintro ⟨hidle, hmem, hrest⟩
    exact bind_eq_ok.mpr ⟨(), s, holds_eq_ok.mpr ⟨hidle, hmem, rfl⟩, hrest⟩

theorem derefTt_eq_ok : (derefTt tt).run s = .ok t s' ↔ s.tts tt = some t ∧ s' = s := by
  simp only [derefTt, EStateM.run_bind, EStateM.run_get]
  cases s.tts tt with
  | none => simp
  | some t' => simp [eq_comm]

theorem derefTt_of_some (h : s.tts tt = some t) : (derefTt tt).run s = .ok t s := by
  simp [derefTt, h]

theorem changeTxnDb_cases {dbname : Bytes} {rc : TrashRc} (h : (changeTxnDb tt dbname).run s = .ok rc s')
    : ∃ t, s.tts tt = some t ∧
        ((rc = .success ∧ s' = s ∧ dbMatch (t.db.bind (s.dbs[·]?)) dbname = true) ∨
        (rc = .dbDne ∧ s' = s ∧ ∀ db ∈ s.dbs, db.name ≠ dbname) ∨
        ∃ d db, rc = .success ∧ s.dbs[d]? = some db ∧ db.name = dbname ∧
          s' = {
            s with
            dbs := s.dbs.modify d fun db => { db with count := Word.add32 db.count 1 }
            tts := Function.update s.tts tt (some { t with db := some d })
          }) := by
  obtain ⟨t, s₁, hderef, hrest⟩ := bind_eq_ok.mp h
  obtain ⟨ht, rfl⟩ := derefTt_eq_ok.mp hderef
  refine ⟨t, ht, ?_⟩
  rw [bind_of_ok (EStateM.run_get s₁)] at hrest
  split at hrest
  . next hmatch =>
    cases hrest
    exact .inl ⟨rfl, rfl, hmatch⟩
  . split at hrest
    . next hnone =>
      cases hrest
      refine .inr (.inl ⟨rfl, rfl, ?_⟩)
      intro db hdb
      simpa [dbMatch] using List.findIdx?_eq_none_iff.mp hnone db hdb
    . next d hd =>
      cases hrest
      obtain ⟨hlt, hname, _⟩ := List.findIdx?_eq_some_iff_getElem.mp hd
      exact .inr (.inr ⟨d, _, rfl, List.getElem?_eq_getElem hlt, by simpa [dbMatch] using hname, rfl⟩)

theorem derefTxn_of_active (hx : s.env.txns i = some x) (hactive : x.state = .active)
    : (derefTxn (some i)).run s = .ok (i, x) { s with log := s.log ++ [.access true] } := by
  simp [derefTxn, call, hx, hactive]

theorem mdbTxnReset_of_active (hx : s.env.txns i = some x) (hactive : x.state = .active)
    : (mdbTxnReset (some i)).run s =
        .ok () { s with env := s.env.finish i x .reset, log := s.log ++ [.access true] } := by
  rw [mdbTxnReset, bind_of_ok (derefTxn_of_active hx hactive)]
  rfl

theorem mdbTxnCommit_of_active (hx : s.env.txns i = some x) (hactive : x.state = .active)
    : (mdbTxnCommit (some i)).run s =
        .ok (s.env.commit i x).1 { s with env := (s.env.commit i x).2, log := s.log ++ [.access true] } := by
  rw [mdbTxnCommit, bind_of_ok (derefTxn_of_active hx hactive)]
  rfl

theorem mdbTxnAbort_of_some (hx : s.env.txns i = some x)
    : (mdbTxnAbort (some i)).run s = .ok () { s with env := s.env.finish i x .ended } := by
  simp [mdbTxnAbort, setEnv, hx]

theorem mdbGet_of_active (hx : s.env.txns i = some x) (hactive : x.state = .active) (dbi : Nat) (key : Bytes)
    : (mdbGet (some i) dbi key).run s =
        .ok (x.get dbi key) { s with log := s.log ++ [.access true, .get key (x.get dbi key)] } := by
  rw [mdbGet, bind_of_ok (derefTxn_of_active hx hactive)]
  simp [call]

theorem mdbPut_of_active {dbi : Nat} {key val : Bytes} {flags : BitVec 32} {answer : Lmdb.Answer} {rc : Lmdb.Rc}
    {x' : Lmdb.Txn} (hx : s.env.txns i = some x) (hactive : x.state = .active) (hput : x.put dbi key val flags answer = (rc, x'))
    : (mdbPut (some i) dbi key val flags answer).run s =
        .ok rc { s with env := s.env.setTxn i x', log := s.log ++ [.access true, .put key val] } := by
  rw [mdbPut, bind_of_ok (derefTxn_of_active hx hactive)]
  simp [call, hput]

theorem mdbDbiOpen_of_active {name : Bytes} {flags : BitVec 32} {id : Nat} {x' : Lmdb.Txn}
    (hx : s.env.txns i = some x) (hactive : x.state = .active)
    (hopen : x.dbiOpen name flags s.env.nextDbi = .ok (id, x'))
    (hroom : ∀ n, s.env.refusal n x x' = none)
    : (mdbDbiOpen (some i) name flags).run s = .ok (.ok id) {
        s with
        env := { s.env.setTxn i x' with nextDbi := s.env.nextDbi + 1 }
        log := s.log ++ [.access true, .dbiOpen name flags]
      } := by
  rw [mdbDbiOpen, bind_of_ok (derefTxn_of_active hx hactive)]
  simp [call, hopen, hroom, setEnv]

theorem cursorRange_of_active {c dbi : Nat} {d : Lmdb.Dbi} (key : Bytes)
    (hc : s.cursors c = some ⟨i, dbi⟩) (hx : s.env.txns i = some x) (hactive : x.state = .active)
    (hd : x.handle dbi = some d)
    : (cursorRange c key).run s =
        .ok (((x.view.lookup d.name).getD []).dropWhile fun r => r.1 < key)
          { s with log := s.log ++ [.access true] } := by
  rw [cursorRange, bind_of_ok (EStateM.run_get s), hc]
  dsimp only
  rw [bind_of_ok (derefTxn_of_active hx hactive)]
  simp [hd]

theorem txn_eq_some {txn : Option Nat} {e : Lmdb.Env}
    (h : (txn.bind fun i => (e.txns i).map fun x => (i, x)) = some (i, x))
    : txn = some i ∧ e.txns i = some x := by
  obtain ⟨j, rfl, hj⟩ := Option.bind_eq_some_iff.mp h
  obtain ⟨y, hy, heq⟩ := Option.map_eq_some_iff.mp hj
  cases heq
  exact ⟨rfl, hy⟩

section

variable {P : Sys → Prop} {E : Stop → Sys → Prop}

theorem derefTt_spec (tt : Nat) (hE : ∀ s, P s → E .undefined s)
    : Spec P (derefTt tt) (fun t s => P s ∧ s.tts tt = some t) E := by
  refine spec_get fun s hs => ?_
  split
  . refine spec_throw _ ?_
    rintro _ rfl
    exact hE _ hs
  . next t ht =>
    refine spec_pure t ?_
    rintro _ rfl
    exact ⟨hs, ht⟩

theorem derefDb_spec (db : Option Nat) (hE : ∀ s, P s → E .undefined s)
    : Spec P (derefDb db) (fun o s => P s ∧ ∃ d, db = some d ∧ s.dbs[d]? = some o) E := by
  refine spec_get fun s hs => ?_
  split
  . refine spec_throw _ ?_
    rintro _ rfl
    exact hE _ hs
  . next o ho =>
    refine spec_pure o ?_
    rintro _ rfl
    exact ⟨hs, Option.bind_eq_some_iff.mp ho⟩

theorem derefTxn_spec (txn : Option Nat) (hlog : ∀ s c, P s → P { s with log := s.log ++ [c] })
    (hE : ∀ s, P s → E .undefined s)
    : Spec P (derefTxn txn) (fun r s =>
        P s ∧ txn = some r.1 ∧ s.env.txns r.1 = some r.2 ∧ r.2.state ≠ .ended) E := by
  refine spec_get fun s hs => ?_
  split
  . refine spec_bind (Q := fun _ => P) ?_ fun _ => spec_throw _ hE
    refine spec_modify _ ?_
    rintro _ rfl
    exact hlog _ _ hs
  . next i x hx =>
    obtain ⟨rfl, hy⟩ := txn_eq_some hx
    refine spec_bind (Q := fun _ s => P s ∧ s.env.txns i = some x) ?_ fun _ => ?_
    . refine spec_modify _ ?_
      rintro _ rfl
      exact ⟨hlog _ _ hs, hy⟩
    . split
      . exact spec_throw _ fun s hs => hE s hs.1
      . next hstate => exact spec_pure _ fun s hs => ⟨hs.1, rfl, hs.2, hstate⟩

theorem putRecord_spec {tt : Nat} {key val : Bytes} {flags : BitVec 32} {Q : Option Lmdb.Rc → Sys → Prop}
    (h : ∀ answer, Spec P (trashPut tt key val flags answer) Q E)
    : Spec P (putRecord tt key val flags) Q E :=
  spec_get fun _ hs => spec_weaken (h _) (by rintro _ rfl; exact hs) fun _ _ => id

end

section

open Function

variable {th : Nat} {u : Unit}

theorem derefDb_cases {db : Option Nat} {o : OpenDb} (h : (derefDb db).run s = .ok o s')
    : s' = s ∧ ∃ d, db = some d ∧ s.dbs[d]? = some o := by
  have hspec := derefDb_spec (P := (· = s)) (E := fun _ _ => True) db fun _ _ => trivial
  obtain ⟨rfl, hdb⟩ := (hspec s rfl).1 o s' h
  exact ⟨rfl, hdb⟩

theorem derefTxn_eq_ok {txn : Option Nat} {i : Nat} {x : Lmdb.Txn}
    (hrun : (derefTxn txn).run s = .ok (i, x) s')
    : txn = some i ∧ s.env.txns i = some x ∧ x.state ≠ .ended ∧ ∃ l, s' = { s with log := l } := by
  have hlog : ∀ s₁ c, (∃ l, s₁ = { s with log := l }) →
      ∃ l, { s₁ with log := s₁.log ++ [c] } = { s with log := l } := by
    rintro _ c ⟨l, rfl⟩
    exact ⟨_, rfl⟩
  have hspec := derefTxn_spec (E := fun _ _ => True) txn hlog fun _ _ => trivial
  obtain ⟨⟨l, rfl⟩, htxn, hx, hended⟩ := (hspec s ⟨s.log, rfl⟩).1 (i, x) s' hrun
  exact ⟨htxn, hx, hended, l, rfl⟩

theorem trashGet_cases {key : Bytes} {res : Except Lmdb.Rc Bytes} (hrun : (trashGet tt key).run s = .ok res s')
    : ∃ t d db i x l, s.tts tt = some t ∧ t.db = some d ∧ s.dbs[d]? = some db ∧ t.txn = some i ∧
        s.env.txns i = some x ∧ res = x.get db.id key ∧ s' = { s with log := l } := by
  obtain ⟨t, s₁, hderef, hrest⟩ := bind_eq_ok.mp hrun
  obtain ⟨ht, rfl⟩ := derefTt_eq_ok.mp hderef
  obtain ⟨db, s₂, hderef₁, hget⟩ := bind_eq_ok.mp hrest
  obtain ⟨rfl, d, hd, hdb⟩ := derefDb_cases hderef₁
  obtain ⟨⟨i, x⟩, s₃, hderef₂, hcall⟩ := bind_eq_ok.mp hget
  obtain ⟨hi, hx, -, l, rfl⟩ := derefTxn_eq_ok hderef₂
  cases hcall
  exact ⟨t, d, db, i, x, _, ht, hd, hdb, hi, hx, rfl, rfl⟩

theorem mdbPut_cases {txn : Option Nat} {dbi : Nat} {key val : Bytes} {flags : BitVec 32} {answer : Lmdb.Answer} {rc : Lmdb.Rc}
    (hrun : (mdbPut txn dbi key val flags answer).run s = .ok rc s')
    : ∃ i x x' l, txn = some i ∧ s.env.txns i = some x ∧ x.put dbi key val flags answer = (rc, x') ∧
        s' = { s with env := s.env.setTxn i x', log := l } := by
  obtain ⟨⟨i, x⟩, s₁, hderef, hset⟩ := bind_eq_ok.mp hrun
  obtain ⟨hi, hx, -, l, rfl⟩ := derefTxn_eq_ok hderef
  cases hput : x.put dbi key val flags answer with
  | mk rc' x' =>
    rw [call, bind_of_ok (EStateM.run_modify _ _), hput] at hset
    cases hset
    exact ⟨i, x, x', _, hi, hx, hput, rfl⟩

theorem trashPut_cases {key val : Bytes} {flags : BitVec 32} {answer : Lmdb.Answer} {r : Option Lmdb.Rc}
    (hrun : (trashPut tt key val flags answer).run s = .ok r s')
    : (r = none ∧ s' = s) ∨ ∃ t d db i x rc x' l, s.tts tt = some t ∧ t.rd = false ∧ t.db = some d ∧
        s.dbs[d]? = some db ∧ t.txn = some i ∧ s.env.txns i = some x ∧ x.put db.id key val flags answer = (rc, x') ∧
        r = some rc ∧ s' = {
          s with
          env := s.env.setTxn i x'
          tts := if rc = .success then update s.tts tt (some { t with commit := true }) else s.tts
          log := l
        } := by
  obtain ⟨t, s₁, hderef, hrest⟩ := bind_eq_ok.mp hrun
  obtain ⟨ht, rfl⟩ := derefTt_eq_ok.mp hderef
  split at hrest
  . cases hrest
    exact .inl ⟨rfl, rfl⟩
  . next hrd =>
    obtain ⟨db, s₂, hderef, hrest₁⟩ := bind_eq_ok.mp hrest
    obtain ⟨rfl, d, hd, hdb⟩ := derefDb_cases hderef
    obtain ⟨rc, s₃, hmdb, hwhen⟩ := bind_eq_ok.mp hrest₁
    obtain ⟨i, x, x', l, hi, hx, hput, rfl⟩ := mdbPut_cases hmdb
    obtain ⟨u, s₄, hmark, hpure⟩ := bind_eq_ok.mp hwhen
    cases hpure
    refine .inr ⟨t, d, db, i, x, rc, x', l, ht, by simpa using hrd, hd, hdb, hi, hx, hput, rfl, ?_⟩
    by_cases hrc : rc = .success
    . rw [if_pos hrc]
      subst hrc
      cases hmark
      rfl
    . rw [if_neg hrc]
      rw [beq_eq_false_iff_ne.mpr hrc] at hmark
      cases hmark
      rfl

theorem putRecord_run (s : Sys) (tt : Nat) (key val : Bytes) (flags : BitVec 32)
    : (putRecord tt key val flags).run s = (trashPut tt key val flags (s.env.limits.answer s.log.length)).run s := rfl

theorem mdbDbiOpen_cases {txn : Option Nat} {name : Bytes} {flags : BitVec 32} {id : Nat}
    (hrun : (mdbDbiOpen txn name flags).run s = .ok (.ok id) s')
    : ∃ i x x' l, txn = some i ∧ s.env.txns i = some x ∧ x.dbiOpen name flags s.env.nextDbi = .ok (id, x') ∧
        s' = { s with env := { s.env.setTxn i x' with nextDbi := s.env.nextDbi + 1 }, log := l } := by
  obtain ⟨⟨i, x⟩, s₁, hderef, hrest⟩ := bind_eq_ok.mp hrun
  obtain ⟨hi, hx, -, l, rfl⟩ := derefTxn_eq_ok hderef
  rw [call, bind_of_ok (EStateM.run_modify _ _), bind_of_ok (EStateM.run_get _)] at hrest
  split at hrest
  . cases hrest
  . next x' hopen =>
    split at hrest
    . cases hrest
    . cases hrest
      exact ⟨i, x, x', _, hi, hx, hopen, rfl⟩

theorem mdbDbiOpen_error {txn : Option Nat} {name : Bytes} {flags : BitVec 32} {rc : Lmdb.Rc}
    (hrun : (mdbDbiOpen txn name flags).run s = .ok (.error rc) s')
    : ∃ l, s' = { s with log := l } := by
  obtain ⟨⟨i, x⟩, s₁, hderef, hset⟩ := bind_eq_ok.mp hrun
  obtain ⟨hi, hx, -, l, rfl⟩ := derefTxn_eq_ok hderef
  rw [call, bind_of_ok (EStateM.run_modify _ _), bind_of_ok (EStateM.run_get _)] at hset
  split at hset
  . cases hset
    exact ⟨_, rfl⟩
  . split at hset
    . cases hset
      exact ⟨_, rfl⟩
    . cases hset

theorem releaseDb_cases (h : (releaseDb tt t).run s = .ok u s')
    : (∃ d db, t.db = some d ∧ s.dbs[d]? = some db) ∧
        s' = {
          s with
          dbs := s.dbs.modify (t.db.getD 0) fun db => { db with count := Word.sub32 db.count 1 }
          tts := if t.wr then update s.tts tt none else s.tts
        } := by
  obtain ⟨db, s₁, hderef, hrest⟩ := bind_eq_ok.mp h
  cases hrest
  obtain ⟨rfl, d, hd, hdb⟩ := derefDb_cases hderef
  exact ⟨⟨d, db, hd, hdb⟩, rfl⟩

theorem releaseDb_of_some {d : Nat} {db : OpenDb} (hd : t.db = some d) (hdb : s.dbs[d]? = some db)
    : (releaseDb tt t).run s = .ok () {
        s with
        dbs := s.dbs.modify d fun db => { db with count := Word.sub32 db.count 1 }
        tts := if t.wr then update s.tts tt none else s.tts
      } := by
  simp [releaseDb, derefDb, hd, hdb]

theorem endTxn_write (ht : s.tts tt = some t) (hrd : t.rd = false) (hwr : t.wr = true)
    (hi : t.txn = some i) (hx : s.env.txns i = some x) (hactive : x.state = .active)
    : (endTxn tt).run s =
        if t.commit then
          if (s.env.commit i x).1 = .success then
            .ok { t with commit := false } {
              s with
              env := (s.env.commit i x).2
              tts := update s.tts tt (some { t with commit := false })
              log := s.log ++ [.access true]
            }
          else
            .error (.assertFailed .txnCommit) { s with env := (s.env.commit i x).2, log := s.log ++ [.access true] }
        else
          .ok t { s with env := s.env.finish i x .ended } := by
  rw [endTxn, bind_of_ok (derefTt_of_some ht), hi]
  split
  . rw [bind_of_ok (mdbTxnCommit_of_active hx hactive)]
    split
    . next hrc =>
      rw [hrc]
      rfl
    . next hrc =>
      rw [(by simpa using hrc : ((s.env.commit i x).1 == Lmdb.Rc.success) = false)]
      rfl
  . rw [hwr, hrd, when_true, when_false, bind_of_ok (mdbTxnAbort_of_some hx)]
    rfl

theorem returnTxn_write (ht : s.tts tt = some t) (hrd : t.rd = false) (hwr : t.wr = true)
    (hi : t.txn = some i) (hx : s.env.txns i = some x) (hactive : x.state = .active)
    (hrun : (returnTxn th tt).run s = .ok u s')
    : ∃ e l, ((t.commit = true ∧ (s.env.commit i x).1 = .success ∧ e = (s.env.commit i x).2) ∨
          (t.commit = false ∧ e = s.env.finish i x .ended)) ∧
        (∃ d db, t.db = some d ∧ s.dbs[d]? = some db) ∧
        s' = {
          s with
          env := e
          dbs := s.dbs.modify (t.db.getD 0) fun db => { db with count := Word.sub32 db.count 1 }
          tts := update s.tts tt none
          out := s.out.filter (· != (th, tt))
          log := l
        } := by
  obtain ⟨t', s₁, hend, hrest⟩ := bind_eq_ok.mp hrun
  rw [endTxn_write ht hrd hwr hi hx hactive] at hend
  have htail : ∀ {t' : TrashTxn} {s₁ : Sys},
      (if t'.rd && t'.dontFin then setTt tt { t' with dontFin := false } else do
        giveBack th tt
        when t'.rd (returnToPool th tt t')
        releaseDb tt t' : M Unit).run s₁ = .ok u s' →
      t'.rd = false → t'.wr = true → t'.db = t.db → s₁.dbs = s.dbs →
      (∃ d db, t.db = some d ∧ s.dbs[d]? = some db) ∧ s' = {
          s₁ with
          dbs := s.dbs.modify (t.db.getD 0) fun db => { db with count := Word.sub32 db.count 1 }
          tts := update s₁.tts tt none
          out := s₁.out.filter (· != (th, tt)) } := by
    intro t' s₁ hrest hrd' hwr' hdb' hdbs'
    rw [hrd', Bool.false_and, if_neg (by simp), giveBack, bind_of_ok (EStateM.run_modify _ _), when_false,
      bind_of_ok (EStateM.run_pure _ _)] at hrest
    obtain ⟨hdb, heq⟩ := releaseDb_cases hrest
    rw [hwr', if_pos rfl, hdb'] at heq
    dsimp only at hdb heq
    rw [hdb', hdbs'] at hdb
    rw [hdbs'] at heq
    exact ⟨hdb, heq⟩
  split at hend
  . next hcommit =>
    split at hend
    . next hrc =>
      cases hend
      obtain ⟨hdb, heq⟩ := htail hrest hrd hwr rfl rfl
      refine ⟨_, s.log ++ [.access true], .inl ⟨hcommit, hrc, rfl⟩, hdb, heq.trans ?_⟩
      simp
    . cases hend
  . next hcommit =>
    cases hend
    obtain ⟨hdb, heq⟩ := htail hrest hrd hwr rfl rfl
    exact ⟨_, _, .inr ⟨by simpa using hcommit, rfl⟩, hdb, heq⟩

end

end Db
