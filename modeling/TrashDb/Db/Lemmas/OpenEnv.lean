import TrashDb.Db.Lemmas.Handles
import TrashDb.Db.Lemmas.Similar

/-!
This module contains the state that `open_env` leaves: the metadata database is the first one in the registry
and no transaction is active.
-/

namespace Db

open Prog Function

structure Booting (th : Nat) (s : Sys) : Prop where
  slots : ∀ th, s.env.slots th = none
  pool : ∀ th, s.rdrPool th = none
  capacity : s.capacity = 1
  idle : ∀ th, s.pc th = .idle
  out : s.out = [(th, 0)]
  owns : Owns false th 0 0 .active s
  only : ∀ i, i ≠ 0 → s.env.txns i = none

def Headed (s : Sys) : Prop := ∃ db, s.dbs[0]? = some db ∧ db.name = metadata

structure OpenEnv (s : Sys) : Prop where
  slots : ∀ th, s.env.slots th = none
  pool : ∀ th, s.rdrPool th = none
  capacity : s.capacity = 1
  idle : ∀ th, s.pc th = .idle
  out : s.out = []
  ended : ∀ i x, s.env.txns i = some x → x.state ≠ .active
  listed : Listed s
  head : Headed s

namespace Booting

variable {s : Sys} {th : Nat}

theorem similar {s' : Sys} (h : Booting th s) (hs : Similar s s') : Booting th s' := by
  constructor
  . rw [hs.slots]
    exact h.slots
  . rw [hs.rdrPool]
    exact h.pool
  . rw [hs.capacity]
    exact h.capacity
  . rw [hs.pc]
    exact h.idle
  . rw [hs.out]
    exact h.out
  . exact Owns.robust s s' h.owns hs
  . intro i hi
    have hrole := hs.txns i
    rw [h.only i hi] at hrole
    simpa using hrole

theorem begin (th : Nat) (limits : Lmdb.Limits) (data : Lmdb.Data)
    : Returns (· = .initWith limits data) (beginTxn th metadata false) (fun r s =>
        (Booting th s ∧ s.dbs = []) ∧ r = (.dbDne, 0)) := by
  have hbegin : (beginTxn th metadata false).run (.initWith limits data) = .ok (.dbDne, 0) {
      Sys.initWith limits data with
      env := {
        (Sys.initWith limits data).env with
        nextTxn := 1
        writer := some 0
        txns := update (fun _ => none) 0 (some ((Sys.initWith limits data).env.newTxn th false))
      }
      tts := update (fun _ => none) 0 (some ⟨some 0, false, true, false, false, none⟩)
      nextTt := 1
      out := [(th, 0)]
      log := [.txnBegin false false]
    } := rfl
  refine spec_of_run ?_
  rintro _ rfl
  refine ⟨_, _, hbegin, ⟨⟨fun _ => rfl, fun _ => rfl, rfl, fun _ => rfl, rfl, ?_, ?_⟩, rfl⟩, rfl⟩
  . exact ⟨⟨_, rfl, rfl⟩, ⟨_, rfl, rfl⟩, Nat.zero_lt_one, Nat.zero_lt_one⟩
  . intro i hi
    dsimp only
    exact update_of_ne hi _ _

end Booting

def Scanning (th : Nat) (s : Sys) : Prop := Booting th s ∧ Headed s

namespace Scanning

variable {s : Sys} {th : Nat}

theorem alike {s' : Sys} (h : Scanning th s) (hs : Alike s s') : Scanning th s' := by
  refine ⟨h.1.similar (.of_alike hs), ?_⟩
  obtain ⟨db, hdb, hname⟩ := h.2
  have hget : (s'.dbs[0]?).map (fun db => (db.name, db.id)) = some (db.name, db.id) := by
    rw [← List.getElem?_map, hs.dbs, List.getElem?_map, hdb, Option.map_some]
  obtain ⟨db', hdb', heq⟩ := Option.map_eq_some_iff.mp hget
  simp only [Prod.mk.injEq] at heq
  exact ⟨db', hdb', heq.1.trans hname⟩

theorem of_alike {α : Type} {m : M α} (h : Extends Alike m) : Returns (Scanning th) m (fun _ => Scanning th) :=
  returns_of_extends h fun _ _ => alike

theorem openRecords (after : Bytes → Bytes) (records : Lmdb.Contents)
    : ∀ dbMeta, Returns (Scanning th) (openRecords 0 after dbMeta records) (fun _ => Scanning th) := by
  induction records with
  | nil => exact fun _ => spec_pure _ fun _ => id
  | cons r records ih =>
    intro dbMeta
    unfold Db.openRecords
    split
    . split
      . exact spec_throw _ fun _ _ => trivial
      . refine spec_bind (of_alike (Alike.derefTt 0)) fun t => ?_
        refine spec_bind (Q := fun _ => Scanning th) ?_ fun res => ?_
        . apply returns_iff.mpr
          intro s res s' hs hrun
          have hboot := (Robust.mdbDbiOpen (fun _ _ => Booting.similar) t.txn _ _).of_run hs.1 hrun
          obtain ⟨e, l, c, n, rfl⟩ := (LmdbFrame.mdbDbiOpen (R := LmdbOnly) t.txn _ _).of_run hrun
          exact ⟨hboot, hs.2⟩
        split
        . exact spec_throw _ fun _ _ => trivial
        . refine spec_bind (Q := fun _ => Scanning th) ?_ fun _ => ih _
          apply returns_iff.mpr
          rintro s _ s' ⟨hboot, db, hdb, hname⟩ hrun
          cases hrun
          refine ⟨⟨hboot.slots, hboot.pool, hboot.capacity, hboot.idle, hboot.out, ?_, hboot.only⟩, db, ?_, hname⟩
          . exact ⟨hboot.owns.core, hboot.owns.role, hboot.owns.ttLt, hboot.owns.txnLt⟩
          . rw [List.getElem?_append_left (List.getElem?_eq_some_iff.mp hdb).1]
            exact hdb
    . exact spec_pure _ fun _ => id

theorem returnTxn
    : Returns (Scanning th) (returnTxn th 0) (fun _ s =>
        (∀ th, s.env.slots th = none) ∧ (∀ th, s.rdrPool th = none) ∧ s.capacity = 1 ∧
        (∀ th, s.pc th = .idle) ∧ s.out = [] ∧ (∀ i x, s.env.txns i = some x → x.state ≠ .active) ∧
        Headed s) := by
  apply returns_iff.mpr
  intro s u s' ⟨hboot, hhead⟩ hrun
  obtain ⟨t, ht, hcore⟩ := hboot.owns.core
  obtain ⟨x, hx, hrole⟩ := hboot.owns.role
  simp only [TrashTxn.core, Prod.mk.injEq] at hcore
  simp only [Lmdb.Txn.role, Prod.mk.injEq] at hrole
  obtain ⟨hi, hrd, hwr, _, _⟩ := hcore
  obtain ⟨hrdonly, _, hactive⟩ := hrole
  obtain ⟨e, l, hend, _, rfl⟩ := returnTxn_write ht hrd hwr hi hx hactive hrun
  -- both ways to end it leave no active transaction
  have henv : e.slots = s.env.slots ∧
      e.txns = update s.env.txns 0 (some { x with state := .ended, opened := [] }) := by
    rcases hend with ⟨_, _, rfl⟩ | ⟨_, rfl⟩
    . exact ⟨by rw [Lmdb.Env.commit_slots hactive, hrdonly]; rfl, Lmdb.Env.commit_txns _ _ _⟩
    . exact ⟨by rw [Lmdb.Env.finish_slots _ hactive, hrdonly]; rfl, Lmdb.Env.finish_txns _ _ _ _⟩
  refine ⟨?_, hboot.pool, hboot.capacity, hboot.idle, ?_, ?_, ?_⟩
  . dsimp only
    rw [henv.1]
    exact hboot.slots
  . simp [hboot.out]
  . intro i y hy
    dsimp only at hy
    rw [henv.2, update_apply] at hy
    split at hy
    . cases hy
      simp
    . next hne =>
      rw [hboot.only i hne] at hy
      cases hy
  . exact (alike ⟨hboot, hhead⟩ (Alike.setCount s (t.db.getD 0) fun db => Word.sub32 db.count 1)).2

end Scanning

theorem openEnv_of_step {limits : Lmdb.Limits} {data : Lmdb.Data} {th : Nat} {after : Bytes → Bytes} {s : Sys}
    (h : (Sys.initWith limits data).step (.initMetadata th after) = some s)
    : OpenEnv s := by
  have hclose : Lts.Along Sys.step ClosesNone (.initWith limits data) [.initMetadata th after] :=
    ⟨trivial, fun _ _ => trivial⟩
  have hlisted := Listed.of_run hclose (by rw [Lts.run_cons, h]; rfl)
  have hspec : Returns (· = .initWith limits data) (exec (.initMetadata th after)) (fun _ s =>
      (∀ th, s.env.slots th = none) ∧ (∀ th, s.rdrPool th = none) ∧ s.capacity = 1 ∧
      (∀ th, s.pc th = .idle) ∧ s.out = [] ∧ (∀ i x, s.env.txns i = some x → x.state ≠ .active) ∧
      Headed s) := by
    refine spec_bind (Q := fun _ s => s = .initWith limits data) (spec_of_run ?_) fun _ => ?_
    . rintro _ rfl
      exact ⟨(), _, rfl, rfl⟩
    refine spec_bind ?_ fun _ => spec_pure _ fun _ => id
    refine spec_bind (Booting.begin th limits data) fun ⟨rc, tt⟩ => spec_assume fun heq => ?_
    cases heq
    refine spec_bind (Q := fun t s => (Booting th s ∧ s.dbs = []) ∧ t.core = (some 0, false, true, false, false)) ?_
      fun t => spec_assume fun hcore => ?_
    . refine spec_weaken (derefTt_spec 0 fun _ _ => trivial) (fun _ => id) ?_
      exact fun t s ⟨hs, ht⟩ => ⟨hs, hs.1.owns.core_eq ht⟩
    refine spec_bind (Q := fun _ s => Booting th s ∧ s.dbs = []) ?_ fun res => ?_
    . apply returns_iff.mpr
      intro s res s' hs hrun
      have hboot := (Robust.mdbDbiOpen (fun _ _ => Booting.similar) t.txn _ _).of_run hs.1 hrun
      obtain ⟨e, l, c, n, rfl⟩ := (LmdbFrame.mdbDbiOpen (R := LmdbOnly) t.txn _ _).of_run hrun
      exact ⟨hboot, hs.2⟩
    split
    . exact spec_throw _ fun _ _ => trivial
    . next dbi =>
      refine spec_bind (Q := fun _ => Scanning th) ?_ fun db => ?_
      . apply returns_iff.mpr
        intro s _ s' ⟨hboot, hdbs⟩ hrun
        cases hrun
        refine ⟨⟨hboot.slots, hboot.pool, hboot.capacity, hboot.idle, hboot.out, ?_, hboot.only⟩, ?_⟩
        . exact ⟨hboot.owns.core, hboot.owns.role, hboot.owns.ttLt, hboot.owns.txnLt⟩
        . rw [Headed, hdbs]
          exact ⟨_, rfl, rfl⟩
      refine spec_bind (Q := fun _ => Scanning th) (spec_modify _ fun s hs => ?_) fun _ => ?_
      . refine ⟨hs.1.similar (.setTt ?_), hs.2⟩
        obtain ⟨t', ht', hcore'⟩ := hs.1.owns.core
        rw [ht', Option.map_some, hcore']
        simp only [TrashTxn.core, Prod.mk.injEq] at hcore
        simp [TrashTxn.core, hcore]
      refine spec_bind (Scanning.of_alike (Alike.putRecord _ _ _ _)) fun rc => ?_
      refine spec_bind (Scanning.of_alike (extends_ensure _ _)) fun _ => ?_
      refine spec_bind (Scanning.of_alike (Alike.createCursor th 0)) fun curr => ?_
      refine spec_bind (Scanning.of_alike (Alike.cursorRange _ _)) fun records => ?_
      refine spec_bind (Scanning.openRecords after records _) fun _ => ?_
      refine spec_bind (Scanning.of_alike (Alike.returnCursor _)) fun _ => ?_
      exact Scanning.returnTxn
  obtain ⟨r, hexec⟩ := exec_of_step h
  obtain ⟨hslots, hpool, hcapacity, hidle, hout, hended, hhead⟩ := hspec.of_run rfl hexec
  exact ⟨hslots, hpool, hcapacity, hidle, hout, hended, hlisted, hhead⟩

end Db
