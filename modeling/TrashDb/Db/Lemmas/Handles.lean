import TrashDb.Lib.Lts
import TrashDb.Db.Lemmas.Alike
import TrashDb.Db.Lemmas.Env
import TrashDb.Db.Lemmas.Frame

/-!
This module contains when the handle of a database that is found in the registry can be used. A handle in
the registry is public or private to a transaction that is still active, as long as no transaction that has
opened one is aborted or reset.
-/

namespace Db

open Prog Function

def Pc.handle : Pc → Option Lmdb.Dbi
  | .commit _ _ dbname id _ | .renew _ dbname id _ | .publish _ dbname id _ => some ⟨id, dbname⟩
  | .idle | .begin _ _ _ => none

/--
All handles of the registry are open, and those that will get there.
-/
structure Listed (s : Sys) : Prop where
  env : s.env.WellFormed
  dbs : ∀ db ∈ s.dbs, s.env.Open ⟨db.id, db.name⟩
  pc : ∀ th h, (s.pc th).handle = some h → s.env.Open h

structure Calm (s s' : Sys) : Prop where
  env : s.env.Keeps s'.env
  dbs : s'.dbs.map (fun db => (db.name, db.id)) = s.dbs.map (fun db => (db.name, db.id))
  pc : s'.pc = s.pc

namespace Calm

variable {s s' : Sys} (th tt : Nat)

instance : Std.Refl Calm := ⟨fun s => ⟨.refl s.env, rfl, rfl⟩⟩

instance : IsTrans Sys Calm :=
  ⟨fun _ _ _ h h' => ⟨h.env.trans h'.env, h'.dbs.trans h.dbs, h'.pc.trans h.pc⟩⟩

theorem ofEnv {e : Lmdb.Env} (h : s.env.Keeps e) : Calm s { s with env := e } := ⟨h, rfl, rfl⟩

theorem of_alike (h : Alike s s') : Calm s s' := by
  refine ⟨?_, h.dbs, h.pc⟩
  intro hwf
  refine ⟨⟨?_, ?_⟩, ?_⟩
  . intro i hi
    rw [h.nextTxn] at hi
    have hmap := h.txns i
    rw [hwf.fresh i hi] at hmap
    simpa using hmap
  . intro i x' hx'
    obtain ⟨x, hx, hcore⟩ := h.txn_of_some hx'
    simp only [Lmdb.Txn.core, Prod.mk.injEq] at hcore
    rw [h.dbis, ← hcore.2.2.2.1]
    exact hwf.dbis i x hx
  . rintro d (hd | ⟨i, x, hx, hactive, hd⟩)
    . exact .inl (h.dbis ▸ hd)
    . have hmap := h.txns i
      rw [hx, Option.map_some] at hmap
      obtain ⟨x', hx', hcore⟩ := Option.map_eq_some_iff.mp hmap
      simp only [Lmdb.Txn.core, Prod.mk.injEq] at hcore
      refine .inr ⟨i, x', hx', ?_, ?_⟩
      . rw [hcore.2.2.1, hactive]
      . rw [hcore.2.2.2.2]
        exact hd

theorem extends_of_alike {α : Type} {m : M α} (h : Extends Alike m) : Extends Calm m :=
  fun s => of_alike (h s)

theorem setTt (t : TrashTxn) : Extends Calm (setTt tt t) := fun s => ⟨.refl s.env, rfl, rfl⟩

end Calm

namespace Listed

variable {s s' : Sys}

theorem calm (h : Listed s) (hs : Calm s s') : Listed s' := by
  obtain ⟨hwf, hopen⟩ := hs.env h.env
  refine ⟨hwf, ?_, ?_⟩
  . intro db' hdb'
    have hmem : (db'.name, db'.id) ∈ s.dbs.map fun db => (db.name, db.id) := by
      rw [← hs.dbs]
      exact List.mem_map_of_mem hdb'
    obtain ⟨db, hdb, heq⟩ := List.mem_map.mp hmem
    simp only [Prod.mk.injEq] at heq
    rw [← heq.1, ← heq.2]
    exact hopen _ (h.dbs db hdb)
  . intro th d hd
    rw [hs.pc] at hd
    exact hopen d (h.pc th d hd)

theorem addDb {db : OpenDb} (h : Listed s) (hdb : s.env.Open ⟨db.id, db.name⟩)
    : Listed { s with dbs := s.dbs ++ [db] } := by
  refine ⟨h.env, ?_, h.pc⟩
  intro db' hdb'
  rcases List.mem_append.mp hdb' with hmem | hmem
  . exact h.dbs db' hmem
  . rw [List.mem_singleton.mp hmem]
    exact hdb

theorem setPc {th : Nat} {pc : Pc} (h : Listed s) (hpc : ∀ d, pc.handle = some d → s.env.Open d)
    : Listed { s with pc := update s.pc th pc } := by
  refine ⟨h.env, h.dbs, ?_⟩
  intro th' d hd
  dsimp only at hd
  rw [update_apply] at hd
  split at hd
  . exact hpc d hd
  . exact h.pc th' d hd

end Listed

def Emptied (s : Sys) (txn : Option Nat) : Prop :=
  ∀ i x, txn = some i → s.env.txns i = some x → x.opened = []

def Lossless (s : Sys) (tt : Nat) : Prop :=
  ∀ t i x, s.tts tt = some t → t.txn = some i → s.env.txns i = some x → t.commit = true ∨ x.opened = []

namespace Calm

variable (tt : Nat) (txn : Option Nat)

theorem releaseDb (t : TrashTxn) : Extends Calm (releaseDb tt t) := by
  refine extends_bind (extends_of_alike (Alike.derefDb _)) fun _ s => ?_
  exact ⟨.refl s.env, (Alike.setCount s _ _).dbs, rfl⟩

theorem internalCreateTrashTxn (rd : Bool) : Extends Calm (internalCreateTrashTxn txn rd) :=
  fun s => ⟨.refl s.env, rfl, rfl⟩

end Calm

namespace Listed

variable {s : Sys} (th tt : Nat) (txn : Option Nat)

theorem of_calm {α : Type} {m : M α} (h : Extends Calm m) : Returns Listed m (fun _ => Listed) :=
  returns_of_extends h fun _ _ => Listed.calm

theorem open_of_calm {α : Type} {m : M α} {d : Lmdb.Dbi} (h : Extends Calm m)
    : Returns (fun s => Listed s ∧ s.env.Open d) m (fun _ s => Listed s ∧ s.env.Open d) := by
  refine returns_of_extends h ?_
  rintro s s' ⟨hs, hd⟩ hcalm
  exact ⟨hs.calm hcalm, (hcalm.env hs.env).2 d hd⟩

theorem call (hs : Listed s) (c : Call)
    : Returns (· = s) (call c) (fun _ s' => Listed s' ∧ s'.env = s.env) := by
  refine spec_modify _ ?_
  rintro _ rfl
  exact ⟨hs.calm ⟨.refl _, rfl, rfl⟩, rfl⟩

theorem setEnv {e : Lmdb.Env} {i : Nat} (hbegins : s.env.Begins i e)
    : Returns (fun s' => Listed s' ∧ s'.env = s.env) (setEnv e) (fun _ s' => Listed s' ∧ s'.env = e) := by
  refine spec_modify _ ?_
  rintro s' ⟨hs', heq⟩
  refine ⟨hs'.calm (.ofEnv ?_), rfl⟩
  rw [heq]
  exact hbegins.keeps

theorem mdbTxnBegin (hs : Listed s) (rdonly : Bool)
    : Returns (· = s) (mdbTxnBegin th rdonly) (fun r s' =>
        Listed s' ∧ ∀ i, r = some i → s.env.Begins i s'.env) := by
  have hpure : ∀ i e, s.env.Begins i e → Returns (fun s' => Listed s' ∧ s'.env = e) (pure (some i) : M _)
      (fun r s' => Listed s' ∧ ∀ i, r = some i → s.env.Begins i s'.env) := by
    intro i e hbegins
    refine spec_pure _ ?_
    rintro s' ⟨hs', rfl⟩
    refine ⟨hs', ?_⟩
    rintro j hj
    cases hj
    exact hbegins
  refine spec_get ?_
  rintro s rfl
  split
  . refine spec_bind (call hs _) fun _ => ?_
    split
    . exact spec_pure _ fun s' hs' => ⟨hs'.1, nofun⟩
    . next i e he =>
      have hbegins := Lmdb.Env.beginRead_begins hs.env he
      exact spec_bind (setEnv hbegins) fun _ => hpure i e hbegins
  . split
    . exact spec_throw _ fun _ _ => trivial
    . next i e he =>
      have hbegins := Lmdb.Env.beginWrite_begins hs.env he
      refine spec_bind (call hs _) fun _ => ?_
      exact spec_bind (setEnv hbegins) fun _ => hpure i e hbegins

theorem mdbTxnRenew (hs : Listed s)
    : Returns (· = s) (mdbTxnRenew th txn) (fun rc s' =>
        Listed s' ∧ (rc = .success → ∃ i, txn = some i ∧ s.env.Begins i s'.env)) := by
  refine spec_get ?_
  rintro s rfl
  split
  . refine spec_bind (call hs _) fun _ => ?_
    exact spec_throw _ fun _ _ => trivial
  . next i x htxn =>
    obtain ⟨rfl, hx⟩ := txn_eq_some htxn
    refine spec_bind (call hs _) fun _ => ?_
    dsimp only
    rcases Lmdb.Env.renew_begins th hs.env hx with ⟨hrc, hbegins⟩ | ⟨hrc, heq⟩
    . refine spec_bind (setEnv hbegins) fun _ => spec_pure _ ?_
      rintro s' ⟨hs', henv⟩
      exact ⟨hs', fun _ => ⟨i, rfl, henv ▸ hbegins⟩⟩
    . refine spec_bind (Q := fun _ => Listed) (spec_modify _ ?_) fun _ => spec_pure _ ?_
      . rintro s' ⟨hs', henv⟩
        refine hs'.calm (.ofEnv ?_)
        rw [heq, henv]
        exact .refl _
      . exact fun s' hs' => ⟨hs', fun h => absurd h hrc⟩

theorem mdbTxnCommit
    : Returns Listed (mdbTxnCommit txn) (fun rc s => rc = .success → Listed s ∧ Emptied s txn) := by
  refine spec_bind (derefTxn_spec txn (fun s c hs => hs.calm ⟨.refl _, rfl, rfl⟩) fun _ _ => trivial) ?_
  rintro ⟨i, x⟩
  refine spec_get ?_
  rintro s ⟨hs, rfl, hx, _⟩
  dsimp only
  refine spec_bind (Q := fun _ s' => (s.env.commit i x).1 = .success → Listed s' ∧ Emptied s' (some i)) ?_
    fun _ => spec_pure _ fun _ => id
  refine spec_modify _ ?_
  rintro _ rfl hrc
  refine ⟨hs.calm (.ofEnv (Lmdb.Env.commit_keeps hx hrc)), ?_⟩
  intro j y hj hy
  cases hj
  dsimp only at hy
  rw [Lmdb.Env.commit_txns, update_self] at hy
  cases hy
  rfl

theorem finish {i : Nat} {x : Lmdb.Txn} (st : Lmdb.TxnState) (hs : Listed s) (hx : s.env.txns i = some x)
    (hempty : Emptied s (some i))
    : Listed { s with env := s.env.finish i x st } ∧
        Emptied { s with env := s.env.finish i x st } (some i) := by
  refine ⟨hs.calm (.ofEnv (Lmdb.Env.finish_keeps st hx (hempty i x rfl hx))), ?_⟩
  intro j y hj hy
  cases hj
  dsimp only at hy
  rw [Lmdb.Env.finish_txns, update_self] at hy
  cases hy
  rfl

theorem mdbTxnReset
    : Returns (fun s => Listed s ∧ Emptied s txn) (mdbTxnReset txn)
        (fun _ s => Listed s ∧ Emptied s txn) := by
  refine spec_bind (derefTxn_spec txn ?_ fun _ _ => trivial) fun ⟨i, x⟩ => ?_
  . exact fun s c ⟨hs, hempty⟩ => ⟨hs.calm ⟨.refl _, rfl, rfl⟩, hempty⟩
  . refine spec_modify _ ?_
    rintro s ⟨⟨hs, hempty⟩, rfl, hx, _⟩
    exact hs.finish .reset hx hempty

theorem mdbTxnAbort
    : Returns (fun s => Listed s ∧ Emptied s txn) (mdbTxnAbort txn)
        (fun _ s => Listed s ∧ Emptied s txn) := by
  refine spec_get fun s ⟨hs, hempty⟩ => ?_
  split
  . exact spec_throw _ fun _ _ => trivial
  . next i x htxn =>
    obtain ⟨rfl, hx⟩ := txn_eq_some htxn
    refine spec_modify _ ?_
    rintro _ rfl
    exact hs.finish .ended hx hempty

theorem endTxn
    : Returns (fun s => Listed s ∧ Lossless s tt) (endTxn tt) (fun t s =>
        Listed s ∧ (t.rd = true → Emptied s t.txn)) := by
  refine spec_bind (derefTt_spec tt fun _ _ => trivial) fun t => ?_
  split
  . refine spec_bind (Q := fun rc s => rc = .success → Listed s ∧ Emptied s t.txn) ?_ fun rc => ?_
    . exact spec_weaken (mdbTxnCommit t.txn) (fun _ hs => hs.1.1) fun _ _ => id
    refine spec_bind (Q := fun _ s => Listed s ∧ Emptied s t.txn) ?_ fun _ => ?_
    . exact spec_ensure _ _ (fun s hs hrc => hs (by simpa using hrc)) fun _ _ _ => trivial
    dsimp only
    refine spec_bind (Q := fun _ s => Listed s ∧ Emptied s t.txn) (spec_modify _ ?_) fun _ => ?_
    . exact fun s ⟨hs, hempty⟩ => ⟨hs.calm ⟨.refl _, rfl, rfl⟩, hempty⟩
    . exact spec_pure _ fun s ⟨hs, hempty⟩ => ⟨hs, fun _ => hempty⟩
  . next hcommit =>
    refine spec_bind (Q := fun _ s => Listed s ∧ Emptied s t.txn) ?_ fun _ => ?_
    . refine spec_weaken (A := fun s => Listed s ∧ Emptied s t.txn) ?_ ?_ fun _ _ => id
      . exact spec_when (fun _ => mdbTxnAbort t.txn) fun _ _ => id
      . rintro s ⟨⟨hs, hloss⟩, ht⟩
        refine ⟨hs, fun i x hi hx => ?_⟩
        exact (hloss t i x ht hi hx).resolve_left hcommit
    . refine spec_bind (Q := fun _ s => Listed s ∧ Emptied s t.txn) ?_ fun _ => ?_
      . exact spec_when (fun _ => mdbTxnReset t.txn) fun _ _ => id
      . exact spec_pure _ fun s ⟨hs, hempty⟩ => ⟨hs, fun _ => hempty⟩

theorem returnToPool (t : TrashTxn)
    : Returns (fun s => Listed s ∧ Emptied s t.txn) (returnToPool th tt t) (fun _ => Listed) := by
  refine spec_get fun s ⟨hs, hempty⟩ => ?_
  split
  . exact spec_throw _ fun _ _ => trivial
  . split
    . exact spec_set fun _ _ => hs.calm ⟨.refl _, rfl, rfl⟩
    . refine spec_weaken (mdbTxnAbort t.txn) ?_ fun _ _ => And.left
      rintro _ rfl
      exact ⟨hs, hempty⟩

theorem returnTxn
    : Returns (fun s => Listed s ∧ Lossless s tt) (returnTxn th tt) (fun _ => Listed) := by
  refine spec_bind (endTxn tt) fun t => ?_
  split
  . exact spec_modify _ fun s hs => hs.1.calm ⟨.refl _, rfl, rfl⟩
  . refine spec_bind (Q := fun _ s => Listed s ∧ (t.rd = true → Emptied s t.txn)) (spec_modify _ ?_) fun _ => ?_
    . exact fun s ⟨hs, hempty⟩ => ⟨hs.calm ⟨.refl _, rfl, rfl⟩, hempty⟩
    refine spec_bind (Q := fun _ => Listed) ?_ fun _ => of_calm (Calm.releaseDb tt t)
    refine spec_when (fun hrd => ?_) fun s _ => And.left
    exact spec_weaken (returnToPool th tt t) (fun s hs => ⟨hs.1, hs.2 hrd⟩) fun _ _ => id

end Listed

def Sees (s : Sys) (tt : Nat) (dbname : Bytes) : Prop :=
  ∀ t i x, s.tts tt = some t → t.txn = some i → s.env.txns i = some x →
    ∀ d, s.env.Open d → d.name = dbname → d ∈ x.known

/--
The handle of the database that a transaction is set to was opened in it, or in a transaction that had been
committed when it began.
-/
def HandleKnown (s : Sys) (tt : Nat) : Prop :=
  ∀ t d db i x, s.tts tt = some t → t.db = some d → s.dbs[d]? = some db → t.txn = some i →
    s.env.txns i = some x → ⟨db.id, db.name⟩ ∈ x.known

namespace Listed

variable {s : Sys} {p : Prop} (th tt : Nat) (dbname : Bytes)

theorem handleKnown {t : TrashTxn} (hs : Listed s) (hsees : Sees s tt dbname) (ht : s.tts tt = some t)
    (hdb : dbMatch (t.db.bind (s.dbs[·]?)) dbname = true)
    : HandleKnown s tt := by
  intro t' d db i x ht' hd hdb' hi hx
  rw [ht] at ht'
  cases ht'
  have hname : db.name = dbname := by simpa [hd, hdb', dbMatch] using hdb
  exact hsees t i x ht hi hx _ (hs.dbs db (List.mem_of_getElem? hdb')) hname

theorem changeTxnDb
    : Returns (fun s => Listed s ∧ (p → Sees s tt dbname)) (changeTxnDb tt dbname) (fun rc s =>
        Listed s ∧ (p → rc = .success → HandleKnown s tt)) := by
  have hcalm := Calm.extends_of_alike (Alike.changeTxnDb tt dbname)
  apply returns_iff.mpr
  rintro s rc s' ⟨hs, hsees⟩ hrun
  have hs' := (of_calm hcalm).of_run hs hrun
  refine ⟨hs', ?_⟩
  rintro hp rfl
  obtain ⟨t, ht, ⟨_, rfl, hmatch⟩ | ⟨hrc, _⟩ | ⟨d, db, _, hdb, hname, rfl⟩⟩ := changeTxnDb_cases hrun
  . exact hs.handleKnown tt dbname (hsees hp) ht hmatch
  . cases hrc
  . refine hs'.handleKnown tt dbname ?_ (update_self _ _ _) ?_
    . intro t' i x ht' hi hx
      dsimp only at ht'
      rw [update_self] at ht'
      cases ht'
      exact hsees hp t i x ht hi hx
    . simpa [dbMatch, hdb] using hname

theorem internalCreateTrashTxn (txn : Option Nat) (rd : Bool)
    : Returns (fun s' => Listed s' ∧ ∀ i, txn = some i → s.env.Begins i s'.env)
        (internalCreateTrashTxn txn rd)
        (fun tt s' => Listed s' ∧ (s.env.Settled dbname → Sees s' tt dbname)) := by
  apply returns_iff.mpr
  rintro s₁ tt s' ⟨hs₁, hbegins⟩ hrun
  have hs' := (of_calm (Calm.internalCreateTrashTxn txn rd)).of_run hs₁ hrun
  refine ⟨hs', ?_⟩
  cases hrun
  intro hsettled t i x ht hi hx d hd hname
  dsimp only at ht
  rw [update_self] at ht
  cases ht
  exact (hbegins i hi).known hsettled hx hd hname

theorem internalGetReadTxn (hs : Listed s)
    : Returns (· = s) (internalGetReadTxn th) (fun tt s' =>
        Listed s' ∧ (s.env.Settled dbname → Sees s' tt dbname)) := by
  refine spec_get ?_
  rintro s rfl
  split
  . exact spec_bind (mdbTxnBegin th hs true) fun txn => internalCreateTrashTxn dbname txn true
  . split
    . exact spec_throw _ fun _ _ => trivial
    . next rdrs _ tt txns _ =>
      refine spec_bind (Q := fun _ s' => Listed s' ∧ s'.env = s.env) ?_ fun _ => ?_
      . exact spec_set fun _ _ => ⟨hs.calm ⟨.refl _, rfl, rfl⟩, rfl⟩
      refine spec_bind (derefTt_spec tt fun _ _ => trivial) fun t => ?_
      refine spec_bind (Q := fun rc s' => Listed s' ∧ (rc = .success → s.env.Settled dbname →
        Sees s' tt dbname)) ?_ fun rc => ?_
      . apply returns_iff.mpr
        rintro s₁ rc s' ⟨⟨hs₁, henv⟩, ht⟩ hrun
        obtain ⟨hs', hbegins⟩ := (mdbTxnRenew th t.txn hs₁).of_run rfl hrun
        obtain ⟨e, l, c, n, rfl⟩ := (LmdbFrame.mdbTxnRenew (R := LmdbOnly) th t.txn).of_run hrun
        refine ⟨hs', ?_⟩
        intro hrc hsettled t' i x ht' hi hx d hd hname
        obtain ⟨j, hj, hbegins⟩ := hbegins hrc
        rw [ht] at ht'
        cases ht'
        rw [hj] at hi
        cases hi
        exact hbegins.known (henv ▸ hsettled) hx hd hname
      . refine spec_bind (Q := fun _ s' => Listed s' ∧ (s.env.Settled dbname → Sees s' tt dbname)) ?_
          fun _ => spec_pure _ fun _ => id
        exact spec_ensure _ _ (fun s' hs' hrc => ⟨hs'.1, hs'.2 (by simpa using hrc)⟩) fun _ _ _ => trivial

theorem internalBeginTxn (rd : Bool) (hs : Listed s)
    : Returns (· = s) (internalBeginTxn th rd) (fun tt s' =>
        Listed s' ∧ (s.env.Settled dbname → Sees s' tt dbname)) := by
  cases rd with
  | true => exact internalGetReadTxn th dbname hs
  | false => exact spec_bind (mdbTxnBegin th hs false) fun txn => internalCreateTrashTxn dbname txn false

theorem beginTxn (rd : Bool) (hs : Listed s)
    : Returns (· = s) (beginTxn th dbname rd) (fun r s' =>
        Listed s' ∧ (s.env.Settled dbname → r.1 = .success → HandleKnown s' r.2)) := by
  refine spec_bind (internalBeginTxn th dbname rd hs) fun tt => ?_
  refine spec_bind (Q := fun _ s' => Listed s' ∧ (s.env.Settled dbname → Sees s' tt dbname)) ?_ fun _ => ?_
  . exact spec_modify _ fun s' ⟨hs', hsees⟩ => ⟨hs'.calm ⟨.refl _, rfl, rfl⟩, hsees⟩
  . exact spec_bind (changeTxnDb tt dbname) fun rc => spec_pure _ fun _ => id

theorem mdbDbiOpen (txn : Option Nat) (name : Bytes) (flags : BitVec 32)
    : Returns Listed (mdbDbiOpen txn name flags) (fun r s =>
        Listed s ∧ ∀ id, r = .ok id → s.env.Open ⟨id, name⟩) := by
  refine spec_bind (derefTxn_spec txn (fun s c hs => hs.calm ⟨.refl _, rfl, rfl⟩) fun _ _ => trivial) ?_
  rintro ⟨i, x⟩
  refine spec_bind (Q := fun _ s => Listed s ∧ s.env.txns i = some x) (spec_modify _ ?_) fun _ => ?_
  . exact fun s ⟨hs, _, hx, _⟩ => ⟨hs.calm ⟨.refl _, rfl, rfl⟩, hx⟩
  refine spec_get fun s ⟨hs, hx⟩ => ?_
  split
  . refine spec_pure _ ?_
    rintro _ rfl
    exact ⟨hs, nofun⟩
  . next id x' hopen =>
    obtain ⟨hkeeps, hid⟩ := Lmdb.Env.dbiOpen_keeps hx hopen
    split
    . refine spec_pure _ ?_
      rintro _ rfl
      exact ⟨hs, nofun⟩
    refine spec_bind (Q := fun _ s => Listed s ∧ s.env.Open ⟨id, name⟩) (spec_modify _ ?_) fun _ => ?_
    . rintro _ rfl
      exact ⟨hs.calm (.ofEnv hkeeps), hid hs.env⟩
    . refine spec_pure _ fun s' ⟨hs', hid'⟩ => ⟨hs', ?_⟩
      intro j hj
      cases hj
      exact hid'

theorem openDbi (temp : Nat) (flags dbMeta : BitVec 32)
    : Returns Listed (openDbi th tt temp dbname flags dbMeta) (fun _ => Listed) := by
  refine spec_bind (of_calm (Calm.extends_of_alike (Alike.derefTt temp))) fun t => ?_
  refine spec_bind (mdbDbiOpen t.txn dbname flags) fun r => ?_
  split
  . exact spec_throw _ fun _ _ => trivial
  . next dbi =>
    refine spec_weaken (A := fun s => Listed s ∧ s.env.Open ⟨dbi, dbname⟩) ?_
      (fun s hs => ⟨hs.1, hs.2 dbi rfl⟩) fun _ _ => id
    split
    . dsimp only
      refine spec_bind (open_of_calm (Calm.extends_of_alike (Alike.putRecord temp _ _ _))) fun rc => ?_
      refine spec_bind (open_of_calm (extends_ensure _ _)) fun _ => ?_
      refine spec_modify _ fun s ⟨hs, hid⟩ => hs.setPc ?_
      intro d hd
      split at hd <;> cases hd <;> exact hid
    . refine spec_modify _ fun s ⟨hs, hid⟩ => hs.setPc ?_
      intro d hd
      cases hd
      exact hid

end Listed

def Absent (s : Sys) (tt : Nat) (dbname : Bytes) : Prop :=
  ∃ s', (do let _ ← changeTxnDb tt metadata; trashGet tt dbname).run s = .ok (.error .notFound) s'

/--
The step neither aborts nor resets a transaction that has opened a database.
-/
def ClosesNone (s : Sys) : Action → Prop
  | .openDb _ tt dbname _ =>
    Absent s tt dbname → (∃ t, s.tts tt = some t ∧ t.rd = true) → Lossless s tt
  | .resume th => ∀ tt temp dbname id dbMeta, s.pc th = .commit tt temp dbname id dbMeta → Lossless s temp
  | .returnTxn _ tt => Lossless s tt
  | _ => True

/--
A check of the same, which allows no read transaction to begin `open_db` with handles of its own.
-/
def Sys.lossless (s : Sys) (tt : Nat) : Bool :=
  (s.tts tt).all fun t => t.commit || (t.txn.bind s.env.txns).all fun x => x.opened.isEmpty

def closesNone (s : Sys) : Action → Bool
  | .openDb _ tt _ _ => (s.tts tt).all (fun t => !t.rd) || s.lossless tt
  | .resume th =>
    match s.pc th with
    | .commit _ temp _ _ _ => s.lossless temp
    | _ => true
  | .returnTxn _ tt => s.lossless tt
  | _ => true

theorem Sys.lossless_iff {s : Sys} {tt : Nat} (h : s.lossless tt = true) : Lossless s tt := by
  intro t i x ht hi hx
  simpa [Sys.lossless, ht, hi, hx] using h

theorem ClosesNone.of_check {s : Sys} {a : Action} (h : closesNone s a = true) : ClosesNone s a := by
  cases a with
  | openDb th tt dbname flags =>
    rintro - ⟨t, ht, hrd⟩
    rw [closesNone, ht, Option.all_some, hrd, Bool.not_true, Bool.false_or] at h
    exact Sys.lossless_iff h
  | resume th =>
    intro tt temp dbname id dbMeta hpc
    rw [closesNone, hpc] at h
    exact Sys.lossless_iff h
  | returnTxn th tt => exact Sys.lossless_iff h
  | _ => trivial

theorem Lossless.alike {s s' : Sys} {tt : Nat} {t' : TrashTxn}
    (h : (∃ t, s.tts tt = some t ∧ t.rd = true) → Lossless s tt) (hs : Alike s s')
    (ht' : s'.tts tt = some t') (hrd : t'.rd = true)
    : Lossless s' tt := by
  intro t'' i x' ht'' hi hx'
  rw [ht'] at ht''
  cases ht''
  obtain ⟨t, ht, hcore⟩ := hs.tt_of_some ht'
  obtain ⟨x, hx, hxcore⟩ := hs.txn_of_some hx'
  simp only [TrashTxn.core, Prod.mk.injEq] at hcore
  simp only [Lmdb.Txn.core, Prod.mk.injEq] at hxcore
  obtain ⟨htxn, hrd', _, _, hcommit⟩ := hcore
  rw [hrd] at hrd'
  rw [hrd, hrd', Bool.true_and, Bool.true_and] at hcommit
  rw [← hcommit, ← hxcore.2.2.2.2]
  exact h ⟨t, ht, hrd'⟩ t i x ht (htxn.trans hi) hx

namespace Listed

variable {s : Sys} (th tt : Nat) (dbname : Bytes)

theorem openDb (flags : BitVec 32) (hclose : ClosesNone s (.openDb th tt dbname flags)) (hs : Listed s)
    : Returns (· = s) (openDb th tt dbname flags) (fun _ => Listed) := by
  apply returns_iff.mpr
  rintro s _ s' rfl hrun
  obtain ⟨_, s₁, hchange, hrest⟩ := bind_eq_ok.mp hrun
  obtain ⟨r, s₂, hget, hrest⟩ := bind_eq_ok.mp hrest
  have halike : Alike s s₂ :=
    IsTrans.trans _ _ _ ((Alike.changeTxnDb tt metadata).of_run hchange) ((Alike.trashGet tt dbname).of_run hget)
  have hs₂ := hs.calm (.of_alike halike)
  have habsent : r = .error .notFound → Absent s tt dbname := by
    rintro rfl
    exact ⟨s₂, by rw [bind_of_ok hchange, hget]⟩
  clear hrun hchange hget
  suffices hspec : Returns (· = s₂) _ (fun _ => Listed) from hspec.of_run rfl hrest
  clear hrest
  split
  . split
    . exact spec_throw _ fun _ _ => trivial
    . refine spec_weaken (openDbi th tt dbname tt _ _) ?_ fun _ _ => id
      rintro _ rfl
      exact hs₂
  . refine spec_bind (derefTt_spec tt fun _ _ => trivial) fun t => ?_
    split
    . next hrd =>
      refine spec_bind (Q := fun _ s' => Listed s' ∧ Lossless s' tt) (spec_modify _ ?_) fun _ => ?_
      . rintro _ ⟨rfl, ht⟩
        have hloss := Lossless.alike (hclose (habsent rfl)) halike ht hrd
        refine ⟨hs₂.calm ⟨.refl _, rfl, rfl⟩, ?_⟩
        intro t' i x ht' hi hx
        dsimp only at ht'
        rw [update_self] at ht'
        cases ht'
        exact hloss t i x ht hi hx
      refine spec_bind (returnTxn th tt) fun _ => ?_
      exact spec_modify _ fun s' hs' => hs'.setPc nofun
    . refine spec_weaken (openDbi th tt dbname tt _ _) ?_ fun _ _ => id
      rintro _ ⟨rfl, _⟩
      exact hs₂
  . exact spec_throw _ fun _ _ => trivial

theorem openDbResume (hclose : ClosesNone s (.resume th)) (hs : Listed s)
    : Returns (· = s) (openDbResume th) (fun _ => Listed) := by
  refine spec_get ?_
  rintro s rfl
  split
  . exact spec_throw _ fun _ _ => trivial
  . refine spec_bind (beginTxn th metadata false hs) fun ⟨rc, temp⟩ => ?_
    exact spec_weaken (openDbi th _ _ temp _ _) (fun s' hs' => hs'.1) fun _ _ => id
  . next tt temp dbname dbi dbMeta hpc =>
    refine spec_bind (Q := fun _ s' => Listed s' ∧ s'.pc = s.pc) ?_ fun _ => spec_modify _ ?_
    . apply returns_iff.mpr
      rintro s _ s' rfl hrun
      exact ⟨(returnTxn th temp).of_run ⟨hs, hclose _ _ _ _ _ hpc⟩ hrun,
        ((TxnFrame.returnTxn (R := Framed) th temp).of_run hrun).pc⟩
    . rintro s' ⟨hs', hpc'⟩
      refine hs'.setPc fun d hd => hs'.pc th d ?_
      rw [hpc', hpc]
      exact hd
  . next tt dbname dbi dbMeta hpc =>
    refine spec_bind (derefTt_spec tt fun _ _ => trivial) fun t => ?_
    refine spec_bind (Q := fun _ s' => Listed s' ∧ s'.pc = s.pc) ?_ fun _ => spec_modify _ ?_
    . apply returns_iff.mpr
      rintro s₁ rc s' ⟨rfl, _⟩ hrun
      exact ⟨((mdbTxnRenew th t.txn hs).of_run rfl hrun).1,
        ((LmdbFrame.mdbTxnRenew (R := Framed) th t.txn).of_run hrun).pc⟩
    . rintro s' ⟨hs', hpc'⟩
      refine hs'.setPc fun d hd => hs'.pc th d ?_
      rw [hpc', hpc]
      exact hd
  . next tt dbname dbi dbMeta hpc =>
    have hopen : s.env.Open ⟨dbi, dbname⟩ := hs.pc th _ (by rw [hpc]; rfl)
    refine spec_bind (Q := fun _ => Listed) ?_ fun db => ?_
    . apply returns_iff.mpr
      rintro _ _ _ rfl hrun
      cases hrun
      exact hs.addDb hopen
    refine spec_bind (of_calm (Calm.extends_of_alike (Alike.derefTt tt))) fun t => ?_
    refine spec_bind (of_calm (Calm.setTt tt _)) fun _ => ?_
    exact spec_modify _ fun s' hs' => hs'.setPc nofun

theorem createCursor (tt : Option Nat) : Returns Listed (createCursor th tt) (fun _ => Listed) := by
  cases tt with
  | none =>
    refine spec_bind (Q := fun _ => Listed) ?_ fun tt => ?_
    . exact fun s hs => (spec_weaken (internalGetReadTxn th metadata hs) (fun _ => id) fun _ _ h => h.1) s rfl
    . exact of_calm (Calm.extends_of_alike (Alike.createCursor th tt))
  | some tt => exact of_calm (Calm.extends_of_alike (Alike.createCursor th tt))

theorem createReaders (n : Nat) : Returns Listed (createReaders th n) (fun _ => Listed) := by
  induction n with
  | zero => exact spec_pure _ fun _ => id
  | succ n ih =>
    refine spec_bind (Q := fun txn s => Listed s ∧ Emptied s txn) ?_ fun txn => ?_
    . apply returns_iff.mpr
      intro s txn s' hs hrun
      obtain ⟨hs', hbegins⟩ := (mdbTxnBegin th hs true).of_run rfl hrun
      exact ⟨hs', fun i x hi hx => (hbegins i hi).opened hx⟩
    refine spec_bind (Q := fun _ s => Listed s ∧ Emptied s txn) ?_ fun _ => ?_
    . exact spec_ensure _ _ (fun _ hs _ => hs) fun _ _ _ => trivial
    refine spec_bind (mdbTxnReset txn) fun _ => ?_
    refine spec_bind (Q := fun _ => Listed) ?_ fun tt => ?_
    . exact spec_weaken (of_calm (Calm.internalCreateTrashTxn txn true)) (fun _ => And.left) fun _ _ => id
    exact spec_bind ih fun tts => spec_pure _ fun _ => id

theorem initThreadLocalReaders
    : Returns Listed (initThreadLocalReaders th) (fun _ => Listed) := by
  refine spec_get fun s hs => ?_
  refine spec_weaken (A := Listed) ?_ (by rintro _ rfl; exact hs) fun _ _ => id
  refine spec_when (fun _ => ?_) fun _ _ => id
  refine spec_bind (createCursor th none) fun curr => ?_
  refine spec_bind (createReaders th _) fun txns => ?_
  exact spec_modify _ fun s hs => hs.calm ⟨.refl _, rfl, rfl⟩

end Listed

structure Marked (tt : Nat) (s : Sys) : Prop where
  listed : Listed s
  commit : ∀ t, s.tts tt = some t → t.commit = true

namespace Marked

variable {s : Sys} {tt : Nat}

theorem of_calm {α : Type} {m : M α} (hcalm : Extends Calm m) (hlmdb : Extends LmdbOnly m)
    : Returns (Marked tt) m (fun _ => Marked tt) := by
  apply returns_iff.mpr
  intro s a s' hs hrun
  have hlisted := hs.listed.calm (hcalm.of_run hrun)
  obtain ⟨e, l, c, n, rfl⟩ := hlmdb.of_run hrun
  exact ⟨hlisted, hs.commit⟩

theorem setTt {t : TrashTxn} (h : Listed s) (ht : t.commit = true)
    : Marked tt { s with tts := update s.tts tt (some t) } := by
  refine ⟨h.calm ⟨.refl _, rfl, rfl⟩, ?_⟩
  intro t' ht'
  dsimp only at ht'
  rw [update_self] at ht'
  cases ht'
  exact ht

theorem changeTxnDb (dbname : Bytes)
    : Returns (Marked tt) (changeTxnDb tt dbname) (fun _ => Marked tt) := by
  apply returns_iff.mpr
  intro s rc s' hs hrun
  have hlisted := hs.listed.calm ((Calm.extends_of_alike (Alike.changeTxnDb tt dbname)).of_run hrun)
  obtain ⟨t, ht, ⟨_, rfl, _⟩ | ⟨_, rfl, _⟩ | ⟨d, db, _, _, _, rfl⟩⟩ := changeTxnDb_cases hrun
  . exact hs
  . exact hs
  . refine ⟨hlisted, ?_⟩
    intro t' ht'
    dsimp only at ht'
    rw [update_self] at ht'
    cases ht'
    exact hs.commit t ht

theorem trashPut (key val : Bytes) (flags : BitVec 32) (answer : Lmdb.Answer)
    : Returns (Marked tt) (trashPut tt key val flags answer) (fun _ => Marked tt) := by
  refine spec_bind (of_calm (Calm.extends_of_alike (Alike.derefTt tt)) (LmdbFrame.derefTt tt)) fun t => ?_
  split
  . exact spec_pure _ fun _ => id
  . refine spec_bind (of_calm (Calm.extends_of_alike (Alike.derefDb _)) (LmdbFrame.derefDb _)) fun db => ?_
    refine spec_bind (of_calm (Calm.extends_of_alike (Alike.mdbPut _ _ _ _ _ _))
      (KeyFrame.mdbPut _ _ _ _ _ _)) fun rc => ?_
    refine spec_bind (Q := fun _ => Marked tt) ?_ fun _ => spec_pure _ fun _ => id
    refine spec_when (fun _ => spec_modify _ fun s hs => ?_) fun _ _ => id
    exact setTt hs.listed rfl

theorem createCursor (th : Nat) : Returns (Marked tt) (createCursor th (some tt)) (fun _ => Marked tt) := by
  refine spec_bind (spec_pure _ fun _ hs => ⟨hs, rfl⟩) fun tt' => spec_assume ?_
  rintro rfl
  refine spec_bind (of_calm (Calm.extends_of_alike (Alike.derefTt _)) (LmdbFrame.derefTt _)) fun t => ?_
  refine spec_bind (Q := fun _ => Marked tt) ?_ fun _ => ?_
  . refine spec_when (fun _ => ?_) fun _ _ => id
    exact spec_bind (changeTxnDb _) fun _ => spec_pure _ fun _ => id
  refine spec_bind (of_calm (Calm.extends_of_alike (Alike.derefTt tt)) (LmdbFrame.derefTt tt)) fun t => ?_
  refine spec_get fun s hs => ?_
  refine spec_weaken (A := Marked tt) ?_ (by rintro _ rfl; exact hs) fun _ _ => id
  split
  . refine spec_bind (of_calm (Calm.extends_of_alike (Alike.mdbCursorRenew _ _))
      (CursorFrame.mdbCursorRenew _ _)) fun _ => ?_
    refine spec_bind (of_calm (extends_ensure _ _) (extends_ensure _ _)) fun _ => ?_
    exact spec_pure _ fun _ => id
  . refine spec_bind (of_calm (Calm.extends_of_alike (Alike.derefDb _)) (LmdbFrame.derefDb _)) fun db => ?_
    refine spec_bind (of_calm (Calm.extends_of_alike (Alike.mdbCursorOpen _ _))
      (CursorFrame.mdbCursorOpen _ _)) fun c => ?_
    split
    . exact spec_throw _ fun _ _ => trivial
    . exact spec_pure _ fun _ => id

theorem mdbDbiOpen (txn : Option Nat) (name : Bytes) (flags : BitVec 32)
    : Returns (Marked tt) (mdbDbiOpen txn name flags) (fun r s =>
        Marked tt s ∧ ∀ id, r = .ok id → s.env.Open ⟨id, name⟩) := by
  apply returns_iff.mpr
  intro s r s' hs hrun
  obtain ⟨hlisted, hopen⟩ := (Listed.mdbDbiOpen txn name flags).of_run hs.listed hrun
  obtain ⟨e, l, c, n, rfl⟩ := (LmdbFrame.mdbDbiOpen (R := LmdbOnly) txn name flags).of_run hrun
  exact ⟨⟨hlisted, hs.commit⟩, hopen⟩

theorem openRecords (after : Bytes → Bytes) (records : Lmdb.Contents)
    : ∀ dbMeta, Returns (Marked tt) (openRecords tt after dbMeta records) (fun _ => Marked tt) := by
  induction records with
  | nil => exact fun _ => spec_pure _ fun _ => id
  | cons r records ih =>
    intro dbMeta
    unfold Db.openRecords
    split
    . split
      . exact spec_throw _ fun _ _ => trivial
      . refine spec_bind (of_calm (Calm.extends_of_alike (Alike.derefTt tt)) (LmdbFrame.derefTt tt)) fun t => ?_
        refine spec_bind (mdbDbiOpen _ _ _) fun res => ?_
        split
        . exact spec_throw _ fun _ _ => trivial
        . next dbi =>
          refine spec_bind (Q := fun _ => Marked tt) ?_ fun _ => ih _
          apply returns_iff.mpr
          rintro s _ _ ⟨hs, hopen⟩ hrun
          cases hrun
          exact ⟨hs.listed.addDb (hopen dbi rfl), hs.commit⟩
    . exact spec_pure _ fun _ => id

end Marked

namespace Listed

variable {s : Sys}

theorem initMetadata (th : Nat) (after : Bytes → Bytes)
    : Returns Listed (initMetadata th after) (fun _ => Listed) := by
  refine spec_bind (Q := fun _ => Listed) ?_ fun ⟨rc, tt⟩ => ?_
  . exact fun s hs => (spec_weaken (beginTxn th metadata false hs) (fun _ => id) fun _ _ h => h.1) s rfl
  refine spec_when (fun _ => ?_) fun _ _ => id
  refine spec_bind (of_calm (Calm.extends_of_alike (Alike.derefTt tt))) fun t => ?_
  refine spec_bind (mdbDbiOpen t.txn metadata metadataFlags) fun res => ?_
  split
  . exact spec_throw _ fun _ _ => trivial
  . next dbi =>
    refine spec_bind (Q := fun _ => Listed) ?_ fun db => ?_
    . apply returns_iff.mpr
      rintro s _ _ ⟨hs, hopen⟩ hrun
      cases hrun
      exact hs.addDb (hopen dbi rfl)
    refine spec_bind (Q := fun _ => Marked tt) (spec_modify _ fun s hs => ?_) fun _ => ?_
    . exact Marked.setTt hs rfl
    refine spec_bind (putRecord_spec (Marked.trashPut _ _ _)) fun rc => ?_
    refine spec_bind (Marked.of_calm (extends_ensure _ _) (extends_ensure _ _)) fun _ => ?_
    refine spec_bind (Marked.createCursor th) fun curr => ?_
    refine spec_bind (Marked.of_calm (Calm.extends_of_alike (Alike.cursorRange _ _))
      (LmdbFrame.cursorRange _ _)) fun records => ?_
    refine spec_bind (Marked.openRecords after records _) fun _ => ?_
    refine spec_bind (Marked.of_calm (Calm.extends_of_alike (Alike.returnCursor _))
      (CursorFrame.returnCursor _)) fun _ => ?_
    refine spec_weaken (returnTxn th tt) ?_ fun _ _ => id
    intro s hs
    exact ⟨hs.listed, fun t _ _ ht _ _ => .inl (hs.commit t ht)⟩

theorem exec {a : Action} (hclose : ClosesNone s a) (hs : Listed s)
    : Returns (· = s) (exec a) (fun _ => Listed) := by
  have hready : ∀ th, Returns (· = s) (ready th) (fun _ s' => s' = s) := by
    intro th
    refine spec_get fun s' hs' => spec_ensure _ _ ?_ fun _ _ _ => trivial
    rintro _ rfl _
    exact hs'
  have hholds : ∀ th tt, Returns (· = s) (holds th tt) (fun _ s' => s' = s) := by
    intro th tt
    refine spec_bind (hready th) fun _ => spec_get fun s' hs' => spec_ensure _ _ ?_ fun _ _ _ => trivial
    rintro _ rfl _
    exact hs'
  have hkept : ∀ {α : Type} {m : M α}, Returns Listed m (fun _ => Listed) →
      Returns (· = s) m (fun _ => Listed) := by
    intro α m h
    refine spec_weaken h ?_ fun _ _ => id
    rintro _ rfl
    exact hs
  cases a with
  | initThreadLocalReaders th =>
    refine spec_bind (hready th) fun _ => ?_
    exact spec_bind (hkept (initThreadLocalReaders th)) fun _ => spec_pure _ fun _ => id
  | initMetadata th after =>
    refine spec_bind (hready th) fun _ => ?_
    exact spec_bind (hkept (initMetadata th after)) fun _ => spec_pure _ fun _ => id
  | beginTxn th dbname rd =>
    refine spec_bind (hready th) fun _ => ?_
    exact spec_bind (beginTxn th dbname rd hs) fun _ => spec_pure _ fun _ => And.left
  | internalBeginTxn th rd =>
    refine spec_bind (hready th) fun _ => ?_
    -- no name is looked up yet
    refine spec_bind (internalBeginTxn th [] rd hs) fun tt => ?_
    refine spec_bind (Q := fun _ => Listed) ?_ fun _ => spec_pure _ fun _ => id
    exact spec_modify _ fun s' hs' => hs'.1.calm ⟨.refl _, rfl, rfl⟩
  | changeTxnDb th tt dbname =>
    refine spec_bind (hholds th tt) fun _ => ?_
    refine spec_bind (hkept (of_calm (Calm.extends_of_alike (Alike.changeTxnDb tt dbname)))) fun _ => ?_
    exact spec_pure _ fun _ => id
  | openDb th tt dbname flags =>
    refine spec_bind (hholds th tt) fun _ => ?_
    exact spec_bind (openDb th tt dbname flags hclose hs) fun _ => spec_pure _ fun _ => id
  | resume th => exact spec_bind (openDbResume th hclose hs) fun _ => spec_pure _ fun _ => id
  | createCursor th tt =>
    cases tt with
    | none =>
      refine spec_bind (hready th) fun _ => ?_
      exact spec_bind (hkept (createCursor th none)) fun _ => spec_pure _ fun _ => id
    | some tt =>
      refine spec_bind (hholds th tt) fun _ => ?_
      exact spec_bind (hkept (createCursor th (some tt))) fun _ => spec_pure _ fun _ => id
  | returnCursor th c =>
    refine spec_bind (hready th) fun _ => ?_
    exact spec_bind (hkept (of_calm (Calm.extends_of_alike (Alike.returnCursor c)))) fun _ => spec_pure _ fun _ => id
  | trashPut th tt key val flags answer =>
    refine spec_bind (hholds th tt) fun _ => ?_
    refine spec_bind (hkept (of_calm (Calm.extends_of_alike (Alike.trashPut tt key val flags answer)))) fun _ => ?_
    exact spec_pure _ fun _ => id
  | trashGet th tt key =>
    refine spec_bind (hholds th tt) fun _ => ?_
    refine spec_bind (hkept (of_calm (Calm.extends_of_alike (Alike.trashGet tt key)))) fun _ => ?_
    exact spec_pure _ fun _ => id
  | returnTxn th tt =>
    refine spec_bind (hholds th tt) fun _ => ?_
    refine spec_bind (Q := fun _ => Listed) ?_ fun _ => spec_pure _ fun _ => id
    refine spec_weaken (returnTxn th tt) ?_ fun _ _ => id
    rintro _ rfl
    exact ⟨hs, hclose⟩

theorem init (limits : Lmdb.Limits) (data : Lmdb.Data) : Listed (.initWith limits data) := by
  refine ⟨⟨fun _ _ => rfl, nofun⟩, nofun, ?_⟩
  intro th d hd
  cases hd

theorem of_run {limits : Lmdb.Limits} {data : Lmdb.Data} {as : List Action}
    (hclose : Lts.Along Sys.step ClosesNone (.initWith limits data) as)
    (hrun : Lts.run Sys.step (.initWith limits data) as = some s)
    : Listed s := by
  refine Lts.invariant_along ?_ (init limits data) hclose hrun
  intro s a s' hs ha hstep
  obtain ⟨r, hexec⟩ := exec_of_step hstep
  exact (exec ha hs).of_run rfl hexec

end Listed

/--
No database of that name is opened in another transaction that is still active, and none has become public
since the transaction of `tt` has begun.
-/
def UpToDate (s : Sys) (tt : Nat) (dbname : Bytes) : Prop :=
  ∀ t i x, s.tts tt = some t → t.txn = some i → s.env.txns i = some x →
    (∀ j y, j ≠ i → s.env.txns j = some y → y.state = .active → ∀ h ∈ y.opened, h.name ≠ dbname) ∧
    ∀ h ∈ s.env.dbis, h.name = dbname → h ∈ x.dbis

theorem UpToDate.sees {s : Sys} {tt : Nat} {dbname : Bytes} (h : UpToDate s tt dbname)
    : Sees s tt dbname := by
  intro t i x ht hi hx d hd hname
  obtain ⟨hothers, hpublic⟩ := h t i x ht hi hx
  rcases hd with hd | ⟨j, y, hy, hactive, hd⟩
  . exact List.mem_append_left _ (hpublic d hd hname)
  . by_cases hj : j = i
    . subst hj
      rw [hx] at hy
      cases hy
      exact List.mem_append_right _ hd
    . exact absurd hname (hothers j y hj hy hactive d hd)

theorem UpToDate.of_alone {s : Sys} {tt : Nat} {dbname : Bytes} (hwf : s.env.WellFormed)
    (h : (s.tts tt).all fun t => t.txn.all fun i =>
      (∀ j < s.env.nextTxn, j ≠ i → (s.env.txns j).all fun x => x.state != .active) ∧
        (s.env.txns i).all fun x => ∀ d ∈ s.env.dbis, d ∈ x.dbis)
    : UpToDate s tt dbname := by
  intro t i x ht hi hx
  rw [ht, Option.all_some, hi, Option.all_some, decide_eq_true_iff, hx, Option.all_some, decide_eq_true_iff] at h
  obtain ⟨hended, hknown⟩ := h
  constructor
  . intro j y hj hy hactive
    have hj := hended j (Lmdb.Env.lt_nextTxn hwf hy) hj
    simp [hy, hactive] at hj
  . exact fun d hd _ => hknown d hd

/--
In a run in which no transaction that has opened a database is aborted or reset, a transaction that is set
to a database knows its handle, if it is up to date with this database when the name is looked up. It is if no other
thread comes in between the two parts of `begin_txn` and the database is settled.
-/
theorem handleKnown_of_closesNone {data : Lmdb.Data} {as : List Action} {s : Sys}
    (hclose : Lts.Along Sys.step ClosesNone (.init data) as)
    (hrun : Lts.run Sys.step (.init data) as = some s)
    : (∀ tt dbname s', UpToDate s tt dbname →
        (changeTxnDb tt dbname).run s = .ok .success s' → HandleKnown s' tt) ∧
      ∀ th dbname rd tt s', s.env.Settled dbname →
        (beginTxn th dbname rd).run s = .ok (.success, tt) s' → HandleKnown s' tt := by
  have hs := Listed.of_run hclose hrun
  constructor
  . intro tt dbname s' hupToDate hchange
    have hspec := Listed.changeTxnDb (p := UpToDate s tt dbname) tt dbname
    exact (hspec.of_run ⟨hs, UpToDate.sees⟩ hchange).2 hupToDate rfl
  . intro th dbname rd tt s' hsettled hbegin
    exact ((Listed.beginTxn th dbname rd hs).of_run rfl hbegin).2 hsettled rfl

/--
A thread has created the database "a" and not returned its transaction yet.
-/
def creating : List Action :=
  [.initMetadata 0 fun _ => [], .beginTxn 0 metadata false, .openDb 0 1 [0x61] mdbCreate, .resume 0, .resume 0]

/--
The database is committed, and another thread has begun to read but not looked up the name.
-/
def beginning : List Action := creating ++ [.returnTxn 0 1, .internalBeginTxn 1 true]

theorem handleKnown_committed_db
    : ∃ s s', Lts.run Sys.step (.init []) beginning = some s ∧ (changeTxnDb 2 [0x61]).run s = .ok .success s' ∧
        HandleKnown s' 2 := by
  have hclose : Lts.Along Sys.step ClosesNone (.init []) beginning :=
    Lts.Along.imp (P := fun s a => closesNone s a = true) (by decide +kernel) fun _ _ => .of_check
  have hlisted : ∀ {s}, Lts.run Sys.step (.init []) beginning = some s → Listed s := Listed.of_run hclose
  refine ⟨_, _, rfl, rfl, ?_⟩
  refine (handleKnown_of_closesNone hclose rfl).1 2 [0x61] _ ?_ rfl
  -- its own transaction is the only active one, and it has begun after the commit
  apply UpToDate.of_alone (hlisted rfl).env
  decide

/--
The other thread finds the database before it is committed.
-/
theorem not_handleKnown_private_db
    : ¬ ∀ (as : List Action) (s : Sys) (th : Nat) (dbname : Bytes) (rd : Bool) (tt : Nat) (s' : Sys),
        Lts.run Sys.step (.init []) as = some s →
        (beginTxn th dbname rd).run s = .ok (.success, tt) s' → HandleKnown s' tt := by
  intro h
  have hknown := h creating _ 1 [0x61] true 2 _ rfl rfl _ _ _ _ _ rfl rfl rfl rfl rfl
  revert hknown
  decide

end Db
