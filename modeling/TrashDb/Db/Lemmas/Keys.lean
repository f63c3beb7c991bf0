import TrashDb.Lib.Lts
import TrashDb.Db.Lemmas.Registry
import TrashDb.Db.Lemmas.Similar

/-!
This module contains the keys of the metadata database that `open_db` reads and writes. It reads the record
under the name itself, and writes the one under the name behind a prefix in a buffer of 256 bytes.
-/

namespace Db

open Prog Function

def Call.puts (key : Bytes) : Call → Bool
  | .put key' _ => key' == key
  | _ => false

def Call.fits (get put : Bytes → Prop) : Call → Prop
  | .get key _ => get key
  | .put key _ => put key
  | _ => True

def Keyed (get put : Bytes → Prop) (s s' : Sys) : Prop := ∃ l, s'.log = s.log ++ l ∧ ∀ c ∈ l, c.fits get put

namespace Keyed

variable {get put : Bytes → Prop} {s s' : Sys}

theorem of_log (h : s'.log = s.log) : Keyed get put s s' := ⟨[], by simp [h], by simp⟩

theorem call (s : Sys) {c : Call} (hc : c.fits get put) : Keyed get put s { s with log := s.log ++ [c] } := by
  refine ⟨[c], rfl, ?_⟩
  intro c' hc'
  rw [List.mem_singleton.mp hc']
  exact hc

instance : OpenFrame (Keyed get put) where
  refl _ := of_log rfl
  trans _ _ _ := by
    rintro ⟨l, hl, hfits⟩ ⟨l', hl', hfits'⟩
    refine ⟨l ++ l', by rw [hl', hl, List.append_assoc], ?_⟩
    intro c hc
    rcases List.mem_append.mp hc with hmem | hmem
    . exact hfits c hmem
    . exact hfits' c hmem
  env _ _ := of_log rfl
  log s c hc := by
    refine call s ?_
    cases c <;> trivial
  tts _ _ _ := of_log rfl
  out _ _ := of_log rfl
  count _ _ _ _ := of_log rfl
  pool _ _ _ _ _ := of_log rfl
  add _ _ _ _ := of_log rfl
  pc _ _ := of_log rfl

theorem fits_of_mem_drop {c : Call} (h : Keyed get put s s') (hc : c ∈ s'.log.drop s.log.length)
    : c.fits get put := by
  obtain ⟨l, hl, hfits⟩ := h
  rw [hl, List.drop_left] at hc
  exact hfits c hc

end Keyed

def Action.dbname (s : Sys) : Action → Option Bytes
  | .openDb _ _ dbname _ => some dbname
  | .resume th => (s.pc th).dbname
  | _ => none

theorem keyed_exec {s : Sys} {a : Action} {dbname : Bytes} (ha : a.dbname s = some dbname)
    : Keyed (· = dbname) (· = dbKeyName dbname) s (final ((exec a).run s)) := by
  have hget : ∀ s res, Keyed (· = dbname) (· = dbKeyName dbname) s { s with log := s.log ++ [.get dbname res] } :=
    fun s _ => Keyed.call s rfl
  have hput : ∀ s val, Keyed (· = dbname) (· = dbKeyName dbname) s
      { s with log := s.log ++ [.put (dbKeyName dbname) val] } :=
    fun s _ => Keyed.call s rfl
  cases a with
  | openDb th tt dbname flags =>
    cases ha
    refine extends_bind (LmdbFrame.holds th tt) (fun _ => ?_) s
    exact extends_bind (OpenFrame.openDb th tt hget hput flags) fun _ => extends_pure _
  | resume th =>
    have hname : (s.pc th).dbname = some dbname := ha
    rw [exec, final_bind_pure, openDbResume, bind_of_ok (EStateM.run_get s)]
    cases hpc : s.pc th with
    | idle => exact refl s
    | begin tt dbname' flags =>
      rw [hpc] at hname
      cases hname
      refine extends_bind (TxnFrame.beginTxn th metadata false) (fun r => ?_) s
      exact OpenFrame.openDbi th tt (fun s => hput s _) _ _
    | commit tt temp dbname' id dbMeta =>
      exact extends_bind (TxnFrame.returnTxn th temp) (fun _ => OpenFrame.setPc th _) s
    | renew tt dbname' id dbMeta =>
      refine extends_bind (LmdbFrame.derefTt tt) (fun t => ?_) s
      exact extends_bind (LmdbFrame.mdbTxnRenew th t.txn) fun _ => OpenFrame.setPc th _
    | publish tt dbname' id dbMeta =>
      refine extends_bind (AddFrame.internalAddDb _ _ _) (fun db => ?_) s
      refine extends_bind (LmdbFrame.derefTt tt) fun t => ?_
      exact extends_bind (TxnFrame.setTt tt _) fun _ => OpenFrame.setPc th _
  | _ => cases ha

/--
A step of `open_db` for that database makes the call of LMDB, in some run.
-/
def Makes (dbname : Bytes) (c : Call) : Prop :=
  ∃ data as s a, Lts.run Sys.step (.init data) as = some s ∧ a.dbname s = some dbname ∧
    c ∈ (final ((exec a).run s)).log.drop s.log.length

def ReadsKey (dbname key : Bytes) : Prop := ∃ res, Makes dbname (.get key res)

def WritesKey (dbname key : Bytes) : Prop := ∃ val, Makes dbname (.put key val)

theorem ReadsKey.key_eq {dbname key : Bytes} (h : ReadsKey dbname key) : key = dbname := by
  obtain ⟨res, data, as, s, a, -, ha, hc⟩ := h
  exact (keyed_exec ha).fits_of_mem_drop hc

theorem WritesKey.key_eq {dbname key : Bytes} (h : WritesKey dbname key) : key = dbKeyName dbname := by
  obtain ⟨val, data, as, s, a, -, ha, hc⟩ := h
  exact (keyed_exec ha).fits_of_mem_drop hc

section

variable {s : Sys} {tt i : Nat} {t : TrashTxn} {x : Lmdb.Txn} {db : OpenDb} {dbname : Bytes}

theorem Writing.trashGet (h : Writing tt i t x db s) (key : Bytes)
    : (trashGet tt key).run s =
        .ok (x.get db.id key) { s with log := s.log ++ [.access true, .get key (x.get db.id key)] } := by
  obtain ⟨d, hd, hdb⟩ := h.db
  have hderef : (derefDb t.db).run s = .ok db s := by simp [derefDb, hd, hdb]
  rw [Db.trashGet, bind_of_ok (derefTt_of_some h.tt), bind_of_ok hderef, h.txn, mdbGet_of_active h.env h.active]

theorem Writing.changeTxnDb (h : Writing tt i t x db s) (hname : db.name = metadata)
    : (changeTxnDb tt metadata).run s = .ok .success s := by
  obtain ⟨d, hd, hdb⟩ := h.db
  refine changeTxnDb_same h.tt ?_
  rw [hd, Option.bind_some, hdb]
  simp [dbMatch, hname]

theorem Writing.openDb_get (th : Nat) (dbname : Bytes) (flags : BitVec 32) (h : Writing tt i t x db s)
    (hname : db.name = metadata)
    : s.log ++ [.access true, .get dbname (x.get db.id dbname)] <+:
        (final ((openDb th tt dbname flags).run s)).log := by
  rw [openDb, bind_of_ok (h.changeTxnDb hname), bind_of_ok (h.trashGet dbname)]
  change Logged { s with log := s.log ++ [.access true, .get dbname (x.get db.id dbname)] } _
  split
  . split
    . exact List.prefix_refl _
    . exact KeyFrame.openDbi (R := Logged) th tt tt _ _ _ _
  . refine extends_bind (R := Logged) (LmdbFrame.derefTt tt) (fun t => ?_) _
    split
    . refine extends_bind (TxnFrame.setTt tt _) fun _ => ?_
      exact extends_bind (TxnFrame.returnTxn th tt) fun _ => OpenFrame.setPc th _
    . exact KeyFrame.openDbi th tt tt _ _ _
  . exact List.prefix_refl _

theorem Writing.openDbi_log {id : Nat} {x' : Lmdb.Txn} {flags : BitVec 32} (th : Nat) (dbMeta : BitVec 32)
    (h : Writing tt i t x db s) (hcreate : flags &&& mdbCreate ≠ 0)
    (hopen : x.dbiOpen dbname flags s.env.nextDbi = .ok (id, x')) (hroom : s.env.limits = .unlimited)
    : s.log ++ [.access true, .dbiOpen dbname flags, .access true,
          .put (dbRecord dbname dbMeta).1 (dbRecord dbname dbMeta).2] <+:
        (final ((openDbi th tt tt dbname flags dbMeta).run s)).log := by
  obtain ⟨hrdonly, -, hstate⟩ : x'.rdonly = x.rdonly ∧ x'.thread = x.thread ∧ x'.state = x.state := by
    have hrole := Lmdb.Txn.dbiOpen_role hopen
    simpa [Lmdb.Txn.role] using hrole
  have hnone : ∀ n, s.env.refusal n x x' = none := fun n => Lmdb.Env.refusal_unlimited hroom n x x'
  rw [openDbi, bind_of_ok (derefTt_of_some h.tt), h.txn, bind_of_ok (mdbDbiOpen_of_active h.env h.active hopen hnone)]
  dsimp only
  rw [if_pos hcreate]
  have hw : Writing tt i t x' db {
      s with
      env := { s.env.setTxn i x' with nextDbi := s.env.nextDbi + 1 }
      log := s.log ++ [.access true, .dbiOpen dbname flags] } :=
    ⟨h.tt, h.rd, h.wr, h.txn, h.db, update_self _ _ _, hstate.trans h.active, hrdonly.trans h.rdonly⟩
  cases hput : x'.put db.id (dbRecord dbname dbMeta).1 (dbRecord dbname dbMeta).2 0 .plain with
  | mk rc x'' =>
    rw [bind_of_ok (hw.putRecord (hroom ▸ Lmdb.Limits.unlimited_suffice 0) hput)]
    refine List.IsPrefix.trans ?_
      (extends_bind (R := Logged) (extends_ensure _ _) (fun _ => OpenFrame.setPc th _) _)
    simp

theorem Writing.openDb_log {id : Nat} {x' : Lmdb.Txn} (th : Nat) (flags : BitVec 32) (h : Writing tt i t x db s)
    (hname : db.name = metadata) (hget : x.get db.id dbname = .error .notFound)
    (hopen : x.dbiOpen dbname (flags ||| mdbCreate) s.env.nextDbi = .ok (id, x')) (hroom : s.env.limits = .unlimited)
    : s.log ++ [.access true, .get dbname (.error .notFound), .access true, .dbiOpen dbname (flags ||| mdbCreate),
          .access true, .put (dbRecord dbname flags).1 (dbRecord dbname flags).2] <+:
        (final ((openDb th tt dbname flags).run s)).log := by
  rw [openDb, bind_of_ok (h.changeTxnDb hname), bind_of_ok (h.trashGet dbname), hget]
  dsimp only
  have hw : Writing tt i t x db
      { s with log := s.log ++ [.access true, .get dbname (.error .notFound)] } :=
    ⟨h.tt, h.rd, h.wr, h.txn, h.db, h.env, h.active, h.rdonly⟩
  rw [bind_of_ok (derefTt_of_some hw.tt), h.rd, if_neg (by simp)]
  have hlog := hw.openDbi_log th flags (or_mdbCreate flags) hopen hroom
  simpa using hlog

end

def metadataTxn : Lmdb.Txn := ⟨false, 0, .active, false, [(metadata, [(metaMeta, [])])], [⟨0, metadata⟩], []⟩

set_option synthInstance.maxSize 400 in
theorem created_writing
    : ∃ s, Lts.run Sys.step (.init []) [.initMetadata 0 fun _ => [], .beginTxn 0 metadata false] = some s ∧
        Writing 1 1 ⟨some 1, false, true, false, false, some 0⟩ metadataTxn ⟨metadata, metadataFlags, 0, 0⟩ s ∧
        s.env.nextDbi = 1 ∧ s.env.limits = .unlimited ∧ s.pc 0 = .idle ∧ (0, 1) ∈ s.out := by
  obtain ⟨s', hrun', hlimits⟩ : ∃ s, Lts.run Sys.step (.init []) [.initMetadata 0 fun _ => [], .beginTxn 0 metadata false] =
      some s ∧ s.env.limits = .unlimited := ⟨_, rfl, rfl⟩
  have hsome : (Lts.run Sys.step (.init []) [.initMetadata 0 fun _ => [], .beginTxn 0 metadata false]).map
      (fun s => (s.tts 1, s.dbs, s.env.txns 1, s.env.nextDbi, s.pc 0, s.out)) =
      some (some ⟨some 1, false, true, false, false, some 0⟩, [⟨metadata, metadataFlags, 0, 0⟩],
        some metadataTxn, 1, .idle, [(0, 1)]) := by
    decide +kernel
  obtain ⟨s, hrun, hs⟩ := Option.map_eq_some_iff.mp hsome
  simp only [Prod.mk.injEq] at hs
  obtain ⟨ht, hdbs, hx, hnext, hpc, hout⟩ := hs
  cases hrun.symm.trans hrun'
  refine ⟨s', hrun, ⟨ht, rfl, rfl, rfl, ⟨0, rfl, by rw [hdbs]; rfl⟩, hx, rfl, rfl⟩, hnext, hlimits, hpc, ?_⟩
  rw [hout]
  exact List.mem_cons_self

theorem Makes.of_openDb {as : List Action} {s : Sys} {th tt : Nat} {dbname : Bytes} {flags : BitVec 32} {c : Call}
    {l : List Call} (hrun : Lts.run Sys.step (.init []) as = some s) (hidle : s.pc th = .idle)
    (hout : (th, tt) ∈ s.out) (hlog : s.log ++ l <+: (final ((openDb th tt dbname flags).run s)).log) (hc : c ∈ l)
    : Makes dbname c := by
  refine ⟨[], as, s, .openDb th tt dbname flags, hrun, rfl, ?_⟩
  have hholds : (holds th tt).run s = .ok () s := holds_eq_ok.mpr ⟨hidle, hout, rfl⟩
  rw [exec, bind_of_ok hholds, final_bind_pure]
  obtain ⟨l', hl'⟩ := hlog
  rw [← hl', List.append_assoc, List.drop_left]
  exact List.mem_append_left _ hc

theorem reads_self (dbname : Bytes) : ReadsKey dbname dbname := by
  obtain ⟨s, hrun, hw, -, -, hidle, hout⟩ := created_writing
  exact ⟨metadataTxn.get 0 dbname, .of_openDb hrun hidle hout (hw.openDb_get 0 dbname 0 rfl) (by simp)⟩

theorem writes_metaMeta : WritesKey metaMeta (dbKeyName metaMeta) := by
  have hany : (Lts.run Sys.step (.init []) [.initMetadata 0 fun _ => [], .beginTxn 0 metadata false,
      .trashPut 0 1 metaMeta (flagsBytes mdbCreate) 0 .plain]).any (fun s =>
        ((final ((exec (.openDb 0 1 metaMeta mdbCreate)).run s)).log.drop s.log.length).any fun c =>
          c.puts (dbKeyName metaMeta)) = true := by
    decide +kernel
  obtain ⟨s, hrun, hs⟩ := (Option.any_eq_true _ _).mp hany
  obtain ⟨c, hc, hputs⟩ := List.any_eq_true.mp hs
  cases c with
  | put key val =>
    obtain rfl : key = dbKeyName metaMeta := by simpa [Call.puts] using hputs
    exact ⟨val, [], _, s, _, hrun, rfl, hc⟩
  | _ => cases hputs

theorem writes_self {dbname : Bytes} (hne : dbname ≠ []) (hlen : dbname.length ≤ 256)
    : WritesKey dbname (dbKeyName dbname) := by
  by_cases hmeta : dbname = metaMeta
  . rw [hmeta]
    exact writes_metaMeta
  obtain ⟨s, hrun, hw, hnext, hroom, hidle, hout⟩ := created_writing
  have hget : metadataTxn.get 0 dbname = .error .notFound := by
    have hlookup : [(metaMeta, ([] : Bytes))].lookup dbname = none := by
      rw [List.lookup_cons, beq_eq_false_iff_ne.mpr hmeta]
      rfl
    simp [Lmdb.Txn.get, Lmdb.Txn.handle, Lmdb.Txn.known, Lmdb.Txn.usable, metadataTxn, hne, hlookup]
  obtain ⟨id, x', hopen⟩ : ∃ id x', metadataTxn.dbiOpen dbname (0 ||| mdbCreate) s.env.nextDbi = .ok (id, x') := by
    by_cases hmetadata : dbname = metadata
    . rw [hmetadata]
      exact ⟨_, _, rfl⟩
    . have hknown : ∀ d ∈ metadataTxn.known, d.name ≠ dbname := by
        simpa [Lmdb.Txn.known, metadataTxn] using Ne.symm hmetadata
      exact ⟨_, _, Lmdb.Txn.dbiOpen_create dbname (0 ||| mdbCreate) _ rfl rfl rfl (by decide) (by decide) hknown hne
        (by omega)⟩
  refine ⟨(dbRecord dbname 0).2, .of_openDb hrun hidle hout (hw.openDb_log 0 0 rfl hget hopen hroom) ?_⟩
  simp [dbRecord]

theorem trashGet_nil {tt : Nat} {s s' : Sys} {res : Except Lmdb.Rc Bytes} (hrun : (trashGet tt []).run s = .ok res s')
    : ∃ rc, res = .error rc ∧ rc ≠ .notFound := by
  obtain ⟨t, s₁, -, hrest⟩ := bind_eq_ok.mp hrun
  obtain ⟨db, s₂, -, hget⟩ := bind_eq_ok.mp hrest
  obtain ⟨⟨i, x⟩, s₃, -, hcall⟩ := bind_eq_ok.mp hget
  obtain ⟨_, s₄, -, hpure⟩ := bind_eq_ok.mp hcall
  cases hpure
  exact Lmdb.Txn.get_nil x db.id

theorem openDb_nil (th tt : Nat) (flags : BitVec 32) (s : Sys)
    : ∃ e s', (openDb th tt [] flags).run s = .error e s' ∧ Keyed (fun _ => True) (fun _ => False) s s' := by
  have hchange := TxnFrame.changeTxnDb (R := Keyed (fun _ => True) fun _ => False) tt metadata
  have hget : Extends (Keyed (fun _ => True) fun _ => False) (trashGet tt []) :=
    TxnFrame.trashGet tt fun s _ => Keyed.call s trivial
  cases hrun : (changeTxnDb tt metadata).run s with
  | error e s₁ =>
    have hs₁ := hchange s
    rw [hrun] at hs₁
    exact ⟨e, s₁, bind_of_error hrun, hs₁⟩
  | ok rc s₁ =>
    have hs₁ := hchange.of_run hrun
    cases hrun' : (trashGet tt []).run s₁ with
    | error e s₂ =>
      have hs₂ := hget s₁
      rw [hrun'] at hs₂
      refine ⟨e, s₂, ?_, IsTrans.trans _ _ _ hs₁ hs₂⟩
      rw [openDb, bind_of_ok hrun, bind_of_error hrun']
    | ok res s₂ =>
      obtain ⟨rc', rfl, hrc⟩ := trashGet_nil hrun'
      refine ⟨.assertFailed .get, s₂, ?_, IsTrans.trans _ _ _ hs₁ (hget.of_run hrun')⟩
      rw [openDb, bind_of_ok hrun, bind_of_ok hrun']
      cases rc' with
      | notFound => exact absurd rfl hrc
      | _ => rfl

def SamePc (s s' : Sys) : Prop := s'.pc = s.pc

namespace SamePc

instance : AddFrame SamePc where
  refl _ := rfl
  trans _ _ _ h h' := h'.trans h
  env _ _ := rfl
  log _ _ _ := rfl
  tts _ _ _ := rfl
  out _ _ := rfl
  count _ _ _ _ := rfl
  pool _ _ _ _ _ := rfl
  add _ _ _ _ := rfl

instance : KeyFrame SamePc where
  key _ _ := rfl

instance : CursorFrame SamePc where
  cursors _ _ _ := rfl

theorem initThreadLocalReaders (th : Nat) : Extends SamePc (initThreadLocalReaders th) := by
  refine extends_bind extends_get fun s => extends_when _ ?_
  refine extends_bind (TxnFrame.createCursor th none) fun curr => ?_
  exact extends_bind (TxnFrame.createReaders th _) fun txns _ => rfl

end SamePc

def NoEmpty (s : Sys) : Prop := ∀ th, (s.pc th).dbname ≠ some []

theorem NoEmpty.step {s s' : Sys} {a : Action} (h : NoEmpty s) (hstep : s.step a = some s') : NoEmpty s' := by
  obtain ⟨r, hrun⟩ := exec_of_step hstep
  have hsame : Extends SamePc (exec a) → NoEmpty s' := by
    intro hexec th
    rw [hexec.of_run hrun]
    exact h th
  have hopens : ∀ {th dbname}, dbname ≠ [] → Opens th dbname s s' → NoEmpty s' := by
    intro th dbname hne hs th'
    by_cases hth : th' = th
    . rw [hth]
      rcases hs.self with hsame | hname
      . rw [hsame]
        exact h th
      . rw [hname]
        exact fun heq => hne (Option.some.inj heq)
    . rw [hs.other th' hth]
      exact h th'
  cases a with
  | openDb th tt dbname flags =>
    obtain ⟨-, -, hrest⟩ := holds_bind_eq_ok.mp hrun
    obtain ⟨_, s₂, hopen, hpure⟩ := bind_eq_ok.mp hrest
    cases hpure
    by_cases hne : dbname = []
    . obtain ⟨e, s₃, herror, -⟩ := openDb_nil th tt flags s
      rw [hne, herror] at hopen
      cases hopen
    . exact hopens hne ((Opens.openDb flags).of_run hopen)
  | resume th =>
    obtain ⟨_, s₁, hresume, hpure⟩ := bind_eq_ok.mp hrun
    cases hpure
    obtain ⟨dbname, hname, hs | ⟨tts, db, -, rfl⟩⟩ := Opens.of_openDbResume hresume
    . refine hopens ?_ hs
      rintro rfl
      exact h th hname
    . intro th'
      dsimp only
      rw [update_apply]
      split
      . nofun
      . exact h th'
  | initMetadata th after =>
    refine hsame (extends_bind (LmdbFrame.ready th) fun _ => ?_)
    exact extends_bind (AddFrame.initMetadata th after) fun _ => extends_pure _
  | initThreadLocalReaders th =>
    refine hsame (extends_bind (LmdbFrame.ready th) fun _ => ?_)
    exact extends_bind (SamePc.initThreadLocalReaders th) fun _ => extends_pure _
  | _ => exact hsame (CursorFrame.exec rfl)

theorem not_writes_nil (key : Bytes) : ¬WritesKey [] key := by
  rintro ⟨val, data, as, s, a, hrun, ha, hc⟩
  have hinit : NoEmpty (.init data) := by
    intro th hname
    cases hname
  have hempty : NoEmpty s := Lts.invariant_run (fun _ _ _ => NoEmpty.step) hinit hrun
  cases a with
  | openDb th tt dbname flags =>
    cases ha
    have hkeyed : Keyed (fun _ => True) (fun _ => False) s (final ((exec (.openDb th tt [] flags)).run s)) := by
      refine extends_bind (LmdbFrame.holds th tt) (fun _ => ?_) s
      refine extends_bind (fun s => ?_) fun _ => extends_pure _
      obtain ⟨e, s', herror, hs'⟩ := openDb_nil th tt flags s
      rw [herror]
      exact hs'
    exact hkeyed.fits_of_mem_drop hc
  | resume th => exact hempty th ha
  | _ => cases ha

/--
The records that `open_db` reads and writes for the first database are not the one it writes for the second, nor
the one of the metadata itself, and the name is not cut off in its key.
-/
structure Separate (dbname other : Bytes) : Prop where
  reads : ∀ key, ReadsKey dbname key → ¬WritesKey other key ∧ key ≠ metaMeta
  writes : ∀ key, WritesKey dbname key → ¬WritesKey other key ∧ key ≠ metaMeta ∧ key = dbPrefix ++ dbname

theorem dbKeyName_eq (dbname : Bytes) : dbKeyName dbname = dbPrefix ++ dbname.take 251 := by
  rw [dbKeyName, List.take_append]
  rfl

theorem dbKeyName_ne_metaMeta (dbname : Bytes) : dbKeyName dbname ≠ metaMeta := by
  rw [dbKeyName_eq]
  intro h
  have hhead := congrArg List.head? h
  simp [dbPrefix, metaMeta] at hhead

theorem dbKeyName_eq_iff (dbname : Bytes) : dbKeyName dbname = dbPrefix ++ dbname ↔ dbname.length ≤ 251 := by
  rw [dbKeyName_eq, List.append_cancel_left_eq]
  constructor
  . intro htake
    rw [← htake]
    exact List.length_take_le 251 dbname
  . exact List.take_of_length_le

theorem separate_iff {dbname other : Bytes} (hlen : dbname.length ≤ 256) (hother : other.length ≤ 256)
    : Separate dbname other ↔ dbname ≠ metaMeta ∧ dbname.length ≤ 251 ∧
        (other = [] ∨ dbname ≠ dbPrefix ++ other.take 251 ∧ dbname ≠ other.take 251) := by
  constructor
  . intro h
    refine ⟨(h.reads dbname (reads_self dbname)).2, ?_, ?_⟩
    . by_cases hnil : dbname = []
      . rw [hnil]
        exact Nat.zero_le 251
      . exact (dbKeyName_eq_iff dbname).mp (h.writes _ (writes_self hnil hlen)).2.2
    . by_cases hnil : other = []
      . exact .inl hnil
      have hwrites := writes_self hnil hother
      rw [dbKeyName_eq] at hwrites
      refine .inr ⟨?_, ?_⟩
      . rintro rfl
        exact (h.reads _ (reads_self _)).1 hwrites
      . rintro rfl
        have hself : WritesKey (other.take 251) (dbPrefix ++ other.take 251) := by
          have hself := writes_self (by simpa using hnil) hlen
          rwa [dbKeyName_eq, List.take_take, Nat.min_self] at hself
        exact (h.writes _ hself).1 hwrites
  . rintro ⟨hmeta, hshort, hrecord⟩
    have hwrites : ∀ key, WritesKey other key → key ≠ dbname ∧ key ≠ dbKeyName dbname := by
      intro key hkey
      rcases hrecord with rfl | ⟨hread, hwrite⟩
      . exact absurd hkey (not_writes_nil key)
      . rw [hkey.key_eq, dbKeyName_eq, dbKeyName_eq, List.take_of_length_le hshort]
        exact ⟨hread.symm, fun heq => hwrite (List.append_cancel_left heq).symm⟩
    constructor
    . intro key hkey
      rw [hkey.key_eq]
      exact ⟨fun hwrite => (hwrites _ hwrite).1 rfl, hmeta⟩
    . intro key hkey
      rw [hkey.key_eq]
      exact ⟨fun hwrite => (hwrites _ hwrite).2 rfl, dbKeyName_ne_metaMeta dbname,
        (dbKeyName_eq_iff dbname).mpr hshort⟩

theorem separate_letters : Separate [0x61] [0x62] := (separate_iff (by decide) (by decide)).mpr (by decide)

/--
The record of "a" is what `open_db` reads for "dbs:a".
-/
theorem not_separate_prefix
    : ¬∀ dbname other : Bytes, dbname ≠ other → 0 ∉ dbname → 0 ∉ other → dbname.length ≤ 256 →
        other.length ≤ 256 → Separate dbname other := by
  intro h
  have hseparate := h (dbPrefix ++ [0x61]) [0x61] (by decide) (by decide) (by decide) (by decide) (by decide)
  have hwrites : WritesKey [0x61] (dbKeyName [0x61]) := writes_self (by decide) (by decide)
  exact (hseparate.reads _ (reads_self _)).1 hwrites

end Db
