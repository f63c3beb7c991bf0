import TrashDb.Db.Lemmas.Readers
import TrashDb.Db.Lemmas.Writes

/-!
This module contains when `begin_txn` followed by `return_txn` leaves everything as it was: the counter of the
database goes up in `change_txn_db` only if the transaction was not set to it, and always goes down in
`return_txn`.
-/

namespace Db

open Prog Function

structure Tidy (s s' : Sys) : Prop where
  counts : s.Counts → s'.Counts
  pools : ∀ th, s.rdrPool th = none → s'.rdrPool th = none
  capacity : s'.capacity = s.capacity

namespace Tidy

instance : IsTrans Sys Tidy := by
  constructor
  intro a b c h h'
  exact ⟨fun hc => h'.counts (h.counts hc), fun th hp => h'.pools th (h.pools th hp), h'.capacity.trans h.capacity⟩

theorem of_framed {s s' : Sys} (h : Framed s s') : Tidy s s' := ⟨h.counts, h.pools, h.capacity⟩

instance : AddFrame Tidy where
  toTxnFrame := .of_le fun _ _ => of_framed
  add s dbname dbi flags := by
    refine ⟨?_, fun _ => id, rfl⟩
    intro hcounts db hdb
    rcases List.mem_append.mp hdb with hmem | hmem
    . exact hcounts db hmem
    . rw [List.mem_singleton.mp hmem]
      exact Nat.two_pow_pos 32

instance : OpenFrame Tidy where
  pc _ _ := ⟨id, fun _ => id, rfl⟩

instance : KeyFrame Tidy where
  key s c := of_framed (KeyFrame.key s c)

instance : CursorFrame Tidy where
  cursors _ _ _ := ⟨id, fun _ => id, rfl⟩

theorem exec {a : Action} (ha : ∀ th, a ≠ .initThreadLocalReaders th) : Extends Tidy (exec a) := by
  cases a with
  | initThreadLocalReaders th => exact absurd rfl (ha th)
  | initMetadata th after =>
    refine extends_bind (LmdbFrame.ready th) fun _ => ?_
    exact extends_bind (AddFrame.initMetadata th after) fun _ => extends_pure _
  | createCursor th tt => exact CursorFrame.exec rfl
  | returnCursor th c => exact CursorFrame.exec rfl
  | _ => exact OpenFrame.exec rfl rfl

end Tidy

/--
The read transaction of the cursor is still active when the ones of the pool begin.
-/
theorem initThreadLocalReaders_stops {s s' : Sys} {th : Nat} {u : Unit} (hpool : s.rdrPool th = none)
    (hcapacity : 0 < s.capacity)
    : (initThreadLocalReaders th).run s ≠ .ok u s' := by
  intro hrun
  rw [initThreadLocalReaders, bind_of_ok (EStateM.run_get s), hpool] at hrun
  obtain ⟨curr, s₁, hcursor, hrest⟩ := bind_eq_ok.mp hrun
  obtain ⟨txns, s₂, hreaders, -⟩ := bind_eq_ok.mp hrest
  obtain ⟨tt, s₀, hget, hopen⟩ := bind_eq_ok.mp hcursor
  have halike := (Alike.createCursor th tt).of_run hopen
  obtain ⟨⟨i, hslot⟩, -⟩ := internalGetReadTxn_new hpool hget
  obtain ⟨n, hn⟩ := Nat.exists_eq_add_one.mpr hcapacity
  have hslot₁ : s₁.env.slots th = some i := by
    rw [halike.slots]
    exact hslot
  obtain ⟨s₃, herror⟩ := createReaders_clash (n := n) hslot₁
  rw [hn, herror] at hreaders
  cases hreaders

/--
The states that begin from `open_env` and any calls, and those that begin from a pool of the thread and its own
calls.
-/
inductive Reached (th : Nat) (s : Sys) : Prop where
  | openEnv {data : Lmdb.Data} {as : List Action} (hrun : Lts.run Sys.step (.init data) as = some s)
  | pool {n : Nat} {rdrs : Readers} {s₀ : Sys} {as : List Action} (hfull : FullPool th n rdrs s₀)
      (hcounts : s₀.Counts) (has : ∀ a ∈ as, a.usesReaders th = true) (hrun : Lts.run Sys.step s₀ as = some s)

structure Sound (th : Nat) (s : Sys) : Prop where
  counts : s.Counts
  pool : ∀ rdrs, s.rdrPool th = some rdrs → rdrs.txns.length ≤ s.capacity ∧
    ∀ tt ∈ rdrs.txns, ∃ i, Owns true th tt i .reset s

namespace Sound

variable {th : Nat} {s : Sys}

theorem of_openEnv {data : Lmdb.Data} {as : List Action} (hrun : Lts.run Sys.step (.init data) as = some s)
    : Sound th s := by
  have hstep : ∀ s a s', (s.Counts ∧ (∀ th, s.rdrPool th = none) ∧ 0 < s.capacity) → Sys.step s a = some s' →
      s'.Counts ∧ (∀ th, s'.rdrPool th = none) ∧ 0 < s'.capacity := by
    intro s a s' ⟨hcounts, hpools, hcapacity⟩ hstep
    obtain ⟨r, hexec⟩ := exec_of_step hstep
    by_cases ha : ∃ th, a = .initThreadLocalReaders th
    . obtain ⟨th, rfl⟩ := ha
      obtain ⟨-, hrest⟩ := ready_bind_eq_ok.mp hexec
      obtain ⟨_, s₂, hinit, -⟩ := bind_eq_ok.mp hrest
      exact absurd hinit (initThreadLocalReaders_stops (hpools th) hcapacity)
    . have hs := (Tidy.exec (fun th heq => ha ⟨th, heq⟩)).of_run hexec
      exact ⟨hs.counts hcounts, fun th => hs.pools th (hpools th), hs.capacity ▸ hcapacity⟩
  have hinit : (Sys.init data).Counts := fun _ hdb => absurd hdb List.not_mem_nil
  obtain ⟨hcounts, hpools, -⟩ := Lts.invariant_run hstep ⟨hinit, fun _ => rfl, Nat.zero_lt_one⟩ hrun
  refine ⟨hcounts, fun rdrs hrdrs => ?_⟩
  rw [hpools th] at hrdrs
  cases hrdrs

theorem of_pool {n : Nat} {rdrs : Readers} {s₀ : Sys} {as : List Action} (hfull : FullPool th n rdrs s₀)
    (hcounts : s₀.Counts) (has : ∀ a ∈ as, a.usesReaders th = true) (hrun : Lts.run Sys.step s₀ as = some s)
    : Sound th s := by
  have hstep : ∀ s a s', (s.Counts ∧ Conserving th n s) → a.usesReaders th = true → Sys.step s a = some s' →
      s'.Counts ∧ Conserving th n s' := by
    intro s a s' ⟨hcounts, hs⟩ ha hstep
    refine ⟨?_, hs.step ha hstep⟩
    obtain ⟨r, hexec⟩ := exec_of_step hstep
    refine ((Tidy.exec ?_).of_run hexec).counts hcounts
    rintro th' rfl
    cases ha
  obtain ⟨hcounts', rdrs', hkept, -⟩ := Lts.invariant_along hstep ⟨hcounts, hfull.conserving⟩
    (Lts.along_of_forall has) hrun
  refine ⟨hcounts', fun rdrs hrdrs => ?_⟩
  rw [hkept.pool] at hrdrs
  cases hrdrs
  refine ⟨?_, hkept.free⟩
  have hlength := hkept.lend.length
  rw [List.length_append, ← hkept.capacity] at hlength
  omega

theorem of_reached (h : Reached th s) : Sound th s := by
  cases h with
  | openEnv hrun => exact of_openEnv hrun
  | pool hfull hcounts has hrun => exact of_pool hfull hcounts has hrun

end Sound

/--
After `begin_txn` has handed out `tt`, `return_txn` returns and leaves the pools, the counters and the stored data
as they were before.
-/
def Neutral (th tt : Nat) (s s₁ : Sys) : Prop :=
  ∃ s₂, (returnTxn th tt).run s₁ = .ok () s₂ ∧ s₂.rdrPool = s.rdrPool ∧ s₂.dbs = s.dbs ∧ s₂.env.data = s.env.data

/--
The thread has a pool, and the transaction that it takes from there was not set to that database.
-/
def Sys.Unset (s : Sys) (th : Nat) (dbname : Bytes) : Prop :=
  ∃ c tt txns t, s.rdrPool th = some ⟨c, tt :: txns⟩ ∧ s.tts tt = some t ∧
    dbMatch (t.db.bind (s.dbs[·]?)) dbname = false

theorem modify_count {dbs : List OpenDb} (hcounts : ∀ db ∈ dbs, db.count < 2 ^ 32) (d : Nat)
    : ((dbs.modify d fun db => { db with count := Word.add32 db.count 1 }).modify d fun db =>
        { db with count := Word.sub32 db.count 1 }) = dbs := by
  apply List.ext_getElem?
  intro i
  rw [List.getElem?_modify, List.getElem?_modify]
  cases hdb : dbs[i]? with
  | none => rfl
  | some db =>
    split
    . simp [Word.sub32_add32_one (hcounts db (List.mem_of_getElem? hdb))]
    . rfl

theorem modify_count_ne {dbs : List OpenDb} {d : Nat} {db : OpenDb} (hcounts : ∀ db ∈ dbs, db.count < 2 ^ 32)
    (hd : dbs[d]? = some db)
    : (dbs.modify d fun db => { db with count := Word.sub32 db.count 1 }) ≠ dbs := by
  intro heq
  have hget : (dbs.modify d fun db => { db with count := Word.sub32 db.count 1 })[d]? = dbs[d]? := by rw [heq]
  rw [List.getElem?_modify, hd] at hget
  have hcount := congrArg OpenDb.count (Option.some.inj hget)
  dsimp only at hcount
  rw [if_pos rfl] at hcount
  exact Word.sub32_one_ne (hcounts db (List.mem_of_getElem? hd)) hcount

section

variable {s s₁ : Sys} {th tt : Nat} {dbname : Bytes} {rc : TrashRc}

theorem registered_iff {d? : Option Nat} (hd : s.dbs.findIdx? (fun db => dbMatch (some db) dbname) = d?)
    : (∃ db ∈ s.dbs, db.name = dbname) ↔ d?.isSome = true := by
  rw [← hd, List.findIdx?_isSome, List.any_eq_true]
  simp [dbMatch]

theorem neutral_write (hcounts : s.Counts) (hbegin : (beginTxn th dbname false).run s = .ok (rc, tt) s₁)
    : Neutral th tt s s₁ ↔ ∃ db ∈ s.dbs, db.name = dbname := by
  cases hwriter : s.env.writer with
  | some j =>
    rw [beginTxn, bind_of_error (internalBeginTxn_busy hwriter)] at hbegin
    cases hbegin
  | none =>
    have hrun := hbegin
    rw [beginTxn_write hwriter] at hrun
    split at hrun
    . next d hd =>
      cases hrun
      rw [registered_iff hd]
      refine iff_of_true ?_ rfl
      obtain ⟨t, db, hw, hcommit, hdata, -⟩ := writing_of_beginTxn hbegin
      obtain ⟨s₂, hreturn, hdata₂, -⟩ := hw.returnTxn th (by simp [hcommit])
      obtain ⟨e, l, -, -, hs₂⟩ := returnTxn_write hw.tt hw.rd hw.wr hw.txn hw.env hw.active hreturn
      have ht := hw.tt
      dsimp only [Sys.use] at ht
      rw [update_self] at ht
      cases ht
      refine ⟨s₂, hreturn, ?_, ?_, ?_⟩
      . rw [hs₂]
        rfl
      . rw [hs₂]
        exact modify_count hcounts d
      . rw [hdata₂, if_neg (by simp)]
        exact hdata
    . next hd =>
      cases hrun
      rw [registered_iff hd]
      refine iff_of_false ?_ (by simp)
      rintro ⟨s₂, hreturn, -⟩
      have ht : ((s.begun th).handOut th s.nextTt).tts s.nextTt = some _ := begun_tts s th
      obtain ⟨e, l, -, ⟨d, db, hdb, -⟩, -⟩ := returnTxn_write ht rfl rfl rfl (update_self _ _ _) rfl hreturn
      cases hdb

theorem endTxn_eq_ok {t : TrashTxn} (hend : (endTxn tt).run s = .ok t s₁)
    : ∃ t₀, s.tts tt = some t₀ ∧ t = { t₀ with commit := false } := by
  obtain ⟨t₀, _, hderef, hrest⟩ := bind_eq_ok.mp hend
  obtain ⟨ht₀, rfl⟩ := derefTt_eq_ok.mp hderef
  refine ⟨t₀, ht₀, ?_⟩
  split at hrest
  . obtain ⟨_, _, -, hrest⟩ := bind_eq_ok.mp hrest
    obtain ⟨_, _, -, hrest⟩ := bind_eq_ok.mp hrest
    obtain ⟨_, _, -, hrest⟩ := bind_eq_ok.mp hrest
    cases hrest
    rfl
  . next hcommit =>
    obtain ⟨_, _, -, hrest⟩ := bind_eq_ok.mp hrest
    obtain ⟨_, _, -, hrest⟩ := bind_eq_ok.mp hrest
    cases hrest
    rw [Bool.not_eq_true] at hcommit
    rw [← hcommit]

theorem not_neutral_read (hpool : s.rdrPool th = none)
    (hbegin : (beginTxn th dbname true).run s = .ok (rc, tt) s₁)
    : ¬Neutral th tt s s₁ := by
  rintro ⟨s₂, hreturn, -⟩
  obtain ⟨tt', s₀, hget, hrest⟩ := bind_eq_ok.mp hbegin
  obtain ⟨_, _, hout, hrest⟩ := bind_eq_ok.mp hrest
  cases hout
  obtain ⟨rc', s', hchange, hpure⟩ := bind_eq_ok.mp hrest
  cases hpure
  obtain ⟨-, hpool₀, txn, ht₀⟩ := internalGetReadTxn_new hpool hget
  have halike := (Alike.changeTxnDb tt dbname).of_run hchange
  obtain ⟨t, s₃, hend, htail⟩ := bind_eq_ok.mp hreturn
  have hpool₃ : s₃.rdrPool th = none :=
    ((TxnFrame.endTxn (R := Framed) tt).of_run hend).pools th (by rw [halike.rdrPool, ← hpool₀])
  obtain ⟨t', ht', rfl⟩ := endTxn_eq_ok hend
  obtain ⟨t₀, ht₀', hcore⟩ := halike.tt_of_some ht'
  cases ht₀.symm.trans ht₀'
  simp only [TrashTxn.core, Prod.mk.injEq] at hcore
  obtain ⟨-, hrd, -, hdontFin, -⟩ := hcore
  rw [← hrd, ← hdontFin, Bool.and_false, if_neg (by simp), giveBack, bind_of_ok (EStateM.run_modify _ _),
    when_true] at htail
  obtain ⟨_, s₄, hback, -⟩ := bind_eq_ok.mp htail
  rw [returnToPool, bind_of_ok (EStateM.run_get _)] at hback
  dsimp only at hback
  rw [hpool₃] at hback
  cases hback

theorem neutral_pooled {t : TrashTxn} {x : Lmdb.Txn} {i c : Nat} {txns : List Nat} (ht : s₁.tts tt = some t)
    (hrd : t.rd = true) (hwr : t.wr = false) (hcommit : t.commit = false) (hdontFin : t.dontFin = false)
    (hi : t.txn = some i) (hx : s₁.env.txns i = some x) (hactive : x.state = .active)
    (hpool : s.rdrPool th = some ⟨c, tt :: txns⟩)
    (hpool₁ : s₁.rdrPool = update s.rdrPool th (some ⟨c, txns⟩)) (hroom : txns.length < s₁.capacity)
    (hdata : s₁.env.data = s.env.data)
    : Neutral th tt s s₁ ↔ ∃ d db, t.db = some d ∧ s₁.dbs[d]? = some db ∧
        (s₁.dbs.modify d fun db => { db with count := Word.sub32 db.count 1 }) = s.dbs := by
  have hpool_th : s₁.rdrPool th = some ⟨c, txns⟩ := by
    rw [hpool₁]
    exact update_self _ _ _
  have hended : x.state ≠ .ended := by
    rw [hactive]
    nofun
  have hreturn := returnTxn_pooled th ht hrd hwr hcommit hi hx hended hdontFin hpool_th hroom
  constructor
  . rintro ⟨s₂, hrun, -, hdbs, -⟩
    rw [hreturn] at hrun
    obtain ⟨⟨d, db, hd, hdb⟩, rfl⟩ := releaseDb_cases hrun
    refine ⟨d, db, hd, hdb, ?_⟩
    rw [← hdbs, hd]
    rfl
  . rintro ⟨d, db, hd, hdb, hdbs⟩
    refine ⟨_, hreturn.trans (releaseDb_of_some hd hdb), ?_, hdbs, ?_⟩
    . dsimp only
      rw [hpool₁, update_idem, ← hpool, update_eq_self]
    . exact (Lmdb.Env.finish_data _ _ _ _).trans hdata

theorem neutral_read {rdrs : Readers} (hs : Sound th s) (hpool : s.rdrPool th = some rdrs)
    (hbegin : (beginTxn th dbname true).run s = .ok (rc, tt) s₁)
    : Neutral th tt s s₁ ↔ (∃ db ∈ s.dbs, db.name = dbname) ∧ s.Unset th dbname := by
  obtain ⟨hlength, hfree⟩ := hs.pool rdrs hpool
  obtain ⟨txns, i, hrdrs, hi, hchange⟩ := beginTxn_pooled hpool hfree hbegin
  obtain ⟨t, x, ht, ⟨htxn, hrd, hwr, hdontFin, hcommit⟩, hx, -⟩ := hi.states
  dsimp only at hrdrs hchange
  have hroom : txns.length < s.capacity := by
    rw [hrdrs] at hlength
    exact hlength
  rw [hrdrs] at hpool
  have hunset : s.Unset th dbname ↔ dbMatch (t.db.bind (s.dbs[·]?)) dbname = false := by
    constructor
    . rintro ⟨c, tt', txns', t', hpool', ht', hmatch⟩
      cases hpool.symm.trans hpool'
      cases ht.symm.trans ht'
      exact hmatch
    . exact fun hmatch => ⟨rdrs.iCurr, tt, txns, t, hpool, ht, hmatch⟩
  rw [hunset]
  have ht₁ : ((s.taken th i ⟨rdrs.iCurr, txns⟩).handOut th tt).tts tt = some t := ht
  have hx₁ : ((s.taken th i ⟨rdrs.iCurr, txns⟩).handOut th tt).env.txns i = some (s.env.newTxn th true) :=
    update_self _ _ _
  cases hmatch : dbMatch (t.db.bind (s.dbs[·]?)) dbname with
  | true =>
    -- the counter is not raised
    cases (changeTxnDb_same ht₁ hmatch).symm.trans hchange
    rw [neutral_pooled ht₁ hrd hwr hcommit hdontFin htxn hx₁ rfl hpool rfl hroom rfl]
    refine iff_of_false ?_ (by simp)
    rintro ⟨d, db, -, hdb, heq⟩
    exact modify_count_ne hs.counts hdb heq
  | false =>
    cases hd : s.dbs.findIdx? fun db => dbMatch (some db) dbname with
    | some d =>
      cases (changeTxnDb_found ht₁ hmatch hd).symm.trans hchange
      have ht₂ : (((s.taken th i ⟨rdrs.iCurr, txns⟩).handOut th tt).use tt d t).tts tt =
          some { t with db := some d } :=
        update_self _ _ _
      have hx₂ : (((s.taken th i ⟨rdrs.iCurr, txns⟩).handOut th tt).use tt d t).env.txns i =
          some (s.env.newTxn th true) :=
        hx₁
      rw [neutral_pooled ht₂ hrd hwr hcommit hdontFin htxn hx₂ rfl hpool rfl hroom rfl, registered_iff hd]
      refine iff_of_true ?_ ⟨rfl, rfl⟩
      obtain ⟨hlt, -⟩ := List.findIdx?_eq_some_iff_getElem.mp hd
      rw [← List.length_modify] at hlt
      exact ⟨d, _, rfl, List.getElem?_eq_getElem hlt, modify_count hs.counts d⟩
    | none =>
      cases (changeTxnDb_unknown ht₁ hmatch hd).symm.trans hchange
      rw [neutral_pooled ht₁ hrd hwr hcommit hdontFin htxn hx₁ rfl hpool rfl hroom rfl,
        registered_iff hd]
      refine iff_of_false ?_ (by simp)
      rintro ⟨d, db, -, hdb, heq⟩
      exact modify_count_ne hs.counts hdb heq

theorem neutral_iff {rd : Bool} (hreached : Reached th s)
    (hbegin : (beginTxn th dbname rd).run s = .ok (rc, tt) s₁)
    : Neutral th tt s s₁ ↔ (∃ db ∈ s.dbs, db.name = dbname) ∧ (rd = true → s.Unset th dbname) := by
  have hs := Sound.of_reached hreached
  cases rd with
  | false => simpa using neutral_write hs.counts hbegin
  | true =>
    cases hpool : s.rdrPool th with
    | some rdrs => simpa using neutral_read hs hpool hbegin
    | none =>
      refine iff_of_false (not_neutral_read hpool hbegin) ?_
      rintro ⟨-, hunset⟩
      obtain ⟨c, tt', txns, t, hpool', -⟩ := hunset rfl
      cases hpool.symm.trans hpool'

end

theorem beginTxn_returns {s : Sys} (th : Nat) (dbname : Bytes) (hwriter : s.env.writer = none)
    : ∃ rc s₁, (beginTxn th dbname false).run s = .ok (rc, s.nextTt) s₁ := by
  rw [beginTxn_write hwriter]
  split
  . exact ⟨_, _, rfl⟩
  . exact ⟨_, _, rfl⟩

theorem created
    : ∃ s, Lts.run Sys.step (.init []) [.initMetadata 0 fun _ => []] = some s ∧
        s.dbs.map OpenDb.name = [metadata] ∧ s.env.writer = none := by
  have hsome : (Lts.run Sys.step (.init []) [.initMetadata 0 fun _ => []]).map
      (fun s => (s.dbs.map OpenDb.name, s.env.writer)) = some ([metadata], none) := by
    decide +kernel
  obtain ⟨s, hrun, hs⟩ := Option.map_eq_some_iff.mp hsome
  obtain ⟨hnames, hwriter⟩ := Prod.mk.inj hs
  exact ⟨s, hrun, hnames, hwriter⟩

/--
A write transaction for the metadata of a new file, and a read transaction from the pool.
-/
theorem neutral_metadata
    : (∃ s s₁ rc tt, Reached 0 s ∧ (beginTxn 0 metadata false).run s = .ok (rc, tt) s₁ ∧ Neutral 0 tt s s₁) ∧
        ∃ s₁ rc tt, Reached 0 twoReaders ∧ (beginTxn 0 metadata true).run twoReaders = .ok (rc, tt) s₁ ∧
          Neutral 0 tt twoReaders s₁ := by
  constructor
  . obtain ⟨s, hrun, hnames, hwriter⟩ := created
    have hdb : ∃ db ∈ s.dbs, db.name = metadata := by
      rw [← List.mem_map, hnames]
      exact List.mem_cons_self
    obtain ⟨rc, s₁, hbegin⟩ := beginTxn_returns 0 metadata hwriter
    have hreached : Reached 0 s := .openEnv hrun
    exact ⟨s, s₁, rc, s.nextTt, hreached, hbegin, (neutral_iff hreached hbegin).mpr ⟨hdb, nofun⟩⟩
  . have hcounts : ∀ db ∈ twoReaders.dbs, db.count < 2 ^ 32 := by decide
    have hrun : Lts.run Sys.step twoReaders [] = some twoReaders := rfl
    have hreached : Reached 0 twoReaders := .pool twoReaders_full hcounts (fun _ h => absurd h List.not_mem_nil) hrun
    obtain ⟨s₁, hbegin⟩ : ∃ s₁, (beginTxn 0 metadata true).run twoReaders = .ok (.success, 0) s₁ := ⟨_, rfl⟩
    refine ⟨s₁, _, _, hreached, hbegin, (neutral_iff hreached hbegin).mpr ⟨⟨_, List.mem_cons_self, rfl⟩, ?_⟩⟩
    exact fun _ => ⟨0, 0, [1], _, rfl, rfl, rfl⟩

/--
The transaction of an unknown database has none that it could give up.
-/
theorem not_neutral_unknown
    : ¬∀ th tt dbname rd rc s s₁, Reached th s → (beginTxn th dbname rd).run s = .ok (rc, tt) s₁ →
        Neutral th tt s s₁ := by
  intro h
  obtain ⟨s, hrun, hnames, hwriter⟩ := created
  have hdb : ¬∃ db ∈ s.dbs, db.name = [0x61] := by
    rw [← List.mem_map, hnames]
    decide
  obtain ⟨rc, s₁, hbegin⟩ := beginTxn_returns 0 [0x61] hwriter
  have hs : Sound 0 s := Sound.of_openEnv hrun
  exact hdb ((neutral_write hs.counts hbegin).mp (h 0 _ _ _ _ s s₁ (.openEnv hrun) hbegin))

end Db
