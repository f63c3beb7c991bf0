import TrashDb.Db.Lemmas.Isolation
import TrashDb.Db.Lemmas.Backed
import TrashDb.Db.Lemmas.Neutral
import TrashDb.Db.Lemmas.Persist

/-!
This module contains what a transaction sees: the data that was committed when it began, and its own writes. A
read transaction sees a snapshot, whatever the other threads commit in the meantime.
-/

namespace Lmdb

open Db

/--
The value of a key in the database of that name.
-/
def Data.read (data : Data) (name key : Bytes) : Except Rc Bytes :=
  match ((data.lookup name).getD []).lookup key with
  | none => .error .notFound
  | some val => .ok val

theorem Data.put_answer (data : Data) (name key val : Bytes) (l : Limits) (n : Nat)
    : data.put name key val (l.answer n) = data.put name key val .plain := by
  unfold Limits.answer
  split <;> rfl

theorem Txn.get_eq (x : Txn) (dbi : Nat) (key : Bytes)
    : x.get dbi key =
        if (x.handle dbi).isNone then
          .error .einval
        else if !x.usable then
          .error .badTxn
        else if key = [] then
          .error .badValsize
        else
          x.view.read (x.target dbi) key := by
  unfold get target
  cases x.handle dbi <;> rfl

end Lmdb

namespace Db

open Prog Function

/--
What a transaction does to the data.
-/
inductive Write where
  | create (name : Bytes)
  | put (name key val : Bytes) (answer : Lmdb.Answer)
  deriving DecidableEq

def Write.apply (data : Lmdb.Data) : Write → Lmdb.Data
  | .create name => if data.Has name then data else Assoc.put name [] data
  | .put name key val answer => data.put name key val answer

def Pc.written (pc : Pc) : List Write :=
  match pc.stored with
  | none => []
  | some (dbname, dbMeta) => [.create dbname, .put metadata (dbKeyName dbname) (flagsBytes dbMeta) .plain]

theorem UsesMetadata.lmdbOnly {tt : Nat} {s s' : Sys} (h : UsesMetadata tt s) (hs : LmdbOnly s s')
    : UsesMetadata tt s' := by
  obtain ⟨e, l, c, n, rfl⟩ := hs
  exact h

theorem target_metadata {tt : Nat} {s s' : Sys} {key val : Bytes} {flags : BitVec 32} {answer : Lmdb.Answer} (hs : s.Sound)
    (hmetadata : UsesMetadata tt s) (hput : (trashPut tt key val flags answer).run s = .ok (some .success) s')
    : s.target tt = metadata := by
  obtain ⟨hnone, -⟩ | ⟨t, d, db, i, x, rc, x', l, ht, -, hd, hdb, hi, hx, hmdb, hrc, -⟩ := trashPut_cases hput
  . cases hnone
  . cases hrc
    obtain ⟨t', d', db', ht', hd', hdb', hname⟩ := hmetadata
    cases ht.symm.trans ht'
    cases hd.symm.trans hd'
    cases hdb.symm.trans hdb'
    obtain ⟨h, hh⟩ := put_handle hmdb
    have htarget : s.target tt = x.target db.id := by simp [Sys.target, ht, hd, hdb, hi, hx]
    rw [htarget, Lmdb.Txn.target, hh, Option.map_some, Option.getD_some,
      hs.handle_name hx (List.mem_of_getElem? hdb) hh, hname]

theorem dbiOpen_view {x x' : Lmdb.Txn} {name : Bytes} {flags : BitVec 32} {next id : Nat}
    (h : x.dbiOpen name flags next = .ok (id, x')) (hknown : ∀ d ∈ x.known, x.view.Has d.name)
    : x'.failed = x.failed ∧
        x'.view = if flags &&& mdbCreate ≠ 0 then (Write.create name).apply x.view else x.view := by
  have hhas : x.view.Has name → x.view = if flags &&& mdbCreate ≠ 0 then (Write.create name).apply x.view else x.view := by
    intro hhas
    rw [Write.apply, if_pos hhas, ite_self]
  obtain ⟨rfl, d, hd, rfl⟩ | ⟨rfl, hname⟩ | ⟨rfl, hname, -, hcreate⟩ := Lmdb.Txn.dbiOpen_adds h
  . exact ⟨rfl, hhas (hknown d hd)⟩
  . exact ⟨rfl, hhas hname⟩
  . rw [if_pos hcreate, Write.apply, if_neg hname]
    exact ⟨rfl, rfl⟩

def Pc.returns : Pc → Option Nat
  | .commit _ temp _ _ _ => some temp
  | _ => none

def Action.returns (s : Sys) : Action → Option Nat
  | .resume th => (s.pc th).returns
  | .returnTxn _ tt => some tt
  | _ => none

def Action.wrote (s : Sys) (a : Action) : List Write :=
  match a with
  | .trashPut _ tt key val _ answer =>
    match (exec a).run s with
    | .ok (.put (some .success)) _ => [.put (s.target tt) key val answer]
    | _ => []
  | .openDb th _ _ _ => ((s.step a).map fun s' => (s'.pc th).written).getD []
  | .resume th =>
    match (s.pc th).creating with
    | none => []
    | some _ => ((s.step a).map fun s' => (s'.pc th).written).getD []
  | _ => []

structure Regular (s : Sys) : Prop where
  sound : s.Sound
  head : Headed s
  backed : s.env.Backed
  pools : ∀ th, s.rdrPool th = none
  capacity : 0 < s.capacity

namespace Regular

variable {s s' : Sys}

theorem step {a : Action} (h : Regular s) (hstep : s.step a = some s') : Regular s' := by
  have hreaches := reaches_of_step hstep
  obtain ⟨r, hrun⟩ := exec_of_step hstep
  have htidy : Tidy s s' := by
    by_cases ha : ∃ th, a = .initThreadLocalReaders th
    . obtain ⟨th, rfl⟩ := ha
      obtain ⟨-, hrest⟩ := ready_bind_eq_ok.mp hrun
      obtain ⟨_, s₂, hinit, -⟩ := bind_eq_ok.mp hrest
      exact absurd hinit (initThreadLocalReaders_stops (h.pools th) h.capacity)
    . exact (Tidy.exec fun th heq => ha ⟨th, heq⟩).of_run hrun
  exact ⟨hreaches.sound h.sound, hreaches.headed h.head, hreaches.backed h.sound h.backed,
    fun th => htidy.pools th (h.pools th), htidy.capacity ▸ h.capacity⟩

theorem of_run {as : List Action} (h : Regular s) (hrun : Lts.run Sys.step s as = some s') : Regular s' :=
  Lts.invariant_run (fun _ _ _ hs hstep => hs.step hstep) h hrun

theorem openEnv {limits : Lmdb.Limits} {data : Lmdb.Data} {th : Nat} {after : Bytes → Bytes}
    (hstep : (Sys.initWith limits data).step (.initMetadata th after) = some s)
    : Regular s := by
  have hopen := openEnv_of_step hstep
  have hreaches := reaches_of_step hstep
  exact ⟨hreaches.sound (.init limits data), hopen.head,
    hreaches.backed (.init limits data) (backed_init limits data), hopen.pool,
    by rw [hopen.capacity]; exact Nat.one_pos⟩

end Regular

def Sys.active (s : Sys) (tt : Nat) : Bool :=
  (s.tts tt).any fun t => (t.txn.bind s.env.txns).any fun x => x.state == .active

/--
The transaction `tt` is active, the data `d` was committed when it began.
-/
structure Working (tt i : Nat) (t : TrashTxn) (x : Lmdb.Txn) (d : Lmdb.Data) (s : Sys) : Prop
    extends Isolated tt i t x d s where
  role : t.wr = !t.rd
  rdonly : x.rdonly = t.rd
  active : x.state = .active
  sane : t.rd = true → x.failed = false

/--
A transaction has written `ws`, and is going to commit if that is anything.
-/
structure Wrote (ws : List Write) (t : TrashTxn) (x : Lmdb.Txn) (t' : TrashTxn) (x' : Lmdb.Txn) : Prop where
  rd : t'.rd = t.rd
  commit : t'.commit = (t.commit || !ws.isEmpty)
  view : x'.view = ws.foldl Write.apply x.view
  writes : ws ≠ [] → t.rd = false

namespace Wrote

variable {ws ws' : List Write} {t t' t'' : TrashTxn} {x x' x'' : Lmdb.Txn}

theorem nil (hrd : t'.rd = t.rd) (hcommit : t'.commit = t.commit) (hview : x'.view = x.view) : Wrote [] t x t' x' :=
  ⟨hrd, by simpa using hcommit, hview, nofun⟩

theorem refl (t : TrashTxn) (x : Lmdb.Txn) : Wrote [] t x t x := nil rfl rfl rfl

theorem trans (h : Wrote ws t x t' x') (h' : Wrote ws' t' x' t'' x'') : Wrote (ws ++ ws') t x t'' x'' := by
  refine ⟨h'.rd.trans h.rd, ?_, ?_, ?_⟩
  . rw [h'.commit, h.commit]
    cases ws <;> simp
  . rw [h'.view, h.view, List.foldl_append]
  . intro hne
    rw [ne_eq, List.append_eq_nil_iff, not_and_or] at hne
    rcases hne with hne | hne
    . exact h.writes hne
    . exact h.rd ▸ h'.writes hne

end Wrote

/--
Only a write transaction that is going to commit has changed the data.
-/
def Accounts (t : TrashTxn) (x : Lmdb.Txn) (d : Lmdb.Data) : Prop := t.rd = true ∨ t.commit = false → x.view = d

theorem Wrote.accounts {ws : List Write} {t t' : TrashTxn} {x x' : Lmdb.Txn} {d : Lmdb.Data} (h : Wrote ws t x t' x')
    (haccounts : Accounts t x d)
    : Accounts t' x' d := by
  intro hread
  rw [h.rd, h.commit, Bool.or_eq_false_iff] at hread
  have hnil : ws = [] := by
    by_contra hne
    simp [h.writes hne, hne] at hread
  rw [h.view, hnil]
  exact haccounts (hread.imp_right And.left)

structure Over (tt i : Nat) (s : Sys) : Prop where
  txn : ∀ t, s.tts tt = some t → t.txn = some i
  inactive : ∀ x, s.env.txns i = some x → x.state ≠ .active

theorem Over.not_active {tt i : Nat} {s : Sys} (h : Over tt i s) : s.active tt = false := by
  unfold Sys.active
  cases ht : s.tts tt with
  | none => rfl
  | some t =>
    rw [Option.any_some, h.txn t ht, Option.bind_some]
    cases hx : s.env.txns i with
    | none => rfl
    | some x => simpa using h.inactive x hx

namespace Over

variable {tt i : Nat} {t : TrashTxn} {x : Lmdb.Txn} {s : Sys}

theorem congr {s' : Sys} (h : Over tt i s) (htts : s'.tts = s.tts) (henv : s'.env = s.env) : Over tt i s' :=
  ⟨htts ▸ h.txn, henv ▸ h.inactive⟩

theorem setTt (h : Over tt i s) {u : Option TrashTxn} (hu : ∀ t, u = some t → t.txn = some i)
    : Over tt i { s with tts := update s.tts tt u } := by
  refine ⟨fun t ht => hu t ?_, h.inactive⟩
  rw [← ht]
  exact (update_self tt u s.tts).symm

theorem returnToPool (th : Nat) (htxn : t.txn = some i)
    : Returns (Over tt i) (returnToPool th tt t) (fun _ => Over tt i) := by
  refine spec_get fun s hs => ?_
  split
  . exact spec_throw _ fun _ _ => trivial
  . split
    . exact spec_set fun _ _ => hs.congr rfl rfl
    . refine spec_get fun s' hs' => ?_
      split
      . exact spec_throw _ fun _ _ => trivial
      . next j x heq =>
        obtain ⟨hj, -⟩ := txn_eq_some heq
        cases htxn.symm.trans hj
        refine spec_modify _ ?_
        rintro _ rfl
        refine ⟨hs'.symm ▸ hs.txn, ?_⟩
        dsimp only
        rw [Lmdb.Env.finish_txns, update_self]
        rintro _ ⟨⟩
        nofun

theorem releaseDb (t : TrashTxn) : Returns (Over tt i) (releaseDb tt t) (fun _ => Over tt i) := by
  refine returns_iff.mpr fun s u s' hs hrun => ?_
  obtain ⟨-, rfl⟩ := releaseDb_cases hrun
  cases t.wr with
  | true => exact (hs.setTt (u := none) nofun).congr rfl rfl
  | false => exact hs.congr rfl rfl

end Over

namespace Working

variable {th tt i : Nat} {t u : TrashTxn} {x x' : Lmdb.Txn} {d : Lmdb.Data} {s s' : Sys} {dbname : Bytes}

theorem congr (h : Working tt i t x d s) (htts : s'.tts = s.tts) (hnext : s'.nextTt = s.nextTt)
    (henv : s'.env = s.env) (hpool : s'.rdrPool = s.rdrPool)
    : Working tt i t x d s' :=
  { h with toIsolated := h.toIsolated.congr htts hnext henv hpool }

theorem setTt (h : Working tt i t x d s) (htxn : u.txn = t.txn) (hrd : u.rd = t.rd) (hwr : u.wr = t.wr)
    : Working tt i u x d { s with tts := update s.tts tt (some u) } := by
  refine { h with
    tts := update_self _ _ _, txn := htxn.trans h.txn, owner := ?_, role := ?_, rdonly := ?_, sane := ?_ }
  . intro tt' t' ht' hi
    dsimp only at ht'
    rw [update_apply] at ht'
    split at ht'
    . next heq => exact heq
    . exact h.owner tt' t' ht' hi
  . rw [hwr, hrd]
    exact h.role
  . rw [hrd]
    exact h.rdonly
  . rw [hrd]
    exact h.sane

theorem setTxn (h : Working tt i t x d s) (hrole : x'.role = x.role) (hsane : t.rd = true → x'.failed = false)
    (n : Nat)
    : Working tt i t x' d { s with env := { s.env.setTxn i x' with nextDbi := n } } := by
  simp only [Lmdb.Txn.role, Prod.mk.injEq] at hrole
  refine { h with
    txns := update_self _ _ _, writer := ?_, data := ?_, others := ?_, rdonly := hrole.1.trans h.rdonly,
    active := hrole.2.2.trans h.active, sane := hsane }
  . intro hrd
    exact h.writer (hrole.1 ▸ hrd)
  . intro hrd
    exact h.data (hrole.1 ▸ hrd)
  . intro hrd j y hj hy
    refine h.others (hrole.1 ▸ hrd) j y hj ?_
    rw [← hy]
    exact (update_of_ne hj _ _).symm

theorem changeTxnDb {rc : TrashRc} (h : Working tt i t x d s) (hrun : (changeTxnDb tt dbname).run s = .ok rc s')
    : ∃ u, Working tt i u x d s' ∧ Wrote [] t x u x := by
  obtain ⟨t', ht', ⟨-, rfl, -⟩ | ⟨-, rfl, -⟩ | ⟨db, -, -, -, -, rfl⟩⟩ := changeTxnDb_cases hrun
  . exact ⟨t, h, .refl t x⟩
  . exact ⟨t, h, .refl t x⟩
  . cases h.tts.symm.trans ht'
    have hset := h.setTt (u := { t with db := some db }) rfl rfl rfl
    exact ⟨_, hset.congr rfl rfl rfl rfl, .nil rfl rfl rfl⟩

theorem trashGet {key : Bytes} {res : Except Lmdb.Rc Bytes} (h : Working tt i t x d s)
    (hrun : (trashGet tt key).run s = .ok res s')
    : Working tt i t x d s' := by
  obtain ⟨-, -, -, -, -, l, -, -, -, -, -, -, rfl⟩ := trashGet_cases hrun
  exact h.congr rfl rfl rfl rfl

theorem trashPut {key val : Bytes} {flags : BitVec 32} {answer : Lmdb.Answer} {r : Option Lmdb.Rc} (h : Working tt i t x d s)
    (hrun : (trashPut tt key val flags answer).run s = .ok r s')
    : ∃ u x', Working tt i u x' d s' ∧
        Wrote (if r = some .success then [.put (s.target tt) key val answer] else []) t x u x' := by
  obtain ⟨rfl, rfl⟩ | ⟨t', db', db, j, y, rc, x', l, ht', hrd, hd, hdb, hj, hy, hput, rfl, rfl⟩ := trashPut_cases hrun
  . exact ⟨t, x, h, .refl t x⟩
  . cases h.tts.symm.trans ht'
    cases h.txn.symm.trans hj
    cases h.txns.symm.trans hy
    have htarget : s.target tt = x.target db.id := by simp [Sys.target, h.tts, hd, hdb, h.txn, h.txns]
    have hset := h.setTxn (Lmdb.Txn.put_role hput).1 (by simp [hrd]) s.env.nextDbi
    obtain ⟨rfl, -, hx'⟩ | ⟨rfl, -, hx'⟩ | ⟨hne, -, hx'⟩ := Lmdb.Txn.put_cases hput
    . have hmark := hset.setTt (u := { t with commit := true }) rfl rfl rfl
      refine ⟨_, x', hmark.congr rfl rfl rfl rfl, rfl, by simp, ?_, fun _ => hrd⟩
      rw [hx', htarget]
      rfl
    . exact ⟨t, x', hset.congr rfl rfl rfl rfl, .nil rfl rfl (by rw [hx'])⟩
    . refine ⟨t, x', hset.congr (if_neg hne) rfl rfl rfl, ?_⟩
      rw [if_neg (by simpa using hne)]
      exact .nil rfl rfl (by rw [hx'])

theorem putRecord {key val : Bytes} {flags : BitVec 32} {r : Option Lmdb.Rc} (h : Working tt i t x d s)
    (hrun : (putRecord tt key val flags).run s = .ok r s')
    : ∃ u x', Working tt i u x' d s' ∧
        Wrote (if r = some .success then [.put (s.target tt) key val .plain] else []) t x u x' := by
  rw [putRecord_run] at hrun
  obtain ⟨u, x', h', hwrote⟩ := h.trashPut hrun
  refine ⟨u, x', h', ?_⟩
  split
  . next hr =>
    rw [if_pos hr] at hwrote
    refine ⟨hwrote.rd, hwrote.commit, ?_, fun _ => hwrote.writes (by simp)⟩
    rw [hwrote.view]
    exact Lmdb.Data.put_answer _ _ _ _ _ _
  . next hr =>
    rw [if_neg hr] at hwrote
    exact hwrote

theorem mdbDbiOpen {flags : BitVec 32} {id : Nat} (h : Working tt i t x d s)
    (hknown : ∀ d ∈ x.known, x.view.Has d.name) (hrun : (mdbDbiOpen t.txn dbname flags).run s = .ok (.ok id) s')
    : ∃ x', Working tt i t x' d s' ∧ (∀ d ∈ x'.known, x'.view.Has d.name) ∧
        x'.view = if flags &&& mdbCreate ≠ 0 then (Write.create dbname).apply x.view else x.view := by
  obtain ⟨j, y, x', l, hj, hy, hopen, rfl⟩ := mdbDbiOpen_cases hrun
  cases h.txn.symm.trans hj
  cases h.txns.symm.trans hy
  obtain ⟨hfailed, hview⟩ := dbiOpen_view hopen hknown
  have hset := h.setTxn (Lmdb.Txn.dbiOpen_role hopen) (fun hrd => hfailed.trans (h.sane hrd)) (s.env.nextDbi + 1)
  exact ⟨x', hset.congr rfl rfl rfl rfl, Lmdb.Txn.dbiOpen_has hopen hknown, hview⟩

theorem openDbi {tt' : Nat} {flags dbMeta : BitVec 32} {r : Unit} (h : Working tt i t x d s) (hs : s.Sound)
    (hbacked : s.env.Backed) (hmetadata : UsesMetadata tt s)
    (hrun : (openDbi th tt' tt dbname flags dbMeta).run s = .ok r s')
    : ∃ u x', Working tt i u x' d s' ∧ Wrote (s'.pc th).written t x u x' := by
  obtain ⟨t₀, s₁, hderef, hrest⟩ := bind_eq_ok.mp hrun
  obtain ⟨ht₀, rfl⟩ := derefTt_eq_ok.mp hderef
  cases h.tts.symm.trans ht₀
  obtain ⟨res, s₂, hopen, hrest₁⟩ := bind_eq_ok.mp hrest
  have hs₂ : s₂.Sound := ((Reaches.mdbDbiOpen _ _ _).of_run (.refl (r := Effect fun _ _ => True)) hopen).1.sound hs
  cases res with
  | error rc => cases hrest₁
  | ok id =>
    obtain ⟨x₁, h₁, -, hview⟩ := h.mdbDbiOpen (hbacked.known i x h.txns) hopen
    dsimp only at hrest₁
    split at hrest₁
    . next hcreate =>
      rw [if_pos hcreate] at hview
      obtain ⟨rc, s₃, hput, hrest₂⟩ := bind_eq_ok.mp hrest₁
      obtain ⟨_, s₄, hensure, hset⟩ := bind_eq_ok.mp hrest₂
      obtain ⟨hrc, rfl⟩ := ensure_eq_ok.mp hensure
      cases hset
      obtain rfl : rc = some .success := by simpa using hrc
      obtain ⟨u, x', h', hwrote⟩ := h₁.putRecord hput
      have hframe : LmdbOnly s₁ s₂ := (LmdbFrame.mdbDbiOpen _ _ _).of_run hopen
      rw [if_pos rfl, target_metadata hs₂ (hmetadata.lmdbOnly hframe) (putRecord_run .. ▸ hput)] at hwrote
      refine ⟨u, x', h'.congr rfl rfl rfl rfl, ?_⟩
      have hwritten : ∀ {pc : Pc}, pc.stored = some (dbname, dbMeta &&& ~~~mdbCreate) → Wrote pc.written t x u x' := by
        intro pc hpc
        rw [Pc.written, hpc]
        refine ⟨hwrote.rd, hwrote.commit, ?_, fun _ => hwrote.writes (by simp)⟩
        rw [hwrote.view, hview]
        rfl
      dsimp only
      rw [update_self]
      split <;> exact hwritten rfl
    . next hcreate =>
      rw [if_neg hcreate] at hview
      cases hrest₁
      refine ⟨t, x₁, h₁.congr rfl rfl rfl rfl, ?_⟩
      dsimp only
      rw [update_self]
      exact .nil rfl rfl hview

theorem createCursor {c : Nat} (h : Working tt i t x d s) (hrun : (createCursor th (some tt)).run s = .ok c s')
    : ∃ u, Working tt i u x d s' ∧ Wrote [] t x u x := by
  rw [Db.createCursor, cursorTxn, bind_of_ok (EStateM.run_pure _ _), bind_of_ok (derefTt_of_some h.tts)] at hrun
  obtain ⟨_, s₁, hchange, hrest⟩ := bind_eq_ok.mp hrun
  obtain ⟨u, h₁, hwrote⟩ : ∃ u, Working tt i u x d s₁ ∧ Wrote [] t x u x := by
    cases hnone : t.db.isNone with
    | true =>
      rw [hnone, when_true] at hchange
      obtain ⟨rc, s₂, hdb, hpure⟩ := bind_eq_ok.mp hchange
      cases hpure
      exact h.changeTxnDb hdb
    | false =>
      rw [hnone, when_false] at hchange
      cases hchange
      exact ⟨t, h, .refl t x⟩
  rw [bind_of_ok (derefTt_of_some h₁.tts), bind_of_ok (EStateM.run_get _)] at hrest
  refine ⟨u, ?_, hwrote⟩
  have hlog : ∀ s c, Working tt i u x d s → Working tt i u x d { s with log := s.log ++ [c] } :=
    fun s c hs => hs.congr rfl rfl rfl rfl
  split at hrest
  . obtain ⟨renewed, s₂, hrenew, hpure⟩ := bind_eq_ok.mp hrest
    obtain ⟨_, s₃, hensure, hpure⟩ := bind_eq_ok.mp hpure
    cases hpure
    obtain ⟨-, rfl⟩ := ensure_eq_ok.mp hensure
    obtain ⟨⟨j, y⟩, s₄, hderef, hset⟩ := bind_eq_ok.mp hrenew
    obtain ⟨-, -, -, l, rfl⟩ := derefTxn_eq_ok hderef
    rw [bind_of_ok (EStateM.run_get _)] at hset
    repeat' split at hset
    all_goals cases hset
    all_goals exact h₁.congr rfl rfl rfl rfl
  . obtain ⟨db, s₂, hdb, hopen⟩ := bind_eq_ok.mp hrest
    obtain ⟨rfl, -⟩ := derefDb_cases hdb
    obtain ⟨c', s₃, hopen, hpure⟩ := bind_eq_ok.mp hopen
    obtain ⟨⟨j, y⟩, s₄, hderef, hset⟩ := bind_eq_ok.mp hopen
    obtain ⟨-, -, -, l, rfl⟩ := derefTxn_eq_ok hderef
    dsimp only at hset
    split at hset
    . cases hset
      cases hpure
      exact h₁.congr rfl rfl rfl rfl
    . cases hset
      cases hpure

theorem endTxn {t' : TrashTxn} (h : Working tt i t x d s) (hrun : (endTxn tt).run s = .ok t' s')
    : Over tt i s' ∧ t'.txn = some i := by
  obtain ⟨t₀, s₁, hderef, hrest⟩ := bind_eq_ok.mp hrun
  obtain ⟨ht₀, rfl⟩ := derefTt_eq_ok.mp hderef
  cases h.tts.symm.trans ht₀
  have hover : ∀ {s : Sys} {st : Lmdb.TxnState}, st ≠ .active →
      s.env.txns = update s₁.env.txns i (some { x with state := st, opened := [] }) →
      (∀ u, s.tts tt = some u → u.txn = some i) → Over tt i s := by
    intro s st hst htxns htts
    refine ⟨htts, ?_⟩
    rw [htxns, update_self]
    rintro _ ⟨⟩
    exact hst
  have htts : ∀ u, s₁.tts tt = some u → u.txn = some i := by
    intro u hu
    cases h.tts.symm.trans hu
    exact h.txn
  split at hrest
  . rw [h.txn, bind_of_ok (mdbTxnCommit_of_active h.txns h.active)] at hrest
    obtain ⟨_, s₂, hensure, hset⟩ := bind_eq_ok.mp hrest
    obtain ⟨-, rfl⟩ := ensure_eq_ok.mp hensure
    cases hset
    refine ⟨hover (by nofun) (Lmdb.Env.commit_txns _ _ _) ?_, rfl⟩
    intro u hu
    dsimp only at hu
    rw [update_self] at hu
    cases hu
    rfl
  . cases hrd : t.rd with
    | true =>
      rw [h.role, hrd, Bool.not_true, when_false, when_true, h.txn, bind_of_ok (EStateM.run_pure _ _),
        bind_of_ok (mdbTxnReset_of_active h.txns h.active)] at hrest
      cases hrest
      exact ⟨hover (by nofun) (Lmdb.Env.finish_txns _ _ _ _) htts, h.txn⟩
    | false =>
      rw [h.role, hrd, Bool.not_false, when_false, when_true, h.txn, bind_of_ok (mdbTxnAbort_of_some h.txns),
        bind_of_ok (EStateM.run_pure _ _)] at hrest
      cases hrest
      exact ⟨hover (by nofun) (Lmdb.Env.finish_txns _ _ _ _) htts, h.txn⟩

theorem returnTxn {r : Unit} (h : Working tt i t x d s) (hrun : (returnTxn th tt).run s = .ok r s') : Over tt i s' := by
  obtain ⟨t', s₁, hend, hrest⟩ := bind_eq_ok.mp hrun
  obtain ⟨hover, htxn⟩ := h.endTxn hend
  refine Returns.of_run (P := Over tt i) (Q := fun _ => Over tt i) ?_ hover hrest
  split
  . refine spec_modify _ fun s hs => hs.setTt ?_
    rintro _ ⟨⟩
    exact htxn
  . refine spec_bind (Q := fun _ => Over tt i) (spec_modify _ fun s hs => hs.congr rfl rfl) fun _ => ?_
    refine spec_bind (Q := fun _ => Over tt i) ?_ fun _ => Over.releaseDb t'
    exact spec_when (fun _ => Over.returnToPool th htxn) fun _ _ => id

theorem openDb {flags : BitVec 32} {r : Unit} (h : Working tt i t x d s) (hs : Regular s)
    (hrun : (openDb th tt dbname flags).run s = .ok r s')
    : (∃ u x', Working tt i u x' d s' ∧ Wrote (s'.pc th).written t x u x') ∨ Over tt i s' ∧ t.rd = true := by
  obtain ⟨rc, s₁, hchange, hrest⟩ := bind_eq_ok.mp hrun
  obtain ⟨res, s₂, hget, hrest₁⟩ := bind_eq_ok.mp hrest
  obtain ⟨u, h₁, hwrote⟩ := h.changeTxnDb hchange
  have hs₁ : s₁.Sound := ((Reaches.changeTxnDb tt metadata).of_run (.refl (r := Effect fun _ _ => True)) hchange).sound hs.sound
  have hmetadata := changeTxnDb_metadata hs.head hchange
  have henv : s₁.env = s.env := by
    obtain ⟨-, -, ⟨-, rfl, -⟩ | ⟨-, rfl, -⟩ | ⟨-, -, -, -, -, rfl⟩⟩ := changeTxnDb_cases hchange <;> rfl
  have h₂ := h₁.trashGet hget
  have hs₂ : s₂.Sound := ((Reaches.trashGet tt dbname).of_run (.refl (r := Effect fun _ _ => True)) hget).sound hs₁
  obtain ⟨-, -, -, -, -, l, -, -, -, -, -, -, rfl⟩ := trashGet_cases hget
  have hopened : ∀ {flags dbMeta : BitVec 32}, (Db.openDbi th tt tt dbname flags dbMeta).run { s₁ with log := l } = .ok r s' →
      ∃ u x', Working tt i u x' d s' ∧ Wrote (s'.pc th).written t x u x' := by
    intro flags dbMeta hopen
    obtain ⟨u', x', h', hwrote'⟩ := h₂.openDbi hs₂ (henv ▸ hs.backed) hmetadata hopen
    exact ⟨u', x', h', hwrote.trans hwrote'⟩
  split at hrest₁
  . split at hrest₁
    . cases hrest₁
    . exact .inl (hopened hrest₁)
  . obtain ⟨t₀, s₃, hderef, hrest₂⟩ := bind_eq_ok.mp hrest₁
    obtain ⟨ht₀, rfl⟩ := derefTt_eq_ok.mp hderef
    cases h₁.tts.symm.trans ht₀
    split at hrest₂
    . next hrd =>
      obtain ⟨_, s₄, hset, hrest₃⟩ := bind_eq_ok.mp hrest₂
      cases hset
      obtain ⟨_, s₅, hreturn, hpc⟩ := bind_eq_ok.mp hrest₃
      cases hpc
      have hmark := h₂.setTt (u := { u with dontFin := true }) rfl rfl rfl
      exact .inr ⟨(hmark.returnTxn hreturn).congr rfl rfl, hwrote.rd ▸ hrd⟩
    . exact .inl (hopened hrest₂)
  . cases hrest₁

theorem openDbResume {r : Unit} (h : Working tt i t x d s) (huses : tt ∈ (s.pc th).uses)
    (hrun : (openDbResume th).run s = .ok r s')
    : (∃ u, Working tt i u x d s' ∧ Wrote [] t x u x ∧ (s.pc th).returns = none) ∨
        Over tt i s' ∧ (s.pc th).returns = some tt := by
  rw [Db.openDbResume, bind_of_ok (EStateM.run_get s)] at hrun
  cases hpc : s.pc th with
  | idle =>
    rw [hpc] at huses
    cases huses
  | begin tt' dbname flags =>
    rw [hpc] at huses
    cases huses
  | commit tt' temp dbname id dbMeta =>
    rw [hpc] at huses hrun
    obtain rfl : tt = temp := by simpa [Pc.uses] using huses
    obtain ⟨_, s₁, hreturn, hset⟩ := bind_eq_ok.mp hrun
    cases hset
    exact .inr ⟨(h.returnTxn hreturn).congr rfl rfl, rfl⟩
  | renew tt' dbname id dbMeta =>
    rw [hpc] at huses hrun
    obtain rfl : tt = tt' := by simpa [Pc.uses] using huses
    rw [bind_of_ok (derefTt_of_some h.tts)] at hrun
    obtain ⟨rc, s₁, hrenew, hset⟩ := bind_eq_ok.mp hrun
    cases hset
    refine .inl ⟨t, ?_, .refl t x, rfl⟩
    -- an active transaction is not renewed
    rw [mdbTxnRenew, bind_of_ok (EStateM.run_get s), h.txn, Option.bind_some, h.txns, Option.map_some] at hrenew
    have heq : s.env.renew th i x = (.einval, s.env) := by simp [Lmdb.Env.renew, h.active]
    dsimp only at hrenew
    rw [heq] at hrenew
    cases hrenew
    exact h.congr rfl rfl rfl rfl
  | publish tt' dbname id dbMeta =>
    rw [hpc] at huses hrun
    obtain rfl : tt = tt' := by simpa [Pc.uses] using huses
    obtain ⟨db, s₁, hadd, hrest⟩ := bind_eq_ok.mp hrun
    cases hadd
    obtain ⟨t₀, s₂, hderef, hset⟩ := bind_eq_ok.mp hrest
    obtain ⟨ht₀, rfl⟩ := derefTt_eq_ok.mp hderef
    cases h.tts.symm.trans ht₀
    cases hset
    have hset := h.setTt (u := { t with db := some s.dbs.length }) rfl rfl rfl
    exact .inl ⟨_, hset.congr rfl rfl rfl rfl, .nil rfl rfl rfl, rfl⟩

theorem foreign {a : Action} (h : Working tt i t x d s) (huses : tt ∉ a.uses s) (hstep : s.step a = some s')
    : Working tt i t x d s' :=
  { h with toIsolated := h.toIsolated.step huses hstep }

theorem step {a : Action} (h : Working tt i t x d s) (hs : Regular s) (huses : tt ∈ a.uses s)
    (hstep : s.step a = some s')
    : (∃ u x', Working tt i u x' d s' ∧ Wrote (a.wrote s) t x u x' ∧ a.returns s = none) ∨
        Over tt i s' ∧ (t.rd = false → a.returns s = some tt) := by
  obtain ⟨r, hrun⟩ := exec_of_step hstep
  cases a with
  | initThreadLocalReaders th => cases huses
  | initMetadata th after => cases huses
  | beginTxn th dbname rd => cases huses
  | internalBeginTxn th rd => cases huses
  | returnCursor th c => cases huses
  | changeTxnDb th tt' dbname =>
    obtain rfl : tt = tt' := by simpa [Action.uses] using huses
    obtain ⟨-, -, hrest⟩ := holds_bind_eq_ok.mp hrun
    obtain ⟨_, s₁, hchange, hpure⟩ := bind_eq_ok.mp hrest
    cases hpure
    obtain ⟨u, h', hwrote⟩ := h.changeTxnDb hchange
    exact .inl ⟨u, x, h', hwrote, rfl⟩
  | openDb th tt' dbname flags =>
    obtain rfl : tt = tt' := by simpa [Action.uses] using huses
    obtain ⟨-, -, hrest⟩ := holds_bind_eq_ok.mp hrun
    obtain ⟨_, s₁, hopen, hpure⟩ := bind_eq_ok.mp hrest
    cases hpure
    obtain ⟨u, x', h', hwrote⟩ | ⟨hover, hrd⟩ := h.openDb hs hopen
    . refine .inl ⟨u, x', h', ?_, rfl⟩
      rw [Action.wrote, hstep]
      exact hwrote
    . refine .inr ⟨hover, ?_⟩
      simp [hrd]
  | resume th =>
    obtain ⟨_, s₁, hresume, hpure⟩ := bind_eq_ok.mp hrun
    cases hpure
    obtain ⟨u, h', hwrote, hreturns⟩ | ⟨hover, hreturns⟩ := h.openDbResume huses hresume
    . refine .inl ⟨u, x, h', ?_, hreturns⟩
      have hcreating : (s.pc th).creating = none := by
        cases hpc : s.pc th with
        | begin tt' dbname flags =>
          rw [Action.uses, hpc] at huses
          cases huses
        | _ => rfl
      rw [Action.wrote, hcreating]
      exact hwrote
    . exact .inr ⟨hover, fun _ => hreturns⟩
  | createCursor th tt' =>
    obtain rfl : tt' = some tt := by simpa [Action.uses] using huses
    obtain ⟨-, -, hrest⟩ := holds_bind_eq_ok.mp hrun
    obtain ⟨_, s₁, hcreate, hpure⟩ := bind_eq_ok.mp hrest
    cases hpure
    obtain ⟨u, h', hwrote⟩ := h.createCursor hcreate
    exact .inl ⟨u, x, h', hwrote, rfl⟩
  | trashPut th tt' key val flags answer =>
    obtain rfl : tt = tt' := by simpa [Action.uses] using huses
    obtain ⟨-, -, hrest⟩ := holds_bind_eq_ok.mp hrun
    obtain ⟨rc, s₁, hput, hpure⟩ := bind_eq_ok.mp hrest
    cases hpure
    obtain ⟨u, x', h', hwrote⟩ := h.trashPut hput
    refine .inl ⟨u, x', h', ?_, rfl⟩
    rw [Action.wrote, hrun]
    split at hwrote
    . next hrc =>
      rw [hrc]
      exact hwrote
    . next hrc =>
      split
      . next heq =>
        cases heq
        exact absurd rfl hrc
      . exact hwrote
  | trashGet th tt' key =>
    obtain rfl : tt = tt' := by simpa [Action.uses] using huses
    obtain ⟨-, -, hrest⟩ := holds_bind_eq_ok.mp hrun
    obtain ⟨_, s₁, hget, hpure⟩ := bind_eq_ok.mp hrest
    cases hpure
    exact .inl ⟨t, x, h.trashGet hget, .refl t x, rfl⟩
  | returnTxn th tt' =>
    obtain rfl : tt = tt' := by simpa [Action.uses] using huses
    obtain ⟨-, -, hrest⟩ := holds_bind_eq_ok.mp hrun
    obtain ⟨_, s₁, hreturn, hpure⟩ := bind_eq_ok.mp hrest
    cases hpure
    exact .inr ⟨h.returnTxn hreturn, fun _ => rfl⟩

theorem internalBegin {rd : Bool} (hs : s.Sound) (hpools : ∀ th, s.rdrPool th = none)
    (hrun : (internalBeginTxn th rd).run s = .ok tt s')
    : (∃ i t x, Working tt i t x s.env.data (s'.handOut th tt) ∧ t.rd = rd ∧ t.commit = false ∧
          x.view = s.env.data) ∨
        rd = true ∧ ∃ t, (s'.handOut th tt).tts tt = some t ∧ t.txn = none := by
  have hcreate : (do let txn ← Db.mdbTxnBegin th rd; internalCreateTrashTxn txn rd).run s = .ok tt s' := by
    cases rd with
    | true =>
      rw [internalBeginTxn, if_pos rfl, internalGetReadTxn, bind_of_ok (EStateM.run_get s), hpools th] at hrun
      exact hrun
    | false => exact hrun
  obtain ⟨txn, s₄, hmdb, hnew⟩ := bind_eq_ok.mp hcreate
  cases hnew
  obtain ⟨l, ⟨rfl, rfl, rfl⟩ | ⟨i, e, rfl, hbegun, rfl⟩⟩ := Reaches.mdbTxnBegin_cases th hmdb
  . exact .inr ⟨rfl, _, update_self _ _ _, rfl⟩
  . have hstarted := Lmdb.Env.begin_started hbegun
    have hnone : s.env.txns i = none := hs.env.wellFormed.fresh i (Nat.le_of_eq hstarted.index.symm)
    refine .inl ⟨i, ⟨some i, rd, !rd, false, false, none⟩, s.env.newTxn th rd, ?_, rfl, rfl, rfl⟩
    refine ⟨⟨update_self _ _ _, rfl, ?_, ?_, Nat.lt_succ_self _, ?_, ?_, ?_, ?_, ?_⟩, rfl, rfl, rfl, fun _ => rfl⟩
    . dsimp only [Sys.handOut]
      rw [hstarted.txns, update_self]
    . intro tt' t' ht' hi
      dsimp only [Sys.handOut] at ht'
      rw [update_apply] at ht'
      split at ht'
      . next heq => exact heq
      . obtain ⟨x, hx, -⟩ := hs.owned.txn tt' t' i ht' hi
        rw [hnone] at hx
        cases hx
    . dsimp only [Sys.handOut]
      rw [hstarted.nextTxn, hstarted.index]
      exact Nat.lt_succ_self _
    . intro th' rdrs hpool
      dsimp only [Sys.handOut] at hpool
      rw [hpools th'] at hpool
      cases hpool
    . exact fun hrd => (hstarted.write hrd).2
    . exact fun _ => hstarted.data
    . intro hrd j y hj hy hyrd
      dsimp only [Sys.handOut] at hy
      rw [hstarted.txns, update_of_ne hj] at hy
      cases hstate : y.state with
      | ended => rfl
      | reset => exact absurd hstate (hs.env.noReset j y hy hyrd)
      | active =>
        have hwriter := hs.env.writer j y hy hyrd hstate
        rw [(hstarted.write hrd).1] at hwriter
        cases hwriter

theorem begin {rd : Bool} {rc : TrashRc} (hs : s.Sound) (hpools : ∀ th, s.rdrPool th = none)
    (hrun : (beginTxn th dbname rd).run s = .ok (rc, tt) s')
    : (∃ i t x, Working tt i t x s.env.data s' ∧ t.rd = rd ∧ t.commit = false ∧ x.view = s.env.data) ∨
        rd = true ∧ s'.active tt = false := by
  obtain ⟨tt', s₁, hbegin, hrest⟩ := bind_eq_ok.mp hrun
  obtain ⟨_, s₂, hout, hrest₁⟩ := bind_eq_ok.mp hrest
  cases hout
  obtain ⟨rc', s₃, hchange, hpure⟩ := bind_eq_ok.mp hrest₁
  cases hpure
  obtain ⟨i, t, x, hworking, hrd, hcommit, hview⟩ | ⟨rfl, t, ht, htxn⟩ := internalBegin hs hpools hbegin
  . obtain ⟨u, h', hwrote⟩ := hworking.changeTxnDb hchange
    exact .inl ⟨i, u, x, h', hwrote.rd.trans hrd, by simpa [hcommit] using hwrote.commit, hview⟩
  . refine .inr ⟨rfl, ?_⟩
    obtain ⟨t', t₁, ht', ht₁, htxn₁, -⟩ := changeTxnDb_txn hchange
    cases ht'.symm.trans ht
    simp [Sys.active, ht₁, htxn₁, htxn]

end Working

theorem handleKnown_iff {s : Sys} {tt d i : Nat} {t : TrashTxn} {db : OpenDb} {x : Lmdb.Txn} (hs : s.Sound)
    (ht : s.tts tt = some t) (hd : t.db = some d) (hdb : s.dbs[d]? = some db) (hi : t.txn = some i)
    (hx : s.env.txns i = some x)
    : HandleKnown s tt ↔ (x.handle db.id).isSome := by
  constructor
  . intro h
    have hmem := h t d db i x ht hd hdb hi hx
    exact List.find?_isSome.mpr ⟨_, hmem, by simp⟩
  . intro h
    obtain ⟨h, hh⟩ := Option.isSome_iff_exists.mp h
    have hname := hs.handle_name hx (List.mem_of_getElem? hdb) hh
    have hid : h.id = db.id := by simpa using List.find?_some hh
    intro t' d' db' i' x' ht' hd' hdb' hi' hx'
    cases ht.symm.trans ht'
    cases hd.symm.trans hd'
    cases hdb.symm.trans hdb'
    cases hi.symm.trans hi'
    cases hx.symm.trans hx'
    rw [← hname, ← hid]
    exact List.mem_of_find?_eq_some hh

/--
A call that begins a transaction for its caller, and whether that only reads.
-/
def Action.begins : Action → Option Bool
  | .beginTxn _ _ rd | .internalBeginTxn _ rd => some rd
  | _ => none

/--
What a call writes to the transaction, if it works with that.
-/
def Action.wroteTo (tt : Nat) (s : Sys) (a : Action) : List Write := if tt ∈ a.uses s then a.wrote s else []

/--
The transaction that a call begins, with the state then.
-/
def Sys.begunTxn (s : Sys) (a : Action) : Option (Nat × Sys) :=
  match (exec a).run s with
  | .ok (.txn _ tt) s' | .ok (.begun tt) s' => some (tt, s')
  | _ => none

def Sys.got (s : Sys) (a : Action) : Option (Except Lmdb.Rc Bytes) :=
  match (exec a).run s with
  | .ok (.get res) _ => some res
  | _ => none

theorem step_of_begunTxn {s s' : Sys} {a : Action} {tt : Nat} (h : s.begunTxn a = some (tt, s'))
    : s.step a = some s' := by
  unfold Sys.begunTxn at h
  split at h
  . next heq =>
    cases h
    rw [Sys.step, heq]
  . next heq =>
    cases h
    rw [Sys.step, heq]
  . cases h

theorem begin_of_begunTxn {s s' : Sys} {a : Action} {rd : Bool} {tt : Nat} (hs : Regular s) (ha : a.begins = some rd)
    (h : s.begunTxn a = some (tt, s'))
    : (∃ i t x, Working tt i t x s.env.data s' ∧ t.rd = rd ∧ t.commit = false ∧ x.view = s.env.data) ∨
        s'.active tt = false := by
  unfold Sys.begunTxn at h
  cases a with
  | beginTxn th dbname rd =>
    cases ha
    split at h
    . next heq =>
      cases h
      obtain ⟨-, hrest⟩ := ready_bind_eq_ok.mp heq
      obtain ⟨⟨rc, tt'⟩, s₁, hbegin, hpure⟩ := bind_eq_ok.mp hrest
      cases hpure
      exact (Working.begin hs.sound hs.pools hbegin).imp_right And.right
    . next heq =>
      obtain ⟨-, hrest⟩ := ready_bind_eq_ok.mp heq
      obtain ⟨⟨rc, tt'⟩, s₁, hbegin, hpure⟩ := bind_eq_ok.mp hrest
      cases hpure
    . cases h
  | internalBeginTxn th rd =>
    cases ha
    split at h
    . next heq =>
      obtain ⟨-, hrest⟩ := ready_bind_eq_ok.mp heq
      obtain ⟨tt', s₁, hbegin, hrest₁⟩ := bind_eq_ok.mp hrest
      cases hrest₁
    . next heq =>
      cases h
      obtain ⟨-, hrest⟩ := ready_bind_eq_ok.mp heq
      obtain ⟨tt', s₁, hbegin, hrest₁⟩ := bind_eq_ok.mp hrest
      cases hrest₁
      refine (Working.internalBegin hs.sound hs.pools hbegin).imp_right ?_
      rintro ⟨-, t, ht, htxn⟩
      replace ht : s₁.tts tt = some t := ht
      simp [Sys.active, ht, htxn]
    . cases h
  | _ => cases ha

theorem exec_of_got {s : Sys} {a : Action} {res : Except Lmdb.Rc Bytes} (h : s.got a = some res)
    : ∃ s', (exec a).run s = .ok (.get res) s' := by
  unfold Sys.got at h
  split at h
  . next heq =>
    cases h
    exact ⟨_, heq⟩
  . cases h

def Sys.readsOpenNone (s : Sys) : Bool :=
  (List.range s.env.nextTxn).all fun i => (s.env.txns i).all fun x => !x.rdonly || x.opened.isEmpty

/--
A run after `open_env` in which LMDB gives no number to two handles: none is closed, and those that are opened are
opened by write transactions.
-/
structure Numbered (limits : Lmdb.Limits) (data : Lmdb.Data) (as : List Action) (s₀ s : Sys) : Prop where
  opened : ∃ th after, (Sys.initWith limits data).step (.initMetadata th after) = some s₀
  run : Lts.run Sys.step s₀ as = some s
  closesNone : Lts.Along Sys.step ClosesNone s₀ as
  reads : Lts.Throughout Sys.step (fun s => s.readsOpenNone = true) s₀ as

def numbered (s₀ : Sys) (as : List Action) : Bool :=
  Lts.Along Sys.step (fun s a => closesNone s a = true) s₀ as ∧
    Lts.Throughout Sys.step (fun s => s.readsOpenNone = true) s₀ as

theorem Numbered.of_check {limits : Lmdb.Limits} {data : Lmdb.Data} {th : Nat} {after : Bytes → Bytes}
    {as : List Action} {s₀ s : Sys} (hopen : (Sys.initWith limits data).step (.initMetadata th after) = some s₀)
    (hrun : Lts.run Sys.step s₀ as = some s) (h : numbered s₀ as = true)
    : Numbered limits data as s₀ s := by
  obtain ⟨hcloses, hreads⟩ := of_decide_eq_true h
  exact ⟨⟨th, after, hopen⟩, hrun, hcloses.imp fun _ _ => .of_check, hreads⟩

/--
A transaction reads the data that was committed when it began and what it has written itself, as long as it is
active. What the other threads do in the meantime makes no difference, nor what they commit.
-/
theorem snapshot_of_run {limits : Lmdb.Limits} {data : Lmdb.Data} {th tt : Nat} {key : Bytes} {rd : Bool}
    {res : Except Lmdb.Rc Bytes} {as₀ as : List Action} {a : Action} {s₀ s₁ s₂ s₃ : Sys}
    (hnumbered : Numbered limits data (as₀ ++ a :: as) s₀ s₃) (hrun₀ : Lts.run Sys.step s₀ as₀ = some s₁)
    (ha : a.begins = some rd) (hbegin : s₁.begunTxn a = some (tt, s₂))
    (hactive : Lts.Throughout Sys.step (fun s => s.active tt = true) s₂ as)
    (hget : s₃.got (.trashGet th tt key) = some res)
    : (rd = true → Lts.record Sys.step (Action.wroteTo tt) s₂ as = []) ∧
      (¬ HandleKnown s₃ tt → res = .error .einval) ∧
      (HandleKnown s₃ tt → rd = false ∧ res = .error .badTxn ∨
        res = if key = [] then .error .badValsize else
          ((Lts.record Sys.step (Action.wroteTo tt) s₂ as).foldl Write.apply s₁.env.data).read (s₃.target tt) key) := by
  obtain ⟨th₀, after, hopen⟩ := hnumbered.opened
  have hregular : Regular s₁ := (Regular.openEnv hopen).of_run hrun₀
  have hstep := step_of_begunTxn hbegin
  have hrun : Lts.run Sys.step s₂ as = some s₃ := by
    have hrun := hnumbered.run
    rw [Lts.run_append, hrun₀, Option.bind_some, Lts.run_cons, hstep] at hrun
    exact hrun
  obtain ⟨i, t, x, hworking, hrd, -, hview⟩ :=
    (begin_of_begunTxn hregular ha hbegin).resolve_right (by simp [hactive.head])
  have hkept : ∀ s l a s', (Regular s ∧ ∃ t x, Working tt i t x s₁.env.data s ∧ t.rd = rd ∧
        x.view = l.foldl Write.apply s₁.env.data ∧ (rd = true → l = [])) → s'.active tt = true → s.step a = some s' →
      Regular s' ∧ ∃ t x, Working tt i t x s₁.env.data s' ∧ t.rd = rd ∧
        x.view = (l ++ a.wroteTo tt s).foldl Write.apply s₁.env.data ∧ (rd = true → l ++ a.wroteTo tt s = []) := by
    rintro s l a s' ⟨hs, t, x, h, hrd, hview, hnil⟩ hactive hstep
    refine ⟨hs.step hstep, ?_⟩
    unfold Action.wroteTo
    split
    . next huses =>
      obtain ⟨u, x', h', hwrote, -⟩ | ⟨hover, -⟩ := h.step hs huses hstep
      . refine ⟨u, x', h', hwrote.rd.trans hrd, ?_, ?_⟩
        . rw [List.foldl_append, ← hview]
          exact hwrote.view
        . intro hread
          rw [hnil hread, List.nil_append]
          by_contra hne
          rw [← hrd, hwrote.writes hne] at hread
          cases hread
      . rw [hover.not_active] at hactive
        cases hactive
    . next huses =>
      rw [List.append_nil]
      exact ⟨t, x, h.foreign huses hstep, hrd, hview, hnil⟩
  obtain ⟨hs₃, t', x', h', hrd', hview', hnil⟩ := Lts.invariant_record_throughout (l := []) hkept
    ⟨hregular.step hstep, t, x, hworking, hrd, hview, fun _ => rfl⟩ hactive hrun
  rw [List.nil_append] at hview' hnil
  obtain ⟨s₄, hexec'⟩ := exec_of_got hget
  obtain ⟨-, -, hrest⟩ := holds_bind_eq_ok.mp hexec'
  obtain ⟨res', s', hget', hpure⟩ := bind_eq_ok.mp hrest
  cases hpure
  obtain ⟨t₁, d, db, j, y, l, ht, hd, hdb, hj, hy, rfl, rfl⟩ := trashGet_cases hget'
  cases h'.tts.symm.trans ht
  cases h'.txn.symm.trans hj
  cases h'.txns.symm.trans hy
  have htarget : s₃.target tt = x'.target db.id := by simp [Sys.target, h'.tts, hd, hdb, h'.txn, h'.txns]
  rw [handleKnown_iff hs₃.sound ht hd hdb hj hy, Lmdb.Txn.get_eq, htarget, ← hview']
  refine ⟨hnil, ?_, ?_⟩
  . intro hnone
    rw [if_pos (by simpa using hnone)]
  . intro hsome
    rw [if_neg (by simpa [Option.isSome_iff_ne_none] using hsome)]
    cases husable : x'.usable with
    | true => exact .inr rfl
    | false =>
      refine .inl ⟨?_, rfl⟩
      cases hread : rd with
      | false => rfl
      | true =>
        rw [Lmdb.Txn.usable, h'.active, h'.sane (hrd'.trans hread)] at husable
        cases husable

def putting (tt : Nat) (val : Byte) : List Action :=
  [.beginTxn 0 metadata false, .trashPut 0 tt [0x6b] [val] 0 .plain, .returnTxn 0 tt]

/--
A thread begins to read, and another one puts a second value. Both values can be read then.
-/
def ReadsFirst (s : Sys) : Prop :=
  (s.env.data.read metadata [0x6b]).toOption = some [0x31] ∧
    ∃ r ∈ s.begunTxn (.beginTxn 1 metadata true), r.1 = 2 ∧
      Lts.Throughout Sys.step (fun s => s.active 2 = true) r.2 (putting 3 0x32) ∧
      ∃ s' ∈ Lts.run Sys.step r.2 (putting 3 0x32),
        (s'.env.data.read metadata [0x6b]).toOption = some [0x32] ∧
          ∃ res ∈ s'.got (.trashGet 1 2 [0x6b]), res.toOption = some [0x31]

instance (s : Sys) : Decidable (ReadsFirst s) := by
  unfold ReadsFirst
  infer_instance

def readingFirst : List Action := putting 1 0x31 ++ .beginTxn 1 metadata true :: putting 3 0x32

/--
The thread that has begun in between goes on to read the first value.
-/
theorem snapshot_of_putting
    : ∃ s₀ s₁ s₂ s₃,
        Numbered .unlimited [] readingFirst s₀ s₃ ∧ Lts.run Sys.step s₀ (putting 1 0x31) = some s₁ ∧
        s₁.begunTxn (.beginTxn 1 metadata true) = some (2, s₂) ∧
        (s₃.env.data.read metadata [0x6b]).toOption = some [0x32] ∧
        s₃.got (.trashGet 1 2 [0x6b]) = some (s₁.env.data.read (s₃.target 2) [0x6b]) := by
  have hruns : ∃ s₀ ∈ (Sys.init []).step (.initMetadata 0 fun _ => []), numbered s₀ readingFirst = true ∧
      ∃ s₁ ∈ Lts.run Sys.step s₀ (putting 1 0x31), ReadsFirst s₁ := by
    decide +kernel
  obtain ⟨s₀, hopen, hnumbered, s₁, hrun₀, -, ⟨_, s₂⟩, hbegin, rfl, hactive, s₃, hrun, hread₃, res, hget, hres⟩ := hruns
  have hstep : s₁.step (.beginTxn 1 metadata true) = some s₂ := step_of_begunTxn hbegin
  have hall : Lts.run Sys.step s₀ readingFirst = some s₃ := by
    rw [readingFirst, Lts.run_append, hrun₀, Option.bind_some, Lts.run_cons, hstep]
    exact hrun
  have hnumbered := Numbered.of_check hopen hall hnumbered
  refine ⟨s₀, s₁, s₂, s₃, hnumbered, hrun₀, hbegin, hread₃, ?_⟩
  obtain ⟨hnil, hunknown, hknown⟩ := snapshot_of_run hnumbered hrun₀ rfl hbegin hactive hget
  rw [hnil rfl] at hknown
  have hhandle : HandleKnown s₃ 2 := by
    by_contra hnot
    rw [hunknown hnot] at hres
    cases hres
  obtain ⟨hrd, -⟩ | hsnapshot := hknown hhandle
  . cases hrd
  . exact hget.trans (congrArg some hsnapshot)

end Db
