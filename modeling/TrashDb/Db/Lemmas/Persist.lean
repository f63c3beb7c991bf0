import TrashDb.Db.Lemmas.Keys
import TrashDb.Db.Lemmas.OpenEnv
import TrashDb.Db.Lemmas.Record
import TrashDb.Db.Lemmas.Sound

/-!
This module contains the record that `open_db` stores for a new database, from the transaction that has
stored it to the later calls of `open_db`. Every transaction that begins after the commit sees the record,
but `open_db` looks for it under another key unless the name is all prefix.
-/

namespace Lmdb

open Db Function

variable {dbname val : Bytes}

theorem Data.lookup_store_self (data : Data) (name key val : Bytes)
    : (((data.store name key val).lookup name).getD []).lookup key = some val := by
  rw [store, Assoc.lookup_put_self, Option.getD_some, Assoc.lookup_put_self]

theorem Data.lookup_store_of_ne {data : Data} {name name' key key' : Bytes} (val : Bytes)
    (hne : ¬(name = name' ∧ key = key'))
    : (((data.store name key val).lookup name').getD []).lookup key' = ((data.lookup name').getD []).lookup key' := by
  by_cases hname : name' = name
  . have hkey : key' ≠ key := fun heq => hne ⟨hname.symm, heq.symm⟩
    rw [hname, store, Assoc.lookup_put_self, Option.getD_some, Assoc.lookup_put_of_ne hkey]
  . rw [store, Assoc.lookup_put_of_ne hname]

theorem Data.lookup_put_of_ne {data : Data} {name name' key key' : Bytes} (val : Bytes) (answer : Answer)
    (hne : ¬(name = name' ∧ key = key'))
    : (((data.put name key val answer).lookup name').getD []).lookup key' =
        ((data.lookup name').getD []).lookup key' := by
  cases answer with
  | values val' more =>
    by_cases hname : name' = name
    . have hkey : key' ≠ key := fun heq => hne ⟨hname.symm, heq.symm⟩
      rw [hname, put, Assoc.lookup_put_self, Option.getD_some, Assoc.lookup_putAll_of_ne hkey]
    . rw [put, Assoc.lookup_put_of_ne hname]
  | _ => exact lookup_store_of_ne val hne

theorem Data.lookup_put {data : Data} {name name' : Bytes} (h : name' ≠ name) (key val : Bytes) (answer : Answer)
    : (data.put name key val answer).lookup name' = data.lookup name' := by
  cases answer <;> exact Assoc.lookup_put_of_ne h _ _

theorem Txn.get_ok {x : Txn} {dbi : Nat} {key : Bytes} (h : x.get dbi key = .ok val)
    : ∃ d, x.handle dbi = some d ∧ ((x.view.lookup d.name).getD []).lookup key = some val := by
  unfold get at h
  repeat' split at h
  all_goals cases h
  next d hd _ _ _ hlookup => exact ⟨d, hd, hlookup⟩

theorem Txn.get_notFound {x : Txn} {dbi : Nat} {key : Bytes} (h : x.get dbi key = .error .notFound)
    : ∃ d, x.handle dbi = some d ∧ ((x.view.lookup d.name).getD []).lookup key = none := by
  unfold get at h
  repeat' split at h
  all_goals cases h
  next d hd _ _ _ hlookup => exact ⟨d, hd, hlookup⟩

theorem Txn.dbiOpen_valid {x x' : Txn} {name : Bytes} {flags : BitVec 32} {next id : Nat}
    (h : x.dbiOpen name flags next = .ok (id, x'))
    : flags &&& ~~~validFlags = 0 := by
  unfold dbiOpen at h
  split at h
  . cases h
  . next hvalid => exact not_not.mp hvalid

structure Lists (dbname val : Bytes) (view : Data) (handles : List Dbi) : Prop where
  record : ((view.lookup metadata).getD []).lookup (dbKeyName dbname) = some val
  handle : ∃ d ∈ handles, d.name = dbname

namespace Lists

variable {x x' : Txn}

theorem put {dbi : Nat} {key val' : Bytes} {flags : BitVec 32} {answer : Lmdb.Answer} {rc : Rc}
    (h : Lists dbname val x.view x.known) (hput : x.put dbi key val' flags answer = (rc, x'))
    (hkey : ¬(x.target dbi = metadata ∧ key = dbKeyName dbname))
    : Lists dbname val x'.view x'.known := by
  obtain ⟨-, -, rfl⟩ | ⟨-, -, rfl⟩ | ⟨-, -, rfl⟩ := Txn.put_cases hput
  . exact ⟨(Data.lookup_put_of_ne _ _ hkey).trans h.record, h.handle⟩
  . exact h
  . exact h

theorem dbiOpen {name : Bytes} {flags : BitVec 32} {next id : Nat} (h : Lists dbname val x.view x.known)
    (hopen : x.dbiOpen name flags next = .ok (id, x'))
    : Lists dbname val x'.view x'.known := by
  obtain ⟨d, hd, hname⟩ := h.handle
  have hhandle : ∃ d ∈ x.dbis ++ (x.opened ++ [⟨next, name⟩]), d.name = dbname := by
    refine ⟨d, ?_, hname⟩
    rw [← List.append_assoc]
    exact List.mem_append_left _ hd
  unfold Txn.dbiOpen at hopen
  dsimp only at hopen
  repeat' split at hopen
  all_goals cases hopen
  . exact h
  . exact ⟨h.record, hhandle⟩
  . refine ⟨?_, hhandle⟩
    next hlookup _ _ _ =>
      -- a new database is not the metadata, which has the record
      have hne : metadata ≠ name := by
        rintro rfl
        have hrecord := h.record
        simp only [Bool.not_eq_true, Option.isSome_eq_false_iff, Option.isNone_iff_eq_none] at hlookup
        rw [hlookup] at hrecord
        cases hrecord
      dsimp only
      rw [Assoc.lookup_put_of_ne hne]
      exact h.record

theorem newTxn {e : Env} (h : Lists dbname val e.data e.dbis) (th : Nat) (rd : Bool)
    : Lists dbname val (e.newTxn th rd).view (e.newTxn th rd).known := by
  refine ⟨h.record, ?_⟩
  rw [Txn.known, Env.newTxn, List.append_nil]
  exact h.handle

theorem commit {e : Env} {i : Nat} (h : Lists dbname val x.view x.known) (hwf : e.WellFormed) (hx : e.txns i = some x)
    : Lists dbname val x.view (e.dbis ++ x.opened) := by
  obtain ⟨d, hd, hname⟩ := h.handle
  refine ⟨h.record, d, ?_, hname⟩
  rcases List.mem_append.mp hd with hd | hd
  . exact List.mem_append_left _ (hwf.dbis i x hx hd)
  . exact List.mem_append_right _ hd

end Lists

/--
The record is committed. The write transactions have it, and so have those transactions of `fresh` that are
active.
-/
structure Env.Committed (dbname val : Bytes) (fresh : Nat → Prop) (e : Env) : Prop where
  data : Lists dbname val e.data e.dbis
  txns : ∀ i x, e.txns i = some x → x.state = .active → x.rdonly = false ∨ fresh i → Lists dbname val x.view x.known

theorem Env.Committed.update {fresh : Nat → Prop} {e e' : Env} {i : Nat} {x' : Txn} (h : e.Committed dbname val fresh)
    (htxns : e'.txns = update e.txns i (some x')) (hdata : Lists dbname val e'.data e'.dbis)
    (hx' : x'.state = .active → x'.rdonly = false ∨ fresh i → Lists dbname val x'.view x'.known)
    : e'.Committed dbname val fresh := by
  refine ⟨hdata, ?_⟩
  intro j y hy hactive hfresh
  rw [htxns, update_apply] at hy
  split at hy
  . next heq =>
    cases hy
    subst heq
    exact hx' hactive hfresh
  . exact h.txns j y hy hactive hfresh

end Lmdb

namespace Db

open Prog Function

variable {puts : Bytes → Bytes → Prop} {dbname val : Bytes} {j : Nat} {s s' : Sys} {a : Action}

theorem Effect.committed {fresh : Nat → Prop} (heffect : Effect puts s s') (hs : s.Sound)
    (hputs : ¬ puts metadata (dbKeyName dbname)) (h : s.env.Committed dbname val fresh)
    : s'.env.Committed dbname val fresh := by
  cases heffect with
  | quiet hq => exact hq.env ▸ h
  | @begin i e th tt rd hbegin =>
    have hstarted := Lmdb.Env.begin_started hbegin
    refine h.update hstarted.txns ?_ fun _ _ => h.data.newTxn th rd
    rw [hstarted.data, hstarted.dbis]
    exact h.data
  | @renew i x th hx =>
    obtain heq | ⟨-, -, slots, heq⟩ := Lmdb.Env.renew_cases s.env th i x
    . rw [heq]
      exact h
    . rw [heq]
      exact h.update rfl h.data fun _ _ => h.data.newTxn th true
  | @commit tt i t x ht hcommit hi hx hended hrc =>
    refine h.update (Lmdb.Env.commit_txns _ _ _) ?_ nofun
    rw [Lmdb.Env.commit_success hrc]
    cases hrd : x.rdonly with
    | true => exact ⟨h.data.record, by
        obtain ⟨d, hd, hname⟩ := h.data.handle
        exact ⟨d, List.mem_append_left _ hd, hname⟩⟩
    | false =>
      have hactive : x.state = .active := by
        cases hstate : x.state with
        | active => rfl
        | reset => exact absurd hstate (hs.env.noReset i x hx hrd)
        | ended => exact absurd hstate hended
      exact (h.txns i x hx hactive (.inl hrd)).commit hs.env.wellFormed hx
  | @finish tt i t x st ht hcommit hi hx hst =>
    refine h.update (Lmdb.Env.finish_txns _ _ _ _) ?_ ?_
    . rw [Lmdb.Env.finish_data, Lmdb.Env.finish_dbis]
      exact h.data
    . rintro hactive
      rw [show st = .active from hactive] at hst
      simp at hst
  | @put tt i dbi t x x' key val' flags answer rc ht hrd hi hx hput hkey =>
    obtain ⟨y, hy, hyrd⟩ := hs.owned.txn tt t i ht hi
    rw [hx] at hy
    cases hy
    have hrdonly := hyrd.trans hrd
    refine h.update rfl h.data fun hactive _ => ?_
    have hrole := (Lmdb.Txn.put_role hput).1
    simp only [Lmdb.Txn.role, Prod.mk.injEq] at hrole
    refine (h.txns i x hx (hrole.2.2 ▸ hactive) (.inl hrdonly)).put hput ?_
    rintro ⟨htarget, rfl⟩
    rw [htarget] at hkey
    exact hputs hkey
  | @dbiOpen i id x x' name flags hx hopen =>
    refine h.update rfl h.data fun hactive hfresh => ?_
    have hrole := Lmdb.Txn.dbiOpen_role hopen
    simp only [Lmdb.Txn.role, Prod.mk.injEq] at hrole
    exact (h.txns i x hx (hrole.2.2 ▸ hactive) (hrole.1 ▸ hfresh)).dbiOpen hopen
  | _ => exact h

structure Written (dbname val : Bytes) (j : Nat) (s : Sys) : Prop where
  txn : ∃ x, s.env.txns j = some x ∧ x.rdonly = false ∧ x.state = .active ∧ Lmdb.Lists dbname val x.view x.known
  marked : ∀ tt t, s.tts tt = some t → t.txn = some j → t.commit = true

namespace Written

theorem writer (h : Written dbname val j s) (hs : s.Sound) : s.env.writer = some j := by
  obtain ⟨x, hx, hrd, hactive, -⟩ := h.txn
  exact hs.env.writer j x hx hrd hactive

theorem of_ne {i : Nat} {x' : Lmdb.Txn} (h : Written dbname val j s) (hne : j ≠ i)
    (htxns : s'.env.txns = update s.env.txns i (some x')) (htts : s'.tts = s.tts)
    : Written dbname val j s' := by
  obtain ⟨x, hx, hrest⟩ := h.txn
  exact ⟨⟨x, by rw [htxns, update_of_ne hne, hx], hrest⟩, htts ▸ h.marked⟩

theorem of_self {x x' : Lmdb.Txn} (h : Written dbname val j s) (hx : s.env.txns j = some x)
    (htxns : s'.env.txns = update s.env.txns j (some x')) (htts : s'.tts = s.tts) (hrole : x'.role = x.role)
    (hlists : x.rdonly = false → Lmdb.Lists dbname val x.view x.known → Lmdb.Lists dbname val x'.view x'.known)
    : Written dbname val j s' := by
  simp only [Lmdb.Txn.role, Prod.mk.injEq] at hrole
  obtain ⟨y, hy, hrd, hactive, hold⟩ := h.txn
  rw [hx] at hy
  cases hy
  refine ⟨⟨x', by rw [htxns, update_self], hrole.1.trans hrd, hrole.2.2.trans hactive, hlists hrd hold⟩, ?_⟩
  exact htts ▸ h.marked

theorem setTt {tt : Nat} {t : Option TrashTxn} (h : Written dbname val j s)
    (ht : ∀ u, t = some u → u.txn = some j → u.commit = true)
    : Written dbname val j { s with tts := update s.tts tt t } := by
  refine ⟨h.txn, ?_⟩
  intro tt' u hu hj
  dsimp only at hu
  rw [update_apply] at hu
  split at hu
  . exact ht u hu hj
  . exact h.marked tt' u hu hj

theorem commit (h : Written dbname val j s) (hs : s.Sound) {x : Lmdb.Txn} (hx : s.env.txns j = some x)
    (hrc : (s.env.commit j x).1 = .success)
    : (s.env.commit j x).2.Committed dbname val (· = j) := by
  obtain ⟨y, hy, hrd, hactive, hlists⟩ := h.txn
  rw [hx] at hy
  cases hy
  refine ⟨?_, ?_⟩
  . rw [Lmdb.Env.commit_success hrc, hrd]
    exact hlists.commit hs.env.wellFormed hx
  . intro i y hy hstate hfresh
    rw [Lmdb.Env.commit_txns, update_apply] at hy
    split at hy
    . cases hy
      cases hstate
    . next hne =>
      have hwrite := hs.env.writer i y hy (hfresh.resolve_right hne) hstate
      rw [h.writer hs] at hwrite
      cases hwrite
      exact absurd rfl hne

end Written

theorem Effect.written (heffect : Effect puts s s') (hs : s.Sound) (hputs : ¬ puts metadata (dbKeyName dbname))
    (h : Written dbname val j s)
    : Written dbname val j s' ∨ s'.env.Committed dbname val (· = j) := by
  obtain ⟨y, hy, hwrite, hactive, -⟩ := h.txn
  cases heffect with
  | quiet hq => exact .inl ⟨hq.env ▸ h.txn, hq.tts ▸ h.marked⟩
  | @begin i e th tt rd hbegin =>
    have hstarted := Lmdb.Env.begin_started hbegin
    have hne : j ≠ i := by
      rintro rfl
      rw [hs.env.wellFormed.fresh j (Nat.le_of_eq hstarted.index.symm)] at hy
      cases hy
    have henv : Written dbname val j { s with env := e } := h.of_ne hne hstarted.txns rfl
    refine .inl (henv.setTt ?_)
    rintro _ ⟨⟩ hj
    exact absurd (Option.some.inj hj).symm hne
  | wild tt =>
    refine .inl (h.setTt ?_)
    rintro _ ⟨⟩ ⟨⟩
  | @touch tt t u ht htxn hrd hcommit =>
    refine .inl (h.setTt ?_)
    rintro _ ⟨⟩ hj
    exact hcommit (h.marked tt t ht (htxn ▸ hj))
  | free tt => exact .inl (h.setTt nofun)
  | @renew i x th hx =>
    obtain heq | ⟨-, hreset, slots, heq⟩ := Lmdb.Env.renew_cases s.env th i x
    . rw [heq]
      exact .inl h
    . have hne : j ≠ i := by
        rintro rfl
        rw [hx] at hy
        cases hy
        rw [hactive] at hreset
        cases hreset
      exact .inl (h.of_ne hne (by rw [heq]) rfl)
  | @commit tt i t x ht hcommit hi hx hended hrc =>
    by_cases hij : j = i
    . subst hij
      exact .inr (h.commit hs hx hrc)
    . have henv : Written dbname val j { s with env := (s.env.commit i x).2 } :=
        h.of_ne hij (Lmdb.Env.commit_txns _ _ _) rfl
      refine .inl (henv.setTt ?_)
      rintro _ ⟨⟩ hj
      rw [show t.txn = some j from hj] at hi
      exact absurd (Option.some.inj hi) hij
  | @finish tt i t x st ht hcommit hi hx hst =>
    have hne : j ≠ i := by
      rintro rfl
      rw [h.marked tt t ht hi] at hcommit
      cases hcommit
    exact .inl (h.of_ne hne (Lmdb.Env.finish_txns _ _ _ _) rfl)
  | @put tt i dbi t x x' key val' flags answer rc ht hrd hi hx hput hkey =>
    by_cases hij : j = i
    . subst hij
      refine .inl (h.of_self hx rfl rfl (Lmdb.Txn.put_role hput).1 fun _ hlists => hlists.put hput ?_)
      rintro ⟨htarget, rfl⟩
      rw [htarget] at hkey
      exact hputs hkey
    . exact .inl (h.of_ne hij rfl rfl)
  | @dbiOpen i id x x' name flags hx hopen =>
    by_cases hij : j = i
    . subst hij
      exact .inl (h.of_self hx rfl rfl (Lmdb.Txn.dbiOpen_role hopen) fun _ hlists => hlists.dbiOpen hopen)
    . exact .inl (h.of_ne hij rfl rfl)
  | add flags hmentions => exact .inl ⟨h.txn, h.marked⟩
  | pc th hmentions => exact .inl ⟨h.txn, h.marked⟩

def Recorded (dbname val : Bytes) (j : Nat) (s : Sys) : Prop :=
  Written dbname val j s ∨ s.env.Committed dbname val (· = j)

theorem Reaches.committed {fresh : Nat → Prop} (h : Reaches puts s s') (hputs : ¬ puts metadata (dbKeyName dbname))
    (hs : s.Sound) (hcommitted : s.env.Committed dbname val fresh)
    : s'.env.Committed dbname val fresh := by
  induction h with
  | refl => exact hcommitted
  | tail hreaches heffect ih => exact heffect.committed (Reaches.sound hreaches hs) hputs ih

theorem Reaches.kept (h : Reaches puts s s') (hputs : ¬ puts metadata (dbKeyName dbname)) (hs : s.Sound)
    (hkept : Recorded dbname val j s)
    : Recorded dbname val j s' := by
  induction h with
  | refl => exact hkept
  | tail hreaches heffect ih =>
    have hsound := Reaches.sound hreaches hs
    obtain hwritten | hcommitted := ih
    . exact heffect.written hsound hputs hwritten
    . exact .inr (heffect.committed hsound hputs hcommitted)

theorem Effect.headed (heffect : Effect puts s s') (h : Headed s) : Headed s' := by
  obtain ⟨db, hdb, hname⟩ := h
  cases heffect with
  | quiet hq =>
    have hmap := congrArg (fun l => l[0]?) hq.dbs
    simp only [List.getElem?_map, hdb, Option.map_some] at hmap
    obtain ⟨db', hdb', heq⟩ := Option.map_eq_some_iff.mp hmap
    simp only [Prod.mk.injEq] at heq
    exact ⟨db', hdb', heq.1.trans hname⟩
  | add flags hmentions =>
    refine ⟨db, ?_, hname⟩
    rw [List.getElem?_append_left (List.getElem?_eq_some_iff.mp hdb).1]
    exact hdb
  | _ => exact ⟨db, hdb, hname⟩

theorem Reaches.headed (h : Reaches puts s s') (hhead : Headed s) : Headed s' := by
  induction h with
  | refl => exact hhead
  | tail _ heffect ih => exact heffect.headed ih

def UsesMetadata (tt : Nat) (s : Sys) : Prop :=
  ∃ t d db, s.tts tt = some t ∧ t.db = some d ∧ s.dbs[d]? = some db ∧ db.name = metadata

theorem changeTxnDb_metadata {tt : Nat} {rc : TrashRc} (hhead : Headed s)
    (hrun : (changeTxnDb tt metadata).run s = .ok rc s')
    : UsesMetadata tt s' := by
  obtain ⟨t, ht, ⟨-, rfl, hmatch⟩ | ⟨-, -, hnone⟩ | ⟨d, db, -, hdb, hname, rfl⟩⟩ := changeTxnDb_cases hrun
  . cases hd : t.db.bind (s'.dbs[·]?) with
    | none =>
      rw [hd] at hmatch
      cases hmatch
    | some db =>
      obtain ⟨d, hd, hdb⟩ := Option.bind_eq_some_iff.mp hd
      exact ⟨t, d, db, ht, hd, hdb, by simpa [dbMatch, hd, hdb] using hmatch⟩
  . obtain ⟨db, hdb, hname⟩ := hhead
    exact absurd hname (hnone db (List.mem_of_getElem? hdb))
  . exact ⟨{ t with db := some d }, d, { db with count := Word.add32 db.count 1 }, update_self _ _ _, rfl,
      by simp [hdb], hname⟩

/--
The name and the flags that `open_db` has stored and not published yet.
-/
def Pc.stored : Pc → Option (Bytes × BitVec 32)
  | .commit _ _ dbname _ dbMeta | .renew _ dbname _ dbMeta => some (dbname, dbMeta)
  | _ => none

theorem put_handle {x x' : Lmdb.Txn} {dbi : Nat} {key val' : Bytes} {flags : BitVec 32} {answer : Lmdb.Answer}
    (hput : x.put dbi key val' flags answer = (.success, x'))
    : ∃ d, x.handle dbi = some d := by
  cases hd : x.handle dbi with
  | some d => exact ⟨d, rfl⟩
  | none =>
    rw [Lmdb.Txn.put, hd] at hput
    cases hput

theorem openDbi_written {th tt temp : Nat} {flags dbMeta flags' : BitVec 32} {dbname' : Bytes} {u : Unit}
    (hs : s.Sound) (hmetadata : UsesMetadata temp s)
    (hrun : (openDbi th tt temp dbname flags dbMeta).run s = .ok u s')
    (hstored : (s'.pc th).stored = some (dbname', flags'))
    : dbname' = dbname ∧ flags' = dbMeta &&& ~~~mdbCreate ∧ flags &&& ~~~validFlags = 0 ∧
        ∃ j, Written dbname (dbRecord dbname dbMeta).2 j s' := by
  obtain ⟨t, s₁, hderef, hrest⟩ := bind_eq_ok.mp hrun
  obtain ⟨ht, rfl⟩ := derefTt_eq_ok.mp hderef
  obtain ⟨res, s₂, hopen, hrest₁⟩ := bind_eq_ok.mp hrest
  have hrefl : Reaches (fun _ _ => True) s₁ s₁ := Relation.ReflTransGen.refl
  have hs₂ : s₂.Sound := ((Reaches.mdbDbiOpen _ _ _).of_run hrefl hopen).1.sound hs
  cases res with
  | error rc => cases hrest₁
  | ok id =>
    obtain ⟨i, x, x', l, hi, hx, hdbi, rfl⟩ := mdbDbiOpen_cases hopen
    obtain ⟨hactive, -, -, hknown⟩ := Lmdb.Env.dbiOpen_known hdbi
    dsimp only at hrest₁
    split at hrest₁
    . obtain ⟨rc, s₃, hput, hrest₂⟩ := bind_eq_ok.mp hrest₁
      obtain ⟨_, s₄, hensure, hset⟩ := bind_eq_ok.mp hrest₂
      obtain ⟨hrc, rfl⟩ := ensure_eq_ok.mp hensure
      cases hset
      rw [putRecord_run] at hput
      obtain ⟨rfl, -⟩ | ⟨t', d, db, i', y, rc, y', l', ht', hrd, hd, hdb, hi', hy, hmdb, rfl, rfl⟩ :=
        trashPut_cases hput
      . cases hrc
      obtain rfl : rc = .success := by simpa using hrc
      replace hmdb := Lmdb.Txn.put_answer hmdb nofun
      -- the transaction that the database was opened in
      obtain rfl : t' = t := by
        rw [show s₁.tts temp = some t' from ht'] at ht
        exact Option.some.inj ht
      obtain rfl : i' = i := by
        rw [hi'] at hi
        exact Option.some.inj hi
      obtain rfl : y = x' := by
        have hself : update s₁.env.txns i' (some x') i' = some y := hy
        rw [update_self] at hself
        exact (Option.some.inj hself).symm
      obtain ⟨x₂, hx₂, hrdonly⟩ := hs₂.owned.txn temp t' i' ht' hi'
      rw [hy] at hx₂
      cases hx₂
      have htarget : y.target db.id = metadata := by
        obtain ⟨t₃, d₃, db₃, ht₃, hd₃, hdb₃, hname⟩ := hmetadata
        cases ht₃.symm.trans ht'
        cases hd₃.symm.trans hd
        cases hdb₃.symm.trans hdb
        obtain ⟨h, hh⟩ := put_handle hmdb
        rw [Lmdb.Txn.target, hh, Option.map_some, Option.getD_some,
          hs₂.handle_name hy (List.mem_of_getElem? hdb) hh, hname]
      obtain ⟨-, -, rfl⟩ | ⟨hfull, -⟩ | ⟨hfail, -⟩ := Lmdb.Txn.put_cases hmdb
      . have hpc : dbname' = dbname ∧ flags' = dbMeta &&& ~~~mdbCreate := by
          dsimp only at hstored
          rw [update_self] at hstored
          split at hstored <;>
          . cases hstored
            exact ⟨rfl, rfl⟩
        refine ⟨hpc.1, hpc.2, Lmdb.Txn.dbiOpen_valid hdbi, i',
          ⟨_, update_self _ _ _, hrdonly.trans hrd, hactive, ?_, ⟨⟨id, dbname⟩, hknown, rfl⟩⟩, ?_⟩
        . rw [htarget]
          exact Lmdb.Data.lookup_store_self _ _ _ _
        . intro tt' u hu hui
          dsimp only at hu
          rw [if_pos rfl, update_apply] at hu
          split at hu
          . cases hu
            rfl
          . next hne => exact absurd (hs₂.owned.owner tt' temp u t' i' hu ht' hui hi') hne
      . cases hfull
      . exact absurd rfl hfail
    . cases hrest₁
      dsimp only at hstored
      rw [update_self] at hstored
      cases hstored

theorem and_eq_zero_of_and {a b c : BitVec 32} (h : a &&& c = 0) (hb : b &&& a = b) : b &&& c = 0 := by
  rw [← hb, BitVec.and_assoc, h]
  exact BitVec.and_zero

/--
In this step `open_db` has created the database and stored its record, it is going to commit.
-/
structure Creates (s : Sys) (a : Action) (s' : Sys) (th : Nat) (dbname : Bytes) (flags : BitVec 32) : Prop where
  step : s.step a = some s'
  call : (∃ tt, a = .openDb th tt dbname flags) ∨ a = .resume th ∧ ∃ tt, s.pc th = .begin tt dbname flags
  stored : (s'.pc th).stored = some (dbname, flags &&& ~~~mdbCreate)

theorem Creates.written {th : Nat} {flags : BitVec 32} (h : Creates s a s' th dbname flags) (hs : s.Sound)
    (hhead : Headed s)
    : flags &&& ~~~mdbCreate &&& ~~~validFlags = 0 ∧ ∃ j, Written dbname (dbRecord dbname flags).2 j s' := by
  -- what is opened has these flags
  have hor : flags &&& ~~~mdbCreate &&& (flags ||| mdbCreate) = flags &&& ~~~mdbCreate := by
    ext i hi
    simp only [BitVec.getElem_and, BitVec.getElem_or, BitVec.getElem_not]
    cases flags[i] <;> cases mdbCreate[i] <;> rfl
  have hrefl : Reaches (fun _ _ => True) s s := Relation.ReflTransGen.refl
  obtain ⟨r, hrun⟩ := exec_of_step h.step
  have hstored := h.stored
  obtain ⟨tt, rfl⟩ | ⟨rfl, tt, hpc⟩ := h.call
  . obtain ⟨-, -, hrest⟩ := holds_bind_eq_ok.mp hrun
    obtain ⟨_, s₂, hopen, hpure⟩ := bind_eq_ok.mp hrest
    cases hpure
    obtain ⟨rc, s₃, hchange, hrest₁⟩ := bind_eq_ok.mp hopen
    have hs₃ := (Reaches.changeTxnDb tt metadata).of_run hrefl hchange
    have hmetadata := changeTxnDb_metadata hhead hchange
    obtain ⟨res, s₄, hget, hrest₂⟩ := bind_eq_ok.mp hrest₁
    have hsound : s₄.Sound := ((Reaches.trashGet tt dbname).of_run hs₃ hget).sound hs
    obtain ⟨-, -, -, -, -, l, -, -, -, -, -, -, rfl⟩ := trashGet_cases hget
    split at hrest₂
    . split at hrest₂
      . cases hrest₂
      . next dbMeta _ =>
        obtain ⟨-, heq, hvalid, j, hj⟩ := openDbi_written hsound hmetadata hrest₂ hstored
        refine ⟨and_eq_zero_of_and hvalid ?_, j, ?_⟩
        . have hflags : flags &&& ~~~mdbCreate &&& flags = flags &&& ~~~mdbCreate := by
            rw [BitVec.and_comm, ← BitVec.and_assoc, BitVec.and_self]
          have hmeta : flags &&& ~~~mdbCreate &&& dbMeta = flags &&& ~~~mdbCreate := by
            rw [heq, BitVec.and_comm, ← BitVec.and_assoc, BitVec.and_self]
          rw [← BitVec.and_assoc, hflags, hmeta]
        . rw [dbRecord, heq]
          exact hj
    . obtain ⟨t, s₅, hderef, hrest₃⟩ := bind_eq_ok.mp hrest₂
      obtain ⟨-, rfl⟩ := derefTt_eq_ok.mp hderef
      split at hrest₃
      . obtain ⟨_, s₆, -, hrest₄⟩ := bind_eq_ok.mp hrest₃
        obtain ⟨_, s₇, -, hset⟩ := bind_eq_ok.mp hrest₄
        cases hset
        dsimp only at hstored
        rw [update_self] at hstored
        cases hstored
      . obtain ⟨-, -, hvalid, hwritten⟩ := openDbi_written hsound hmetadata hrest₃ hstored
        exact ⟨and_eq_zero_of_and hvalid hor, hwritten⟩
    . cases hrest₂
  . obtain ⟨_, s₁, hresume, hpure⟩ := bind_eq_ok.mp hrun
    cases hpure
    rw [openDbResume, bind_of_ok (EStateM.run_get s), hpc] at hresume
    obtain ⟨⟨rc, temp⟩, s₂, hbegin, hopen⟩ := bind_eq_ok.mp hresume
    have hsound : s₂.Sound := ((Reaches.beginTxn th metadata false).of_run hrefl hbegin).sound hs
    obtain ⟨temp', s₃, hcreate, hrest⟩ := bind_eq_ok.mp hbegin
    have hhead₃ : Headed s₃ := ((Reaches.internalBeginTxn th false).of_run hrefl hcreate).headed hhead
    obtain ⟨_, s₄, hout, hrest₁⟩ := bind_eq_ok.mp hrest
    have hhead₄ : Headed s₄ := by
      cases hout
      exact hhead₃
    obtain ⟨rc', s₅, hchange, hpure⟩ := bind_eq_ok.mp hrest₁
    cases hpure
    have hmetadata := changeTxnDb_metadata hhead₄ hchange
    obtain ⟨-, -, hvalid, hwritten⟩ := openDbi_written hsound hmetadata hopen hstored
    exact ⟨and_eq_zero_of_and hvalid hor, hwritten⟩

/--
The transaction finds the record of the database, which does not ask for creating it.
-/
def Sys.finds (s : Sys) (tt : Nat) (dbname : Bytes) (flags : BitVec 32) : Bool :=
  match s.tts tt with
  | none => false
  | some t =>
    match t.txn.bind s.env.txns with
    | none => false
    | some x =>
      match (((x.view.lookup metadata).getD []).lookup dbname).bind readFlags with
      | none => false
      | some dbMeta => flags &&& dbMeta &&& mdbCreate == 0

def Action.finds (s : Sys) : Action → Bool
  | .openDb _ tt dbname flags => s.finds tt dbname flags
  | _ => false

/--
The call does not put the record of the database.
-/
def Spares (dbname : Bytes) (s : Sys) (a : Action) : Prop :=
  a.finds s = true ∨ ¬ a.puts s metadata (dbKeyName dbname)

instance : Decidable (Spares dbname s a) := inferInstanceAs (Decidable (_ ∨ _))

theorem changeTxnDb_txn {tt : Nat} {rc : TrashRc} {name : Bytes} (hrun : (changeTxnDb tt name).run s = .ok rc s')
    : ∃ t t', s.tts tt = some t ∧ s'.tts tt = some t' ∧ t'.txn = t.txn ∧ s'.env = s.env ∧ s'.log = s.log := by
  obtain ⟨t, ht, ⟨-, rfl, -⟩ | ⟨-, rfl, -⟩ | ⟨d, db, -, -, -, rfl⟩⟩ := changeTxnDb_cases hrun
  . exact ⟨t, t, ht, ht, rfl, rfl, rfl⟩
  . exact ⟨t, t, ht, ht, rfl, rfl, rfl⟩
  . exact ⟨t, { t with db := some d }, ht, update_self _ _ _, rfl, rfl, rfl⟩

theorem Spares.reaches (h : Spares dbname s a) (hs : s.Sound) (hhead : Headed s) (hstep : s.step a = some s')
    : ∃ puts, Reaches puts s s' ∧ ¬ puts metadata (dbKeyName dbname) := by
  obtain hfinds | hputs := h
  . cases a with
    | openDb th tt dbname' flags =>
      refine ⟨fun _ _ => False, ?_, id⟩
      have hrefl : Reaches (fun _ _ => False) s s := Relation.ReflTransGen.refl
      obtain ⟨r, hrun⟩ := exec_of_step hstep
      obtain ⟨-, -, hrest⟩ := holds_bind_eq_ok.mp hrun
      obtain ⟨_, s₂, hopen, hpure⟩ := bind_eq_ok.mp hrest
      cases hpure
      obtain ⟨rc, s₃, hchange, hrest₁⟩ := bind_eq_ok.mp hopen
      have hs₃ := (Reaches.changeTxnDb tt metadata).of_run hrefl hchange
      obtain ⟨t, t', ht, ht', htxn, henv, -⟩ := changeTxnDb_txn hchange
      obtain ⟨t'', d, db, ht'', hd, hdb, hname⟩ := changeTxnDb_metadata hhead hchange
      cases ht''.symm.trans ht'
      obtain ⟨res, s₄, hget, hrest₂⟩ := bind_eq_ok.mp hrest₁
      have hs₄ := (Reaches.trashGet tt dbname').of_run hs₃ hget
      obtain ⟨t₃, d₃, db₃, i, x, l, ht₃, hd₃, hdb₃, hi, hx, rfl, rfl⟩ := trashGet_cases hget
      cases ht₃.symm.trans ht'
      cases hd₃.symm.trans hd
      cases hdb₃.symm.trans hdb
      have hsound := hs₃.sound hs
      have htarget : ∀ {h}, x.handle db.id = some h → h.name = metadata := by
        intro h hh
        rw [hsound.handle_name hx (List.mem_of_getElem? hdb) hh, hname]
      rw [Action.finds, Sys.finds, ht] at hfinds
      dsimp only at hfinds
      rw [← htxn, hi, Option.bind_some, ← henv, hx] at hfinds
      dsimp only at hfinds
      split at hrest₂
      . next data hdata =>
        obtain ⟨h, hh, hlookup⟩ := Lmdb.Txn.get_ok hdata
        rw [htarget hh] at hlookup
        rw [hlookup, Option.bind_some] at hfinds
        cases hflags : readFlags data with
        | none =>
          rw [hflags] at hfinds
          cases hfinds
        | some dbMeta =>
          rw [hflags] at hfinds hrest₂
          refine (Reaches.openDbi th tt tt dbMeta fun hcreate => ?_).of_run hs₄ hrest₂
          exact absurd (beq_iff_eq.mp hfinds) hcreate
      . next hdata =>
        obtain ⟨h, hh, hlookup⟩ := Lmdb.Txn.get_notFound hdata
        rw [htarget hh] at hlookup
        rw [hlookup] at hfinds
        cases hfinds
      . cases hrest₂
    | _ => cases hfinds
  . exact ⟨a.puts s, reaches_of_step hstep, hputs⟩

theorem kept_of_run {I : Sys → Prop} {as : List Action}
    (hI : ∀ {puts s s'}, Reaches puts s s' → ¬ puts metadata (dbKeyName dbname) → s.Sound → I s → I s')
    (hs : s.Sound) (hhead : Headed s) (h : I s) (hspares : Lts.Along Sys.step (Spares dbname) s as)
    (hrun : Lts.run Sys.step s as = some s')
    : s'.Sound ∧ Headed s' ∧ I s' := by
  refine Lts.invariant_along (I := fun s => s.Sound ∧ Headed s ∧ I s) ?_ ⟨hs, hhead, h⟩ hspares hrun
  rintro s a s' ⟨hs, hhead, h⟩ hspares hstep
  obtain ⟨puts, hreaches, hputs⟩ := hspares.reaches hs hhead hstep
  exact ⟨hreaches.sound hs, hreaches.headed hhead, hI hreaches hputs hs h⟩

structure Readable (s : Sys) (th tt i : Nat) : Prop where
  idle : s.pc th = .idle
  out : (th, tt) ∈ s.out
  tt : ∃ t ∈ s.tts tt, t.txn = some i
  txn : ∃ x ∈ s.env.txns i, x.usable = true ∧ ∀ db ∈ s.dbs, db.name = metadata → (x.handle db.id).isSome

instance (s : Sys) (th tt i : Nat) : Decidable (Readable s th tt i) :=
  decidable_of_iff
    (s.pc th = .idle ∧ (th, tt) ∈ s.out ∧ (∃ t ∈ s.tts tt, t.txn = some i) ∧
      ∃ x ∈ s.env.txns i, x.usable = true ∧ ∀ db ∈ s.dbs, db.name = metadata → (x.handle db.id).isSome)
    ⟨fun ⟨hidle, hout, htt, htxn⟩ => ⟨hidle, hout, htt, htxn⟩, fun h => ⟨h.idle, h.out, h.tt, h.txn⟩⟩

theorem Readable.active {th tt i : Nat} (h : Readable s th tt i)
    : ∃ x, s.env.txns i = some x ∧ x.state = .active := by
  obtain ⟨x, hx, husable, -⟩ := h.txn
  exact ⟨x, hx, (Lmdb.Txn.usable_iff.mp husable).1⟩

theorem changeTxnDb_run {tt : Nat} {t : TrashTxn} (name : Bytes) (ht : s.tts tt = some t)
    : ∃ rc s', (changeTxnDb tt name).run s = .ok rc s' := by
  cases hmatch : dbMatch (t.db.bind (s.dbs[·]?)) name with
  | true => exact ⟨_, _, changeTxnDb_same ht hmatch⟩
  | false =>
    cases hd : s.dbs.findIdx? fun db => dbMatch (some db) name with
    | none => exact ⟨_, _, changeTxnDb_unknown ht hmatch hd⟩
    | some d => exact ⟨_, _, changeTxnDb_found ht hmatch hd⟩

theorem openDb_found {th tt i : Nat} {x : Lmdb.Txn} {flags dbMeta : BitVec 32} (hs : s.Sound) (hhead : Headed s)
    (hready : Readable s th tt i) (hx : s.env.txns i = some x) (hlists : Lmdb.Lists dbname val x.view x.known)
    (hname : dbKeyName dbname = dbname) (hval : readFlags val = some dbMeta)
    (hcreate : flags &&& dbMeta &&& mdbCreate = 0)
    (hvalid : flags &&& dbMeta &&& ~~~validFlags = 0)
    : ∃ s', s.step (.openDb th tt dbname flags) = some s' ∧
        s'.log = s.log ++ [.access true, .get dbname (.ok val), .access true, .dbiOpen dbname (flags &&& dbMeta)] := by
  obtain ⟨t, ht, hi⟩ := hready.tt
  obtain ⟨y, hy, husable, hhandle⟩ := hready.txn
  cases hy.symm.trans hx
  have hactive : x.state = .active := (Lmdb.Txn.usable_iff.mp husable).1
  obtain ⟨rc, s₁, hchange⟩ := changeTxnDb_run metadata ht
  obtain ⟨t₀, t₁, ht₀, ht₁, htxn, henv, hlog⟩ := changeTxnDb_txn hchange
  cases ht₀.symm.trans ht
  obtain ⟨t₂, d, db, ht₂, hd, hdb, hmetadata⟩ := changeTxnDb_metadata hhead hchange
  cases ht₂.symm.trans ht₁
  have hrefl : Reaches (fun _ _ => True) s s := Relation.ReflTransGen.refl
  have hs₁ : s₁.Sound := ((Reaches.changeTxnDb tt metadata).of_run hrefl hchange).sound hs
  have hx₁ : s₁.env.txns i = some x := henv ▸ hx
  have hi₁ : t₁.txn = some i := htxn.trans hi
  obtain ⟨h, hh⟩ : ∃ h, x.handle db.id = some h := by
    have hmap := (Alike.changeTxnDb tt metadata).of_run hchange
    have hmem : (db.name, db.id) ∈ s.dbs.map fun db => (db.name, db.id) := by
      rw [← hmap.dbs]
      exact List.mem_map_of_mem (List.mem_of_getElem? hdb)
    obtain ⟨db', hdb', heq⟩ := List.mem_map.mp hmem
    simp only [Prod.mk.injEq] at heq
    rw [← heq.2]
    exact Option.isSome_iff_exists.mp (hhandle db' hdb' (heq.1.trans hmetadata))
  have hget : x.get db.id dbname = .ok val := by
    have hh' : h.name = metadata := (hs₁.handle_name hx₁ (List.mem_of_getElem? hdb) hh).trans hmetadata
    have hne : dbname ≠ [] := by
      rw [← hname]
      simp [dbKeyName, dbPrefix]
    have hrecord := hlists.record
    rw [hname] at hrecord
    simp [Lmdb.Txn.get, hh, husable, hne, hh', hrecord]
  obtain ⟨k, hk⟩ : ∃ k, (x.known.find? fun d => d.name == dbname) = some k := by
    apply Option.isSome_iff_exists.mp
    simpa using hlists.handle
  have hdbi : x.dbiOpen dbname (flags &&& dbMeta) s₁.env.nextDbi = .ok (k.id, x) := by
    simp [Lmdb.Txn.dbiOpen, hvalid, husable, hk]
  have hderef : (derefDb t₁.db).run s₁ = .ok db s₁ := by simp [derefDb, hd, hdb]
  obtain ⟨s₂, htrash, ht₂, henv₂, hlog₂⟩ : ∃ s₂, (trashGet tt dbname).run s₁ = .ok (.ok val) s₂ ∧
      s₂.tts tt = some t₁ ∧ s₂.env = s₁.env ∧ s₂.log = s₁.log ++ [.access true, .get dbname (.ok val)] := by
    rw [trashGet, bind_of_ok (derefTt_of_some ht₁), bind_of_ok hderef, hi₁, mdbGet_of_active hx₁ hactive, hget]
    exact ⟨_, rfl, ht₁, rfl, rfl⟩
  have hopen : ∃ s', (openDb th tt dbname flags).run s = .ok () s' ∧
      s'.log = s₂.log ++ [.access true, .dbiOpen dbname (flags &&& dbMeta)] := by
    have hx₂ : s₂.env.txns i = some x := henv₂ ▸ hx₁
    rw [openDb, bind_of_ok hchange, bind_of_ok htrash]
    dsimp only
    rw [hval]
    dsimp only
    rw [openDbi, bind_of_ok (derefTt_of_some ht₂), hi₁, bind_of_ok (mdbDbiOpen_of_active hx₂ hactive (henv₂ ▸ hdbi)
      fun n => Lmdb.Env.refusal_self _ n x)]
    dsimp only
    rw [if_neg (by simp [hcreate])]
    exact ⟨_, rfl, rfl⟩
  obtain ⟨s', hrun, hlog'⟩ := hopen
  refine ⟨s', ?_, by rw [hlog', hlog₂, hlog, List.append_assoc]; rfl⟩
  have hholds : (holds th tt).run s = .ok () s := holds_eq_ok.mpr ⟨hready.idle, hready.out, rfl⟩
  rw [Sys.step, exec, bind_of_ok hholds, bind_of_ok hrun]
  rfl

/--
A call of `open_db` finds the record that was stored for `f₁`, opens the database with these flags and does
not touch the record.
-/
def FlagsWin (s : Sys) (th tt : Nat) (dbname : Bytes) (f₁ f₂ : BitVec 32) : Prop :=
  ∃ s', s.step (.openDb th tt dbname f₂) = some s' ∧
    .get (dbRecord dbname f₁).1 (.ok (dbRecord dbname f₁).2) ∈ s'.log.drop s.log.length ∧
    .dbiOpen dbname (f₁ &&& ~~~mdbCreate) ∈ s'.log.drop s.log.length ∧
    ∀ val, .put (dbRecord dbname f₁).1 val ∉ s'.log.drop s.log.length

theorem FlagsWin.key_eq {th tt : Nat} {f₁ f₂ : BitVec 32} (h : FlagsWin s th tt dbname f₁ f₂)
    : dbKeyName dbname = dbname := by
  obtain ⟨s', hstep, hget, -, -⟩ := h
  obtain ⟨r, hrun⟩ := exec_of_step hstep
  have hkeyed := keyed_exec (s := s) (a := .openDb th tt dbname f₂) rfl
  rw [hrun] at hkeyed
  exact hkeyed.fits_of_mem_drop hget

theorem flagsWin_of_lists {th tt i : Nat} {x : Lmdb.Txn} {f₁ f₂ : BitVec 32} (hs : s.Sound) (hhead : Headed s)
    (hready : Readable s th tt i) (hx : s.env.txns i = some x)
    (hlists : Lmdb.Lists dbname (dbRecord dbname f₁).2 x.view x.known) (hvalid : f₁ &&& ~~~mdbCreate &&& ~~~validFlags = 0)
    : FlagsWin s th tt dbname f₁ f₂ ↔
        dbKeyName dbname = dbname ∧ f₁ &&& ~~~mdbCreate &&& f₂ = f₁ &&& ~~~mdbCreate := by
  by_cases hname : dbKeyName dbname = dbname
  . have hcreate : f₂ &&& (f₁ &&& ~~~mdbCreate) &&& mdbCreate = 0 := by
      rw [BitVec.and_assoc, BitVec.and_assoc]
      ext i hi
      simp
    have hvalid₂ : f₂ &&& (f₁ &&& ~~~mdbCreate) &&& ~~~validFlags = 0 := by
      rw [BitVec.and_assoc, hvalid]
      exact BitVec.and_zero
    obtain ⟨s', hstep, hlog⟩ :=
      openDb_found hs hhead hready hx hlists hname (readFlags_flagsBytes _) hcreate hvalid₂
    have hkey : (dbRecord dbname f₁).1 = dbname := hname
    constructor
    . rintro ⟨s'', hstep', -, hopen, -⟩
      cases hstep.symm.trans hstep'
      rw [hlog, List.drop_left] at hopen
      refine ⟨hname, ?_⟩
      simp only [List.mem_cons, List.not_mem_nil, or_false, reduceCtorEq, false_or, Call.dbiOpen.injEq, true_and] at hopen
      rw [BitVec.and_comm]
      exact hopen.symm
    . rintro ⟨-, hflags⟩
      refine ⟨s', hstep, ?_⟩
      rw [hlog, List.drop_left, hkey, BitVec.and_comm, hflags]
      simp
  . refine iff_of_false (fun h => hname h.key_eq) fun h => hname h.1

/--
Every later call of `open_db` that sees the commit, if no other call puts the record.
-/
theorem flagsWin_iff {data : Lmdb.Data} {th₀ th₁ th tt i j : Nat} {after : Bytes → Bytes} {as as₁ as₂ : List Action}
    {s₀ s₁ sₘ s₂ : Sys} {f₁ f₂ : BitVec 32}
    (hrun : Lts.run Sys.step (.init data) (.initMetadata th₀ after :: as) = some s₀)
    (hcreates : Creates s₀ a s₁ th₁ dbname f₁) (hj : s₁.env.writer = some j)
    (hrun₁ : Lts.run Sys.step s₁ as₁ = some sₘ) (hspares₁ : Lts.Along Sys.step (Spares dbname) s₁ as₁)
    (hrun₂ : Lts.run Sys.step sₘ as₂ = some s₂) (hspares₂ : Lts.Along Sys.step (Spares dbname) sₘ as₂)
    (hvisible : i = j ∨ sₘ.env.writer ≠ some j ∧ ∀ x, sₘ.env.txns i = some x → x.state ≠ .active)
    (hready : Readable s₂ th tt i)
    : FlagsWin s₂ th tt dbname f₁ f₂ ↔
        dbKeyName dbname = dbname ∧ f₁ &&& ~~~mdbCreate &&& f₂ = f₁ &&& ~~~mdbCreate := by
  obtain ⟨s', hstep, hrun⟩ := Option.bind_eq_some_iff.mp hrun
  have hs' : s'.Sound := (reaches_of_step hstep).sound (.init .unlimited data)
  have hs₀ : s₀.Sound := hs'.of_run hrun
  have hhead₀ : Headed s₀ :=
    Lts.invariant_run (fun _ _ _ hhead h => (reaches_of_step h).headed hhead) (openEnv_of_step hstep).head hrun
  -- the creating transaction writes
  obtain ⟨hvalid, j', hwritten⟩ := hcreates.written hs₀ hhead₀
  have hs₁ : s₁.Sound := (reaches_of_step hcreates.step).sound hs₀
  have hhead₁ : Headed s₁ := (reaches_of_step hcreates.step).headed hhead₀
  obtain rfl : j' = j := by
    rw [hwritten.writer hs₁] at hj
    exact Option.some.inj hj
  have hkept : ∀ {s s' : Sys} {as : List Action}, s.Sound → Headed s → Recorded dbname (dbRecord dbname f₁).2 j' s →
      Lts.Along Sys.step (Spares dbname) s as → Lts.run Sys.step s as = some s' →
      s'.Sound ∧ Headed s' ∧ Recorded dbname (dbRecord dbname f₁).2 j' s' :=
    fun hs hhead h hspares hrun => kept_of_run (fun hr hp hs h => Reaches.kept hr hp hs h) hs hhead h hspares hrun
  obtain ⟨hsₘ, hheadₘ, hkeptₘ⟩ := hkept hs₁ hhead₁ (.inl hwritten) hspares₁ hrun₁
  obtain ⟨hs₂, hhead₂, hkept₂⟩ := hkept hsₘ hheadₘ hkeptₘ hspares₂ hrun₂
  obtain ⟨x, hx, hactive⟩ := hready.active
  refine flagsWin_of_lists hs₂ hhead₂ hready hx ?_ hvalid
  obtain rfl | ⟨hwriter, hinactive⟩ := hvisible
  . obtain hwritten₂ | hcommitted₂ := hkept₂
    . obtain ⟨y, hy, -, -, hlists⟩ := hwritten₂.txn
      cases hy.symm.trans hx
      exact hlists
    . exact hcommitted₂.txns i x hx hactive (.inr rfl)
  . have hcommittedₘ : sₘ.env.Committed dbname (dbRecord dbname f₁).2 (· = i) := by
      obtain hwrittenₘ | hcommittedₘ := hkeptₘ
      . exact absurd (hwrittenₘ.writer hsₘ) hwriter
      . refine ⟨hcommittedₘ.data, ?_⟩
        rintro k y hy hstate (hrd | rfl)
        . exact hcommittedₘ.txns k y hy hstate (.inl hrd)
        . exact absurd hstate (hinactive y hy)
    obtain ⟨-, -, hcommitted₂⟩ :=
      kept_of_run (I := fun s => s.env.Committed dbname (dbRecord dbname f₁).2 (· = i))
        (fun hr hp hs h => Reaches.committed hr hp hs h) hsₘ hheadₘ hcommittedₘ hspares₂ hrun₂
    exact hcommitted₂.txns i x hx hactive (.inr rfl)

/--
A database that was created in a write transaction, which was committed before another one began.
-/
def Reopened (dbname : Bytes) (flags : BitVec 32) : Prop :=
  ∃ s₀ ∈ Lts.run Sys.step (.init []) [.initMetadata 0 fun _ => [], .beginTxn 0 metadata false],
    ∃ s₁ ∈ s₀.step (.openDb 0 1 dbname flags),
      (s₁.pc 0).stored = some (dbname, flags &&& ~~~mdbCreate) ∧ s₁.env.writer = some 1 ∧
      Lts.Along Sys.step (Spares dbname) s₁ [.resume 0, .resume 0, .returnTxn 0 1] ∧
      ∃ sₘ ∈ Lts.run Sys.step s₁ [.resume 0, .resume 0, .returnTxn 0 1],
        sₘ.env.writer ≠ some 1 ∧ sₘ.env.txns 2 = none ∧
        ((sₘ.env.data.lookup metadata).getD []).lookup (dbKeyName dbname) = some (dbRecord dbname flags).2 ∧
        ∃ s₂ ∈ Lts.run Sys.step sₘ [.beginTxn 0 metadata true], Readable s₂ 0 2 2

instance (dbname : Bytes) (flags : BitVec 32) : Decidable (Reopened dbname flags) := by
  unfold Reopened
  infer_instance

def prefixes : Bytes := (List.replicate 64 dbPrefix).flatten.take 255

theorem reopened_prefixes : Reopened prefixes 2 := by
  decide +kernel

theorem flagsWin_prefixes : ∃ s, Readable s 0 2 2 ∧ FlagsWin s 0 2 prefixes 2 2 := by
  obtain ⟨s₀, hrun₀, s₁, hstep, hstored, hwriter, hspares, sₘ, hrun₁, hended, hnew, -, s₂, hrun₂, hready⟩ :=
    reopened_prefixes
  have hcreates : Creates s₀ (.openDb 0 1 prefixes 2) s₁ 0 prefixes 2 := ⟨hstep, .inl ⟨1, rfl⟩, hstored⟩
  have hbegin : Lts.Along Sys.step (Spares prefixes) sₘ [.beginTxn 0 metadata true] :=
    ⟨.inr id, fun _ _ => trivial⟩
  have hinactive : ∀ x, sₘ.env.txns 2 = some x → x.state ≠ .active := by
    rw [hnew]
    nofun
  have hiff : FlagsWin s₂ 0 2 prefixes 2 2 ↔ _ :=
    flagsWin_iff hrun₀ hcreates hwriter hrun₁ hspares hrun₂ hbegin (.inr ⟨hended, hinactive⟩) hready
  exact ⟨s₂, hready, hiff.mpr ⟨by decide +kernel, by decide⟩⟩

theorem reopened_letter : Reopened [0x61] 2 := by
  decide +kernel

/--
The record is stored under "dbs:a" and committed, "a" is not found.
-/
theorem not_flagsWin_letter
    : ∃ s₀ s₁ sₘ s₂,
        Lts.run Sys.step (.init []) [.initMetadata 0 fun _ => [], .beginTxn 0 metadata false] = some s₀ ∧
        Creates s₀ (.openDb 0 1 [0x61] 2) s₁ 0 [0x61] 2 ∧ s₁.env.writer = some 1 ∧
        Lts.run Sys.step s₁ [.resume 0, .resume 0, .returnTxn 0 1] = some sₘ ∧ sₘ.env.writer ≠ some 1 ∧
        ((sₘ.env.data.lookup metadata).getD []).lookup (dbKeyName [0x61]) = some (dbRecord [0x61] 2).2 ∧
        Lts.run Sys.step sₘ [.beginTxn 0 metadata true] = some s₂ ∧ Readable s₂ 0 2 2 ∧
        ¬ FlagsWin s₂ 0 2 [0x61] 2 2 := by
  obtain ⟨s₀, hrun₀, s₁, hstep, hstored, hwriter, -, sₘ, hrun₁, hended, -, hrecord, s₂, hrun₂, hready⟩ :=
    reopened_letter
  refine ⟨s₀, s₁, sₘ, s₂, hrun₀, ⟨hstep, .inl ⟨1, rfl⟩, hstored⟩, hwriter, hrun₁, hended, hrecord, hrun₂, hready, ?_⟩
  exact fun h => absurd h.key_eq (by decide)

end Db
