import TrashDb.Db.Lemmas.Scan
import TrashDb.Db.Lemmas.Store

/-!
This module contains what the next `open_env` finds: as long as databases are only created with names that fit
into their records and without other flags, the metadata database is a catalog of the databases that there are,
and the registry is the same again after every restart.
-/

namespace Db

open Prog Function
open SingleWriter (Store)

/--
The name of a database that can be read back from its record.
-/
structure Storable (name : Bytes) : Prop where
  nonempty : name ≠ []
  zero : 0 ∉ name
  length : name.length ≤ 251
  user : name ≠ metadata

instance (name : Bytes) : Decidable (Storable name) :=
  decidable_of_iff (name ≠ [] ∧ 0 ∉ name ∧ name.length ≤ 251 ∧ name ≠ metadata)
    ⟨fun ⟨hnil, hzero, hlen, huser⟩ => ⟨hnil, hzero, hlen, huser⟩, fun h => ⟨h.nonempty, h.zero, h.length, h.user⟩⟩

/--
The databases of the data are those that have a record.
-/
structure Catalog (data : Lmdb.Data) : Prop where
  sorted : ((data.lookup metadata).getD []).Pairwise fun r r' => r.1 < r'.1
  records : ∀ r ∈ (data.lookup metadata).getD [],
    r = (metaMeta, []) ∨ ∃ name, Storable name ∧ data.Has name ∧ r = (dbKeyName name, flagsBytes 0)
  named : ∀ name, data.Has name →
    name = metadata ∨ Storable name ∧ (dbKeyName name, flagsBytes 0) ∈ (data.lookup metadata).getD []

namespace Catalog

variable {data : Lmdb.Data} {name key val : Bytes}

theorem nil : Catalog [] := ⟨List.Pairwise.nil, nofun, nofun⟩

theorem contents_store (data : Lmdb.Data) (name key val : Bytes)
    : ((data.store name key val).lookup name).getD [] = Assoc.put key val ((data.lookup name).getD []) := by
  rw [Lmdb.Data.store, Assoc.lookup_put_self, Option.getD_some]

theorem congr {data' : Lmdb.Data} (h : Catalog data)
    (hcontents : (data'.lookup metadata).getD [] = (data.lookup metadata).getD [])
    (hhas : ∀ name, data.Has name → data'.Has name) (hnew : ∀ name, data'.Has name → name = metadata ∨ data.Has name)
    : Catalog data' := by
  constructor
  . rw [hcontents]
    exact h.sorted
  . rw [hcontents]
    intro r hr
    exact (h.records r hr).imp_right fun ⟨name, hname, hdata, heq⟩ => ⟨name, hname, hhas name hdata, heq⟩
  . rw [hcontents]
    intro name hdata
    exact (hnew name hdata).elim .inl (h.named name)

theorem put {data' : Lmdb.Data} (h : Catalog data)
    (hcontents : (data'.lookup metadata).getD [] = Assoc.put key val ((data.lookup metadata).getD []))
    (hhas : ∀ name, data.Has name → data'.Has name)
    (hnew : ∀ name, data'.Has name → name = metadata ∨ data.Has name ∨ Storable name ∧ (key, val) = (dbKeyName name, flagsBytes 0))
    (hrecord : (key, val) = (metaMeta, []) ∨
      ∃ name, Storable name ∧ data'.Has name ∧ (key, val) = (dbKeyName name, flagsBytes 0))
    : Catalog data' := by
  constructor
  . rw [hcontents]
    exact Assoc.pairwise_put h.sorted key val
  . rw [hcontents]
    intro r hr
    rcases Assoc.eq_or_mem_of_mem_put hr with rfl | hr
    . exact hrecord
    . exact (h.records r hr).imp_right fun ⟨name, hname, hdata, heq⟩ => ⟨name, hname, hhas name hdata, heq⟩
  . rw [hcontents]
    intro name hdata
    rcases hnew name hdata with rfl | hdata | ⟨hname, heq⟩
    . exact .inl rfl
    . refine (h.named name hdata).imp_right fun ⟨hname, hmem⟩ => ⟨hname, ?_⟩
      by_cases hkey : dbKeyName name = key
      . -- it is the record that was there before
        rcases hrecord with hmeta | ⟨_, _, _, heq⟩
        . cases hmeta
          cases hkey
        . cases heq
          rw [hkey]
          exact Assoc.mem_put_self _ _ _
      . exact Assoc.mem_put_of_ne hmem hkey val
    . refine .inr ⟨hname, ?_⟩
      rw [← heq]
      exact Assoc.mem_put_self _ _ _

theorem create_metadata (h : Catalog data) : Catalog ((Write.create metadata).apply data) := by
  rw [Write.apply]
  split
  . exact h
  . next hnone =>
    have hlookup : data.lookup metadata = none := Option.not_isSome_iff_eq_none.mp hnone
    refine h.congr ?_ (fun name hhas => Lmdb.Data.has_put.mpr (.inr hhas)) fun name hhas => Lmdb.Data.has_put.mp hhas
    rw [Assoc.lookup_put_self, hlookup]
    rfl

theorem store_metaMeta (h : Catalog data) : Catalog (data.store metadata metaMeta []) := by
  refine h.put (contents_store _ _ _ _) (fun name hhas => hhas.store _ _ _) (fun name hhas => ?_) (.inl rfl)
  exact (Lmdb.Data.has_put.mp hhas).imp_right .inl

theorem put_user (h : Catalog data) (hname : name ≠ metadata) (hhas : data.Has name) (key val : Bytes)
    (answer : Lmdb.Answer)
    : Catalog (data.put name key val answer) := by
  refine h.congr ?_ (fun _ hhas => hhas.put _ _ _ _) fun name' hhas' => ?_
  . rw [Lmdb.Data.lookup_put hname.symm]
  . rcases Lmdb.Data.has_of_put hhas' with rfl | hhas'
    . exact .inr hhas
    . exact .inr hhas'

theorem create_user (h : Catalog data) (hname : Storable name)
    : Catalog ([.create name, .put metadata (dbKeyName name) (flagsBytes 0) .plain].foldl Write.apply data) := by
  have hhas : ∀ name', ((Write.create name).apply data).Has name' ↔ name' = name ∨ data.Has name' := by
    intro name'
    rw [Write.apply]
    split
    . next hdata => exact ⟨.inr, fun h => h.elim (fun heq => heq ▸ hdata) id⟩
    . exact Lmdb.Data.has_put
  apply h.put
  . have hlookup : ((Write.create name).apply data).lookup metadata = data.lookup metadata := by
      rw [Write.apply]
      split
      . rfl
      . exact Assoc.lookup_put_of_ne hname.user.symm _ _
    rw [← hlookup]
    exact contents_store _ _ _ _
  . exact fun name' hdata => ((hhas name').mpr (.inr hdata)).store _ _ _
  . intro name' hdata
    rcases Lmdb.Data.has_put.mp hdata with rfl | hdata
    . exact .inl rfl
    . rcases (hhas name').mp hdata with rfl | hdata
      . exact .inr (.inr ⟨hname, rfl⟩)
      . exact .inr (.inl hdata)
  . exact .inr ⟨name, hname, ((hhas name).mpr (.inl rfl)).store _ _ _, rfl⟩

end Catalog

theorem Working.openRecords {tt i : Nat} {t : TrashTxn} {d : Lmdb.Data} {after : Bytes → Bytes} (records : Lmdb.Contents)
    (hflags : ∀ r ∈ records, isRecord after r = true → ∀ old flags, copyFlags old r.2 = some flags → flags &&& mdbCreate = 0)
    : ∀ {dbMeta x u s s'}, Working tt i t x d s → (∀ h ∈ x.known, x.view.Has h.name) →
        (openRecords tt after dbMeta records).run s = .ok u s' →
        ∃ x', Working tt i t x' d s' ∧ x'.view = x.view := by
  induction records with
  | nil =>
    intro dbMeta x u s s' h hknown hrun
    cases hrun
    exact ⟨x, h, rfl⟩
  | cons r records ih =>
    obtain ⟨key, val⟩ := r
    intro dbMeta x u s s' h hknown hrun
    unfold Db.openRecords at hrun
    split at hrun
    . next hprefix =>
      split at hrun
      . cases hrun
      . next dbname flags hread =>
        have hcreate : flags &&& mdbCreate = 0 := by
          obtain ⟨flags', hcopy, heq⟩ := Option.map_eq_some_iff.mp hread
          cases heq
          exact hflags _ List.mem_cons_self (by simpa [isRecord] using hprefix) _ _ hcopy
        rw [bind_of_ok (derefTt_of_some h.tts)] at hrun
        obtain ⟨res, s₁, hopen, hrest⟩ := bind_eq_ok.mp hrun
        cases res with
        | error rc => cases hrest
        | ok id =>
          obtain ⟨x', h', hknown', hview⟩ := h.mdbDbiOpen hknown hopen
          obtain ⟨_, s₂, hadd, hrest₁⟩ := bind_eq_ok.mp hrest
          cases hadd
          rw [if_neg (not_not.mpr hcreate)] at hview
          have hadded : Working tt i t x' d { s₁ with dbs := s₁.dbs ++ [⟨dbname, flags, id, 0⟩] } :=
            h'.congr rfl rfl rfl rfl
          obtain ⟨x'', h'', hview'⟩ := ih (fun r hr => hflags r (List.mem_cons_of_mem _ hr)) hadded hknown' hrest₁
          exact ⟨x'', h'', hview'.trans hview⟩
    . cases hrun
      exact ⟨x, h, rfl⟩

theorem Catalog.flags {data : Lmdb.Data} {after : Bytes → Bytes} (h : Catalog data)
    : ∀ r ∈ ((data.lookup metadata).getD []).dropWhile fun r => r.1 < dbPrefix, isRecord after r = true →
        ∀ old flags, copyFlags old r.2 = some flags → flags &&& mdbCreate = 0 := by
  intro r hr hrecord old flags hcopy
  rcases h.records r ((List.dropWhile_sublist _).subset hr) with rfl | ⟨name, -, -, rfl⟩
  . cases hrecord
  . rw [copyFlags_flagsBytes] at hcopy
    cases hcopy
    rfl

theorem Working.scan {th tt i n : Nat} {t : TrashTxn} {x : Lmdb.Txn} {d : Lmdb.Data} {db : OpenDb} {after : Bytes → Bytes}
    {u : Unit} {s s' : Sys} (h : Working tt i t x d s) (hw : Writing tt i t x db s) (hfailed : x.failed = false)
    (hcommit : t.commit = true) (hd : x.handle db.id = some ⟨n, metadata⟩) (hknown : ∀ h ∈ x.known, x.view.Has h.name)
    (hcatalog : Catalog x.view)
    (hrun : (do
      let rc ← Db.putRecord tt metaMeta [] mdbNoOverwrite
      ensure (rc == some Lmdb.Rc.success || rc == some Lmdb.Rc.keyExist) (.assertFailed .put)
      let curr ← Db.createCursor th (some tt)
      let records ← cursorRange curr dbPrefix
      Db.openRecords tt after metadataFlags records
      returnCursor curr
      Db.returnTxn th tt).run s = .ok u s')
    : Catalog s'.env.data ∧ ∀ name, s'.env.data.Has name ↔ name = metadata ∨ x.view.Has name := by
  have hmetadata : x.view.Has metadata := by
    have hmem := List.mem_of_find?_eq_some hd
    exact hknown _ hmem
  cases hput : x.put db.id metaMeta [] mdbNoOverwrite (s.env.limits.answer s.log.length) with | mk rc x'
  have hrun₁ := hw.trashPut hput
  rw [← putRecord_run] at hrun₁
  rw [bind_of_ok hrun₁] at hrun
  obtain ⟨_, s₀, hensure, hrun⟩ := bind_eq_ok.mp hrun
  obtain ⟨hrc, rfl⟩ := ensure_eq_ok.mp hensure
  have hplain := Lmdb.Txn.put_answer hput (by rintro rfl; cases hrc)
  rw [Lmdb.Txn.put_of_usable hd hw.rdonly hw.active hfailed (by decide : metaMeta ≠ []) (by decide) (by decide)
    (by decide)] at hplain
  obtain ⟨hfailed', hd', hknown', hcatalog', hhas⟩ : x'.failed = false ∧ x'.handle db.id = some ⟨n, metadata⟩ ∧
      (∀ h ∈ x'.known, x'.view.Has h.name) ∧ Catalog x'.view ∧
      ∀ name, x'.view.Has name ↔ name = metadata ∨ x.view.Has name := by
    split at hplain
    . cases hplain
      refine ⟨hfailed, hd, hknown, hcatalog, fun name => ⟨.inr, ?_⟩⟩
      rintro (rfl | hname)
      . exact hmetadata
      . exact hname
    . cases hplain
      exact ⟨hfailed, hd, fun h hh => (hknown h hh).store _ _ _, hcatalog.store_metaMeta,
        fun name => Lmdb.Data.has_put⟩
  obtain ⟨s₁, t₁, hs₁, hw₁, hcommit₁⟩ : ∃ s₁ t₁, _ = s₁ ∧ Writing tt i t₁ x' db s₁ ∧ t₁.commit = true :=
    ⟨_, _, rfl, hw.put _ hput, by simp [hcommit]⟩
  rw [hs₁] at hrun₁ hrun
  obtain ⟨t', y, h₁, hwrote⟩ := h.putRecord hrun₁
  cases h₁.tts.symm.trans hw₁.tt
  cases h₁.txns.symm.trans hw₁.env
  obtain ⟨s₂, hrun₂, h₂, hcursor₂⟩ : ∃ s₂, (Db.createCursor th (some tt)).run s₁ = .ok s₁.nextCursor s₂ ∧
      Working tt i t₁ x' d s₂ ∧ s₂.cursors s₁.nextCursor = some ⟨i, db.id⟩ :=
    ⟨_, hw₁.createCursor th hfailed' hd', h₁.congr rfl rfl rfl rfl, update_self _ _ _⟩
  rw [bind_of_ok hrun₂, bind_of_ok (cursorRange_of_active dbPrefix hcursor₂ h₂.txns h₂.active hd')] at hrun
  obtain ⟨_, s₃, hopen, hrest⟩ := bind_eq_ok.mp hrun
  have hread : Working tt i t₁ x' d { s₂ with log := s₂.log ++ [.access true] } := h₂.congr rfl rfl rfl rfl
  obtain ⟨x'', h₃, hview⟩ := Working.openRecords _ hcatalog'.flags hread hknown' hopen
  obtain ⟨_, s₄, hcursor, hreturn⟩ := bind_eq_ok.mp hrest
  have h₄ : Working tt i t₁ x'' d s₄ := by
    rw [Db.returnCursor, bind_of_ok (EStateM.run_get s₃)] at hcursor
    split at hcursor
    . cases hcursor
    . cases hcursor
      exact h₃.congr rfl rfl rfl rfl
  have hresting := h₄.commit hw₁.rd (fun hread => ?_) hreturn
  . rw [hresting.data, hview]
    exact ⟨hcatalog', hhas⟩
  . simp [hw₁.rd, hcommit₁] at hread

theorem Catalog.openEnv {limits : Lmdb.Limits} {th : Nat} {after : Bytes → Bytes} {data : Lmdb.Data} {s : Sys} (h : Catalog data)
    (hstep : (Sys.initWith limits data).step (.initMetadata th after) = some s)
    : Catalog s.env.data ∧ ∀ name, s.env.data.Has name ↔ name = metadata ∨ data.Has name := by
  obtain ⟨r, hexec⟩ := exec_of_step hstep
  obtain ⟨-, hrest⟩ := ready_bind_eq_ok.mp hexec
  obtain ⟨_, s', hrun, hpure⟩ := bind_eq_ok.mp hrest
  cases hpure
  have hbegin : (beginTxn th metadata false).run (.initWith limits data) = .ok (.dbDne, 0)
      (((Sys.initWith limits data).begun th).handOut th 0) := beginTxn_write rfl
  have ht : (((Sys.initWith limits data).begun th).handOut th 0).tts 0 = some ⟨some 0, false, true, false, false, none⟩ :=
    begun_tts (Sys.initWith limits data) th
  obtain ⟨i, t, x, h₁, -, -, -⟩ | ⟨hrd, -⟩ := Working.begin (.init limits data) (fun _ => rfl) hbegin
  swap
  . cases hrd
  cases h₁.tts.symm.trans ht
  obtain rfl : i = 0 := (Option.some.inj h₁.txn).symm
  obtain rfl : x = (Sys.initWith limits data).env.newTxn th false := (Option.some.inj h₁.txns).symm
  rw [initMetadata, bind_of_ok hbegin] at hrun
  dsimp only at hrun
  rw [show (TrashRc.dbDne == TrashRc.dbDne) = true from rfl, when_true, bind_of_ok (derefTt_of_some ht)] at hrun
  obtain ⟨res, s₂, hopen, hrun⟩ := bind_eq_ok.mp hrun
  cases res with
  | error rc => cases hrun
  | ok id => ?_
  obtain ⟨x₂, hfailed, hhandle, rfl, hx₂, hdbs₂⟩ : ∃ x₂, x₂.failed = false ∧ x₂.handle 0 = some ⟨0, metadata⟩ ∧
      id = 0 ∧ s₂.env.txns 0 = some x₂ ∧ s₂.dbs = [] := by
    have hknown₀ : ((Sys.initWith limits data).env.newTxn th false).known = [] := rfl
    obtain ⟨x₂, hdbi, hfailed, hhandle⟩ : ∃ x₂, ((Sys.initWith limits data).env.newTxn th false).dbiOpen metadata
        metadataFlags 0 = .ok (0, x₂) ∧ x₂.failed = false ∧ x₂.handle 0 = some ⟨0, metadata⟩ :=
      ⟨_, Lmdb.Txn.dbiOpen_create _ _ _ rfl rfl rfl (by decide) (by decide) (by simp [hknown₀]) (by decide) (by decide), rfl, rfl⟩
    obtain ⟨j, y, y', l, hj, hy, hdbi', rfl⟩ := mdbDbiOpen_cases hopen
    cases hj
    cases h₁.txns.symm.trans hy
    cases hdbi.symm.trans hdbi'
    exact ⟨_, hfailed, hhandle, rfl, rfl, rfl⟩
  obtain ⟨x', h₂, hknown, hview⟩ := h₁.mdbDbiOpen (fun _ h => absurd h List.not_mem_nil) hopen
  cases h₂.txns.symm.trans hx₂
  rw [if_pos (by decide)] at hview
  dsimp only at hrun
  have hadd : (internalAddDb metadata 0 metadataFlags).run s₂ = .ok 0 { s₂ with dbs := [⟨metadata, metadataFlags, 0, 0⟩] } := by
    simp [internalAddDb, hdbs₂]
  rw [bind_of_ok hadd, setTt, bind_of_ok (EStateM.run_modify _ _)] at hrun
  have hset := h₂.setTt (u := ⟨some 0, false, true, true, false, some 0⟩) rfl rfl rfl
  have h₃ : Working 0 0 ⟨some 0, false, true, true, false, some 0⟩ x₂ data {
      s₂ with
      dbs := [⟨metadata, metadataFlags, 0, 0⟩]
      tts := update s₂.tts 0 (some ⟨some 0, false, true, true, false, some 0⟩) } :=
    hset.congr rfl rfl rfl rfl
  have hw : Writing 0 0 ⟨some 0, false, true, true, false, some 0⟩ x₂ ⟨metadata, metadataFlags, 0, 0⟩ {
      s₂ with
      dbs := [⟨metadata, metadataFlags, 0, 0⟩]
      tts := update s₂.tts 0 (some ⟨some 0, false, true, true, false, some 0⟩) } :=
    ⟨h₃.tts, rfl, rfl, rfl, ⟨0, rfl, rfl⟩, h₃.txns, h₃.active, h₃.rdonly⟩
  obtain ⟨hcatalog, hhas⟩ := h₃.scan hw hfailed rfl hhandle hknown (hview ▸ h.create_metadata) hrun
  refine ⟨hcatalog, fun name => (hhas name).trans ?_⟩
  rw [hview, Write.apply]
  split
  . exact Iff.rfl
  . rw [Lmdb.Data.has_put, ← or_assoc, or_self]
    exact Iff.rfl

theorem draft_of_writing {s : Sys} {tt : Nat} (hs : s.Sound) (hwriting : s.writing tt = true)
    : ∃ t i x, s.tts tt = some t ∧ t.txn = some i ∧ s.env.txns i = some x ∧ s.store.draft = some x.view := by
  obtain ⟨t, ht, hany⟩ := (Option.any_eq_true _ _).mp hwriting
  obtain ⟨x, hx, hwrites⟩ := (Option.any_eq_true _ _).mp hany
  obtain ⟨i, hi, hx⟩ := Option.bind_eq_some_iff.mp hx
  refine ⟨t, i, x, ht, hi, hx, ?_⟩
  obtain ⟨hrd, hactive⟩ : x.rdonly = false ∧ x.state = .active := by simpa [Lmdb.Txn.writes] using hwrites
  rw [Sys.store, hs.env.writer i x hx hrd hactive, Option.bind_some, hx, Option.filter_some_pos hwrites]
  rfl

theorem all_of_step {p : Lmdb.Data → Prop} {s s' : Sys} {a : Action} (hs : Regular s) (hserving : Serving s)
    (hstep : s.step a = some s') (h : s.store.All p)
    (hdata : a.writes s = true → p s.env.data → p ((a.wrote s).foldl Write.apply s.env.data))
    (hdraft : ∀ tt ∈ a.uses s, ∀ t i x, s.tts tt = some t → t.txn = some i → s.env.txns i = some x →
      p x.view → p ((a.wrote s).foldl Write.apply x.view))
    : s'.store.All p := by
  have hrun := (store_of_step hs hserving hstep).2
  rw [Action.ops, Lts.run_append, Lts.run_append, Option.bind_assoc] at hrun
  obtain ⟨s₁, hbegin, hrest⟩ := Option.bind_eq_some_iff.mp hrun
  obtain ⟨s₂, hwrites, hcommit⟩ := Option.bind_eq_some_iff.mp hrest
  obtain ⟨h₁, hdraft₁⟩ : s₁.All p ∧ ((a.writes s || (a.uses s).any s.writing) = true →
      ∀ draft ∈ s₁.draft, p draft → p ((a.wrote s).foldl Write.apply draft)) := by
    cases hbegins : a.writes s with
    | true =>
      rw [hbegins, if_pos rfl, Lts.run_cons] at hbegin
      obtain ⟨s₁', hstep₁, hnil⟩ := Option.bind_eq_some_iff.mp hbegin
      cases hnil
      refine ⟨h.begin hstep₁, fun _ draft hdraft => ?_⟩
      rw [SingleWriter.step_begin hstep₁] at hdraft
      cases hdraft
      exact hdata hbegins
    | false =>
      rw [hbegins] at hbegin
      cases hbegin
      refine ⟨h, fun hany draft hmem => ?_⟩
      obtain ⟨tt, huses, hwriting⟩ := List.any_eq_true.mp hany
      obtain ⟨t, i, x, ht, hi, hx, hview⟩ := draft_of_writing hs.sound hwriting
      cases hview.symm.trans hmem
      exact hdraft tt huses t i x ht hi hx
  have h₂ : s₂.All p := by
    split at hwrites
    . next hany => exact h₁.writes hwrites (hdraft₁ hany)
    . cases hwrites
      exact h₁
  split at hcommit
  . obtain ⟨s₃, hstep₃, hnil⟩ := Option.bind_eq_some_iff.mp hcommit
    cases hnil
    exact h₂.commit hstep₃
  . cases hcommit
    exact h₂

section

variable {s s' : Sys} {th tt i : Nat} {t : TrashTxn} {x : Lmdb.Txn} {dbname dbname' : Bytes} {flags flags' : BitVec 32}
  {u : Unit}

theorem target_has {key val : Bytes} {answer : Lmdb.Answer} (hs : Regular s)
    (hrun : (trashPut tt key val flags answer).run s = .ok (some .success) s') (ht : s.tts tt = some t)
    (hi : t.txn = some i) (hx : s.env.txns i = some x)
    : x.view.Has (s.target tt) := by
  obtain ⟨hnone, -⟩ | ⟨t', d, db, j, y, rc, y', l, ht', -, hd, hdb, hj, hy, hput, hrc, -⟩ := trashPut_cases hrun
  . cases hnone
  cases hrc
  cases ht'.symm.trans ht
  cases hj.symm.trans hi
  cases hy.symm.trans hx
  obtain ⟨h, hh⟩ := put_handle hput
  have htarget : s.target tt = h.name := by simp [Sys.target, ht, hd, hdb, hi, hx, Lmdb.Txn.target, hh]
  rw [htarget]
  exact hs.backed.known i x hx h (List.mem_of_find?_eq_some hh)

theorem openDbi_creates {temp : Nat} {dbMeta : BitVec 32} {r : Bytes × BitVec 32}
    (hrun : (openDbi th tt temp dbname flags dbMeta).run s = .ok u s') (hstored : (s'.pc th).stored = some r)
    : flags &&& mdbCreate ≠ 0 := by
  obtain ⟨t, s₁, -, hrest⟩ := bind_eq_ok.mp hrun
  obtain ⟨res, s₂, hopen, hrest₁⟩ := bind_eq_ok.mp hrest
  cases res with
  | error rc => cases hrest₁
  | ok id =>
    intro hcreate
    dsimp only at hrest₁
    rw [if_neg (not_not.mpr hcreate)] at hrest₁
    cases hrest₁
    dsimp only at hstored
    rw [update_self] at hstored
    cases hstored

theorem Catalog.not_creates {data : Lmdb.Data} {key val : Bytes} {dbMeta : BitVec 32} (h : Catalog data)
    (hlookup : ((data.lookup metadata).getD []).lookup key = some val) (hread : readFlags val = some dbMeta)
    : dbMeta = 0 := by
  obtain ⟨_, _, heq, -⟩ := List.lookup_eq_some_iff.mp hlookup
  rcases h.records (key, val) (by simp [heq]) with heq | ⟨_, -, -, heq⟩
  . cases heq
    cases hread
  . cases heq
    rw [readFlags_flagsBytes] at hread
    exact (Option.some.inj hread).symm

theorem openDb_stored (hs : Regular s) (ht : s.tts tt = some t) (hi : t.txn = some i) (hx : s.env.txns i = some x)
    (hcatalog : Catalog x.view) (hrun : (openDb th tt dbname flags).run s = .ok u s')
    (hstored : (s'.pc th).stored = some (dbname', flags'))
    : dbname' = dbname ∧ flags' = flags &&& ~~~mdbCreate := by
  have hrefl : Reaches (fun _ _ => True) s s := Relation.ReflTransGen.refl
  obtain ⟨rc, s₁, hchange, hrest⟩ := bind_eq_ok.mp hrun
  obtain ⟨res, s₂, hget, hrest₁⟩ := bind_eq_ok.mp hrest
  have hs₁ : s₁.Sound := ((Reaches.changeTxnDb tt metadata).of_run hrefl hchange).sound hs.sound
  have hmetadata := changeTxnDb_metadata hs.head hchange
  obtain ⟨t', t₁, ht', ht₁, htxn, henv, -⟩ := changeTxnDb_txn hchange
  cases ht'.symm.trans ht
  have hs₂ : s₂.Sound := ((Reaches.trashGet tt dbname).of_run (.refl (r := Effect fun _ _ => True)) hget).sound hs₁
  obtain ⟨t₂, d, db, j, y, l, ht₂, hd, hdb, hj, hy, rfl, rfl⟩ := trashGet_cases hget
  cases ht₂.symm.trans ht₁
  cases hj.symm.trans (htxn.trans hi)
  cases (henv ▸ hy : s.env.txns i = some y).symm.trans hx
  split at hrest₁
  . next data hdata =>
    obtain ⟨h, hh, hlookup⟩ := Lmdb.Txn.get_ok hdata
    obtain ⟨t₃, d₃, db₃, ht₃, hd₃, hdb₃, hname⟩ := hmetadata
    cases ht₃.symm.trans ht₁
    cases hd₃.symm.trans hd
    cases hdb₃.symm.trans hdb
    rw [hs₁.handle_name hy (List.mem_of_getElem? hdb) hh, hname] at hlookup
    split at hrest₁
    . cases hrest₁
    . next dbMeta hread =>
      obtain rfl := hcatalog.not_creates hlookup hread
      exact absurd (by simp) (openDbi_creates hrest₁ hstored)
  . obtain ⟨t₃, s₃, hderef, hrest₂⟩ := bind_eq_ok.mp hrest₁
    obtain ⟨-, rfl⟩ := derefTt_eq_ok.mp hderef
    split at hrest₂
    . obtain ⟨_, s₄, -, hrest₃⟩ := bind_eq_ok.mp hrest₂
      obtain ⟨_, s₅, -, hset⟩ := bind_eq_ok.mp hrest₃
      cases hset
      dsimp only at hstored
      rw [update_self] at hstored
      cases hstored
    . obtain ⟨hname, hflags, -⟩ := openDbi_written hs₂ hmetadata hrest₂ hstored
      exact ⟨hname, hflags⟩
  . cases hrest₁

theorem openDbResume_stored (hs : Regular s) (hpc : s.pc th = .begin tt dbname flags)
    (hrun : (openDbResume th).run s = .ok u s') (hstored : (s'.pc th).stored = some (dbname', flags'))
    : dbname' = dbname ∧ flags' = flags &&& ~~~mdbCreate := by
  rw [openDbResume, bind_of_ok (EStateM.run_get s), hpc] at hrun
  obtain ⟨⟨rc, temp⟩, s₁, hbegin, hopen⟩ := bind_eq_ok.mp hrun
  obtain ⟨-, hmetadata, hs₁, -⟩ := beginTxn_metadata hs hbegin
  obtain ⟨hname, hflags, -⟩ := openDbi_written hs₁ hmetadata hopen hstored
  exact ⟨hname, hflags⟩

end

/--
The database can be created, and no other flag is asked for.
-/
def Creatable (name : Bytes) (flags : BitVec 32) : Prop := Storable name ∧ flags &&& ~~~mdbCreate = 0

instance (name : Bytes) (flags : BitVec 32) : Decidable (Creatable name flags) := inferInstanceAs (Decidable (_ ∧ _))

/--
The threads that wait for the other writers in `open_db` have waited before, or can create their database.
-/
def Waits (s s' : Sys) : Prop :=
  ∀ th tt name flags, s'.pc th = .begin tt name flags → s.pc th = .begin tt name flags ∨ Creatable name flags

namespace Waits

variable {th tt : Nat} {dbname : Bytes} {flags : BitVec 32} {s s' : Sys}

theorem of_pc (h : s'.pc = s.pc) : Waits s s' := fun _ _ _ _ hpc => .inl (h ▸ hpc)

instance : IsTrans Sys Waits := by
  constructor
  intro a b c h h' th tt name flags hpc
  rcases h' th tt name flags hpc with hpc | hcreatable
  . exact h th tt name flags hpc
  . exact .inr hcreatable

instance : AddFrame Waits where
  toTxnFrame := .of_le (R := Framed) fun _ _ h => of_pc h.pc
  add _ _ _ _ := of_pc rfl

instance : KeyFrame Waits where
  key _ _ := of_pc rfl

instance : CursorFrame Waits where
  cursors _ _ _ := of_pc rfl

theorem setPc {pc : Pc} (h : ∀ tt name flags, pc = .begin tt name flags → Creatable name flags)
    : Extends Waits (setPc th pc) := by
  intro s th' tt name flags hpc
  replace hpc : update s.pc th pc th' = .begin tt name flags := hpc
  rw [update_apply] at hpc
  split at hpc
  . exact .inr (h tt name flags hpc)
  . exact .inl hpc

theorem openDbi (temp : Nat) (flags dbMeta : BitVec 32) : Extends Waits (openDbi th tt temp dbname flags dbMeta) := by
  refine extends_bind (LmdbFrame.derefTt temp) fun t => ?_
  refine extends_bind (LmdbFrame.mdbDbiOpen _ _ _) fun res => ?_
  split
  . apply extends_throw
  . split
    . refine extends_bind (KeyFrame.putRecord temp _ _ _) fun rc => ?_
      refine extends_bind (extends_ensure _ _) fun _ => ?_
      apply setPc
      split <;> nofun
    . exact setPc nofun

theorem openDb (h : Creatable dbname flags) : Extends Waits (openDb th tt dbname flags) := by
  refine extends_bind (TxnFrame.changeTxnDb tt metadata) fun _ => ?_
  refine extends_bind (KeyFrame.trashGet tt dbname) fun res => ?_
  split
  . split
    . apply extends_throw
    . exact openDbi tt _ _
  . refine extends_bind (LmdbFrame.derefTt tt) fun t => ?_
    split
    . refine extends_bind (TxnFrame.setTt tt _) fun _ => ?_
      refine extends_bind (TxnFrame.returnTxn th tt) fun _ => ?_
      apply setPc
      rintro _ _ _ ⟨⟩
      exact h
    . exact openDbi tt _ _
  . apply extends_throw

theorem openDbResume : Extends Waits (openDbResume th) := by
  intro s
  rw [Db.openDbResume, bind_of_ok (EStateM.run_get s)]
  cases s.pc th with
  | idle => exact extends_throw _ s
  | begin tt dbname flags =>
    exact extends_bind (TxnFrame.beginTxn th metadata false) (fun r => openDbi _ _ _) s
  | commit tt temp dbname id dbMeta =>
    refine extends_bind (TxnFrame.returnTxn th temp) (fun _ => ?_) s
    apply setPc
    simp
  | renew tt dbname id dbMeta =>
    refine extends_bind (LmdbFrame.derefTt tt) (fun t => ?_) s
    refine extends_bind (LmdbFrame.mdbTxnRenew th t.txn) fun _ => ?_
    apply setPc
    simp
  | publish tt dbname id dbMeta =>
    refine extends_bind (AddFrame.internalAddDb _ _ _) (fun db => ?_) s
    refine extends_bind (LmdbFrame.derefTt tt) fun t => ?_
    refine extends_bind (TxnFrame.setTt tt _) fun _ => ?_
    apply setPc
    simp

end Waits

/--
A call that leaves the metadata alone, and creates a database only if its name can be read back. The other
steps of `open_db` are those of a call that was like that.
-/
def Tame (s : Sys) : Action → Prop
  | .openDb _ _ dbname flags => Creatable dbname flags
  | .trashPut _ tt _ _ _ _ => s.target tt ≠ metadata
  | _ => True

instance (s : Sys) : DecidablePred (Tame s)
  | .openDb _ _ dbname flags => inferInstanceAs (Decidable (Creatable dbname flags))
  | .trashPut _ tt _ _ _ _ => inferInstanceAs (Decidable (s.target tt ≠ metadata))
  | .initThreadLocalReaders _ | .initMetadata _ _ | .beginTxn _ _ _ | .internalBeginTxn _ _ | .changeTxnDb _ _ _ | .resume _
  | .createCursor _ _ | .returnCursor _ _ | .trashGet _ _ _ | .returnTxn _ _ => isTrue trivial

structure Cataloged (s : Sys) : Prop where
  regular : Regular s
  serving : Serving s
  store : s.store.All Catalog
  waiting : ∀ th tt name flags, s.pc th = .begin tt name flags → Creatable name flags

namespace Cataloged

variable {s s' : Sys} {a : Action}

theorem waits (h : Cataloged s) (htame : Tame s a) (hstep : s.step a = some s') : Waits s s' := by
  obtain ⟨r, hrun⟩ := exec_of_step hstep
  cases a with
  | initThreadLocalReaders th =>
    obtain ⟨-, hrest⟩ := ready_bind_eq_ok.mp hrun
    obtain ⟨_, s₂, hinit, -⟩ := bind_eq_ok.mp hrest
    exact absurd hinit (initThreadLocalReaders_stops (h.regular.pools th) h.regular.capacity)
  | initMetadata th after =>
    refine Extends.of_run (R := Waits) (extends_bind (LmdbFrame.ready th) fun _ => ?_) hrun
    exact extends_bind (AddFrame.initMetadata th after) fun _ => extends_pure _
  | openDb th tt dbname flags =>
    refine Extends.of_run (R := Waits) (extends_bind (LmdbFrame.holds th tt) fun _ => ?_) hrun
    exact extends_bind (Waits.openDb htame) fun _ => extends_pure _
  | resume th => exact (extends_bind Waits.openDbResume fun _ => extends_pure _).of_run hrun
  | _ => exact Extends.of_run (R := Waits) (CursorFrame.exec rfl) hrun

theorem created {name : Bytes} {flags : BitVec 32} {pc : Pc} (hcreatable : Creatable name flags)
    (hstored : ∀ name' flags', pc.stored = some (name', flags') → name' = name ∧ flags' = flags &&& ~~~mdbCreate)
    {data : Lmdb.Data} (h : Catalog data)
    : Catalog (pc.written.foldl Write.apply data) := by
  cases heq : pc.stored with
  | none =>
    rw [Pc.written, heq]
    exact h
  | some r =>
    obtain ⟨rfl, hflags⟩ := hstored r.1 r.2 heq
    rw [hcreatable.2] at hflags
    rw [Pc.written, heq]
    dsimp only
    rw [hflags]
    exact h.create_user hcreatable.1

theorem step (h : Cataloged s) (htame : Tame s a) (hstep : s.step a = some s') : Cataloged s' := by
  refine ⟨h.regular.step hstep, (store_of_step h.regular h.serving hstep).1, ?_, ?_⟩
  swap
  . intro th tt name flags hpc
    exact (h.waits htame hstep th tt name flags hpc).elim (h.waiting th tt name flags) id
  obtain ⟨r, hrun⟩ := exec_of_step hstep
  refine all_of_step h.regular h.serving hstep h.store ?_ ?_
  . intro hwrites hcatalog
    cases a with
    | resume th =>
      obtain ⟨_, s₁, hresume, hpure⟩ := bind_eq_ok.mp hrun
      cases hpure
      cases hpc : s.pc th with
      | begin tt dbname flags =>
        rw [Action.wrote, hpc, hstep]
        exact created (h.waiting th tt dbname flags hpc)
          (fun _ _ hstored => openDbResume_stored h.regular hpc hresume hstored) hcatalog
      | _ =>
        rw [Action.writes, hpc] at hwrites
        cases hwrites
    | initMetadata th after => exact hcatalog
    | beginTxn th dbname rd => exact hcatalog
    | internalBeginTxn th rd => exact hcatalog
    | _ => cases hwrites
  . intro tt huses t i x ht hi hx hcatalog
    cases a with
    | openDb th tt' dbname flags =>
      obtain rfl : tt = tt' := List.mem_singleton.mp huses
      obtain ⟨-, -, hrest⟩ := holds_bind_eq_ok.mp hrun
      obtain ⟨_, s₁, hopen, hpure⟩ := bind_eq_ok.mp hrest
      cases hpure
      rw [Action.wrote, hstep]
      exact created htame (fun _ _ hstored => openDb_stored h.regular ht hi hx hcatalog hopen hstored) hcatalog
    | resume th =>
      cases hpc : s.pc th with
      | begin tt' dbname flags =>
        rw [Action.uses, hpc] at huses
        cases huses
      | _ =>
        rw [Action.wrote, hpc]
        exact hcatalog
    | trashPut th tt' key val flags answer =>
      obtain rfl : tt = tt' := List.mem_singleton.mp huses
      rw [Action.wrote]
      split
      . next s₂ heq =>
        obtain ⟨-, -, hrest⟩ := holds_bind_eq_ok.mp heq
        obtain ⟨rc, s₁, hput, hpure⟩ := bind_eq_ok.mp hrest
        cases hpure
        exact hcatalog.put_user htame (target_has h.regular hput ht hi hx) key val answer
      . exact hcatalog
    | _ => exact hcatalog

theorem openEnv {limits : Lmdb.Limits} {th : Nat} {after : Bytes → Bytes} {data : Lmdb.Data} (h : Catalog data)
    (hstep : (Sys.initWith limits data).step (.initMetadata th after) = some s)
    : Cataloged s := by
  have hresting := resting_of_openEnv hstep
  refine ⟨.openEnv hstep, .inl hresting, ?_, ?_⟩
  . rw [hresting.store]
    exact ⟨(h.openEnv hstep).1, nofun⟩
  . intro th tt name flags hpc
    rw [(openEnv_of_step hstep).idle] at hpc
    cases hpc

end Cataloged

end Db
