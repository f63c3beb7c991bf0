import Mathlib.Data.List.Nodup
import TrashDb.Lib.Lts
import TrashDb.Db.Lemmas.Env
import TrashDb.Db.Lemmas.Frame
import TrashDb.Db.Lemmas.Writes

/-!
This module contains when the registry has one entry for a database. `open_db` looks into the metadata and
not into the registry, so it adds an entry whenever it is called; the entries have different names if it is
called for databases only that nobody has opened or is opening.

An entry has a pointer to its name. It is the one that `open_db` was called with, or it points into a page of LMDB
for the records that `init_metadata` has read. What it points to may be written between two calls here.
-/

namespace Db

open Prog Function

def Pc.dbname : Pc → Option Bytes
  | .idle => none
  | .begin _ dbname _ | .commit _ _ dbname _ _ | .renew _ dbname _ _ | .publish _ dbname _ _ => some dbname

def Sys.names (s : Sys) : List Bytes := s.dbs.map OpenDb.name

/--
A string that `db.c` has a pointer to: that of an entry, or the name that `open_db` was called with.
-/
inductive Str where
  | entry (d : Nat)
  | argument (th : Nat)

def Sys.str (s : Sys) : Str → Option Bytes
  | .entry d => s.names[d]?
  | .argument th => (s.pc th).dbname

def Pc.rename (dbname : Bytes) : Pc → Pc
  | .idle => .idle
  | .begin tt _ flags => .begin tt dbname flags
  | .commit tt temp _ id dbMeta => .commit tt temp dbname id dbMeta
  | .renew tt _ id dbMeta => .renew tt dbname id dbMeta
  | .publish tt _ id dbMeta => .publish tt dbname id dbMeta

def Sys.write (s : Sys) (name : Bytes) : Str → Sys
  | .entry d => { s with dbs := s.dbs.modify d fun db => { db with name := name } }
  | .argument th => { s with pc := update s.pc th ((s.pc th).rename name) }

inductive Event where
  | call (a : Action)
  -- the owner of the memory makes another string of it
  | write (str : Str) (name : Bytes)

def Sys.event (s : Sys) : Event → Option Sys
  | .call a => s.step a
  | .write str name => some (s.write name str)

theorem Sys.write_same {s : Sys} {str : Str} {name : Bytes} (h : ∀ old ∈ s.str str, old = name)
    : s.write name str = s := by
  cases str with
  | entry d =>
    have hsame : (s.dbs.modify d fun db => { db with name := name }) = s.dbs := by
      apply List.ext_getElem?
      intro i
      rw [List.getElem?_modify]
      cases hdb : s.dbs[i]? with
      | none => rfl
      | some db =>
        split
        . next heq =>
          subst heq
          have hname : db.name = name := h _ (by simp [Sys.str, Sys.names, hdb])
          rw [← hname]
          rfl
        . rfl
    rw [Sys.write, hsame]
  | argument th =>
    have hsame : (s.pc th).rename name = s.pc th := by
      cases hpc : s.pc th with
      | idle => rfl
      | _ =>
        have hname := h _ (by rw [Sys.str, hpc]; rfl)
        rw [← hname]
        rfl
    rw [Sys.write, hsame, update_eq_self]

/--
The registry is as before, the thread may have gone on in `open_db` for that database.
-/
structure Opens (th : Nat) (dbname : Bytes) (s s' : Sys) : Prop where
  names : s'.names = s.names
  other : ∀ th', th' ≠ th → s'.pc th' = s.pc th'
  self : s'.pc th = s.pc th ∨ (s'.pc th).dbname = some dbname

namespace Opens

variable {th tt : Nat} {dbname : Bytes}

instance : IsTrans Sys (Opens th dbname) := by
  constructor
  intro a b c h h'
  refine ⟨h'.names.trans h.names, fun th' hne => (h'.other th' hne).trans (h.other th' hne), ?_⟩
  rcases h'.self with heq | hname
  . rw [heq]
    exact h.self
  . exact .inr hname

theorem of_framed {s s' : Sys} (h : Framed s s') : Opens th dbname s s' :=
  ⟨h.names, fun th' _ => by rw [h.pc], .inl (by rw [h.pc])⟩

instance : TxnFrame (Opens th dbname) := .of_le fun _ _ => of_framed

instance : KeyFrame (Opens th dbname) where
  key s c := of_framed (KeyFrame.key s c)

theorem setPc {pc : Pc} (h : pc.dbname = some dbname) : Extends (Opens th dbname) (setPc th pc) := by
  intro s
  refine ⟨rfl, fun th' hne => update_of_ne hne _ _, .inr ?_⟩
  change (update s.pc th pc th).dbname = some dbname
  rw [update_self, h]

theorem openDbi (temp : Nat) (flags dbMeta : BitVec 32)
    : Extends (Opens th dbname) (openDbi th tt temp dbname flags dbMeta) := by
  refine extends_bind (LmdbFrame.derefTt temp) fun t => ?_
  refine extends_bind (LmdbFrame.mdbDbiOpen _ _ _) fun res => ?_
  split
  . apply extends_throw
  . split
    . refine extends_bind (KeyFrame.putRecord temp _ _ _) fun rc => ?_
      refine extends_bind (extends_ensure _ _) fun _ => ?_
      apply setPc
      split <;> rfl
    . exact setPc rfl

theorem openDb (flags : BitVec 32) : Extends (Opens th dbname) (openDb th tt dbname flags) := by
  refine extends_bind (TxnFrame.changeTxnDb tt metadata) fun _ => ?_
  refine extends_bind (KeyFrame.trashGet tt dbname) fun res => ?_
  split
  . split
    . apply extends_throw
    . exact openDbi tt _ _
  . refine extends_bind (LmdbFrame.derefTt tt) fun t => ?_
    split
    . refine extends_bind (TxnFrame.setTt tt _) fun _ => ?_
      refine extends_bind (TxnFrame.returnTxn th tt) fun _ => ?_
      exact setPc rfl
    . exact openDbi tt _ _
  . apply extends_throw

theorem of_openDbResume {s s' : Sys} {u : Unit} (hrun : (openDbResume th).run s = .ok u s')
    : ∃ dbname, (s.pc th).dbname = some dbname ∧ (Opens th dbname s s' ∨
        ∃ tts db, db.name = dbname ∧
          s' = { s with dbs := s.dbs ++ [db], tts := tts, pc := update s.pc th .idle }) := by
  rw [Db.openDbResume, bind_of_ok (EStateM.run_get s)] at hrun
  cases hpc : s.pc th with
  | idle =>
    rw [hpc] at hrun
    cases hrun
  | begin tt dbname flags =>
    rw [hpc] at hrun
    refine ⟨dbname, rfl, .inl (Extends.of_run (R := Opens th dbname) ?_ hrun)⟩
    refine extends_bind (TxnFrame.beginTxn th metadata false) fun r => ?_
    exact openDbi _ _ _
  | commit tt temp dbname id dbMeta =>
    rw [hpc] at hrun
    refine ⟨dbname, rfl, .inl (Extends.of_run (R := Opens th dbname) ?_ hrun)⟩
    exact extends_bind (TxnFrame.returnTxn th temp) fun _ => setPc rfl
  | renew tt dbname id dbMeta =>
    rw [hpc] at hrun
    refine ⟨dbname, rfl, .inl (Extends.of_run (R := Opens th dbname) ?_ hrun)⟩
    refine extends_bind (LmdbFrame.derefTt tt) fun t => ?_
    refine extends_bind (LmdbFrame.mdbTxnRenew th t.txn) fun _ => ?_
    exact setPc rfl
  | publish tt dbname id dbMeta =>
    rw [hpc] at hrun
    obtain ⟨db, s₁, hadd, hrest⟩ := bind_eq_ok.mp hrun
    cases hadd
    obtain ⟨t, s₂, hderef, hrest⟩ := bind_eq_ok.mp hrest
    obtain ⟨ht, rfl⟩ := derefTt_eq_ok.mp hderef
    cases hrest
    exact ⟨dbname, rfl, .inr ⟨_, ⟨dbname, dbMeta, id, 0⟩, rfl, rfl⟩⟩

end Opens

/--
The names in the registry are different from each other and from those that a thread is opening, and no two
threads are opening the same database.
-/
structure Single (s : Sys) : Prop where
  nodup : s.names.Nodup
  opening : ∀ th dbname, (s.pc th).dbname = some dbname → dbname ∉ s.names
  alone : ∀ th th' dbname, (s.pc th).dbname = some dbname → (s.pc th').dbname = some dbname → th = th'
  mem : metadata ∈ s.names

/--
`open_db` is called for a database that is not in the registry and that no thread is opening, and no name is changed.
-/
def Fresh (s : Sys) : Event → Prop
  | .call (.openDb _ _ dbname _) => dbname ∉ s.names ∧ ∀ th, (s.pc th).dbname ≠ some dbname
  | .call _ => True
  | .write str name => ∀ old ∈ s.str str, old = name

namespace Single

variable {s s' : Sys} {th : Nat} {dbname : Bytes}

theorem framed (h : Single s) (hs : Framed s s') : Single s' := by
  have hnames : s'.names = s.names := hs.names
  constructor
  . rw [hnames]
    exact h.nodup
  . rw [hs.pc, hnames]
    exact h.opening
  . rw [hs.pc]
    exact h.alone
  . rw [hnames]
    exact h.mem

theorem opens (h : Single s) (hs : Opens th dbname s s') (hnew : dbname ∉ s.names)
    (hother : ∀ th', th' ≠ th → (s.pc th').dbname ≠ some dbname)
    : Single s' := by
  have hpc : ∀ th' n, (s'.pc th').dbname = some n → (s.pc th').dbname = some n ∨ (th' = th ∧ n = dbname) := by
    intro th' n hn
    by_cases heq : th' = th
    . rw [heq] at hn ⊢
      rcases hs.self with hsame | hname
      . rw [hsame] at hn
        exact .inl hn
      . rw [hname] at hn
        exact .inr ⟨rfl, (Option.some.inj hn).symm⟩
    . rw [hs.other th' heq] at hn
      exact .inl hn
  constructor
  . rw [hs.names]
    exact h.nodup
  . intro th' n hn
    rw [hs.names]
    rcases hpc th' n hn with hold | ⟨-, rfl⟩
    . exact h.opening th' n hold
    . exact hnew
  . intro th₁ th₂ n h₁ h₂
    rcases hpc th₁ n h₁ with hold₁ | ⟨rfl, rfl⟩
    . rcases hpc th₂ n h₂ with hold₂ | ⟨rfl, rfl⟩
      . exact h.alone th₁ th₂ n hold₁ hold₂
      . by_contra hne
        exact hother th₁ hne hold₁
    . rcases hpc th₂ n h₂ with hold₂ | ⟨rfl, -⟩
      . by_contra hne
        exact hother th₂ (Ne.symm hne) hold₂
      . rfl
  . rw [hs.names]
    exact h.mem

theorem publish {tts : Nat → Option TrashTxn} (db : OpenDb) (h : Single s)
    (hpc : (s.pc th).dbname = some db.name)
    : Single { s with dbs := s.dbs ++ [db], tts := tts, pc := update s.pc th .idle } := by
  have hnames : Sys.names { s with dbs := s.dbs ++ [db], tts := tts, pc := update s.pc th .idle } =
      s.names ++ [db.name] := by simp [Sys.names]
  have hold : ∀ th' n, (update s.pc th .idle th').dbname = some n → th' ≠ th ∧ (s.pc th').dbname = some n := by
    intro th' n hn
    rw [update_apply] at hn
    split at hn
    . cases hn
    . next hne => exact ⟨hne, hn⟩
  constructor
  . rw [hnames]
    exact List.nodup_append_comm.mp (List.nodup_cons.mpr ⟨h.opening th db.name hpc, h.nodup⟩)
  . intro th' n hn
    obtain ⟨hne, hn'⟩ := hold th' n hn
    rw [hnames, List.mem_append, List.mem_singleton, not_or]
    refine ⟨h.opening th' n hn', ?_⟩
    rintro rfl
    exact hne (h.alone th' th _ hn' hpc)
  . intro th₁ th₂ n h₁ h₂
    exact h.alone th₁ th₂ n (hold th₁ n h₁).2 (hold th₂ n h₂).2
  . rw [hnames]
    exact List.mem_append_left _ h.mem

theorem openDbResume {u : Unit} (h : Single s) (hrun : (openDbResume th).run s = .ok u s')
    : Single s' ∧ s.names <+: s'.names := by
  obtain ⟨dbname, hname, hs | ⟨tts, db, rfl, rfl⟩⟩ := Opens.of_openDbResume hrun
  . refine ⟨h.opens hs (h.opening th dbname hname) ?_, hs.names ▸ List.prefix_refl _⟩
    intro th' hne hname'
    exact hne (h.alone th' th dbname hname' hname)
  . refine ⟨h.publish db hname, ?_⟩
    simp [Sys.names]

theorem initMetadata {after : Bytes → Bytes} {u : Unit} (h : Single s)
    (hrun : (initMetadata th after).run s = .ok u s')
    : Single s' ∧ s.names <+: s'.names := by
  obtain ⟨⟨rc, tt⟩, s₁, hbegin, hrest⟩ := bind_eq_ok.mp hrun
  have hs₁ := (TxnFrame.beginTxn (R := Framed) th metadata false).of_run hbegin
  have hnames : s₁.names = s.names := hs₁.names
  have hrc : rc = .success := by
    obtain ⟨tt', s₂, hinternal, hrest'⟩ := bind_eq_ok.mp hbegin
    rw [bind_of_ok (EStateM.run_modify _ _)] at hrest'
    obtain ⟨rc', s₃, hchange, hpure⟩ := bind_eq_ok.mp hrest'
    cases hpure
    have hs₂ := h.framed ((TxnFrame.internalBeginTxn (R := Framed) th false).of_run hinternal)
    obtain ⟨t, -, ⟨hrc, -⟩ | ⟨-, -, hnone⟩ | ⟨_, _, hrc, -⟩⟩ := changeTxnDb_cases hchange
    . exact hrc
    . obtain ⟨db, hdb, hname⟩ := List.mem_map.mp hs₂.mem
      exact absurd hname (hnone db hdb)
    . exact hrc
  rw [hrc] at hrest
  cases hrest
  exact ⟨h.framed hs₁, hnames ▸ List.prefix_refl _⟩

theorem step {a : Action} (h : Single s) (hfresh : Fresh s (.call a)) (hstep : s.step a = some s')
    : Single s' ∧ s.names <+: s'.names := by
  obtain ⟨r, hrun⟩ := exec_of_step hstep
  cases a with
  | openDb th tt dbname flags =>
    obtain ⟨-, -, hrest⟩ := holds_bind_eq_ok.mp hrun
    obtain ⟨_, s₂, hopen, hpure⟩ := bind_eq_ok.mp hrest
    cases hpure
    have hs := (Opens.openDb flags).of_run hopen
    exact ⟨h.opens hs hfresh.1 fun th' _ => hfresh.2 th', hs.names ▸ List.prefix_refl _⟩
  | resume th =>
    obtain ⟨_, s₁, hresume, hpure⟩ := bind_eq_ok.mp hrun
    cases hpure
    exact h.openDbResume hresume
  | initMetadata th after =>
    obtain ⟨-, hrest⟩ := ready_bind_eq_ok.mp hrun
    obtain ⟨_, s₂, hinit, hpure⟩ := bind_eq_ok.mp hrest
    cases hpure
    exact h.initMetadata hinit
  | initThreadLocalReaders th =>
    obtain ⟨-, hrest⟩ := ready_bind_eq_ok.mp hrun
    obtain ⟨_, s₂, hinit, hpure⟩ := bind_eq_ok.mp hrest
    cases hpure
    rcases Framed.of_initThreadLocalReaders hinit with hs | ⟨-, s₂, rdrs, hs, rfl⟩
    . have hnames : s'.names = s.names := hs.names
      exact ⟨h.framed hs, hnames ▸ List.prefix_refl _⟩
    . have hnames : s₂.names = s.names := hs.names
      have hs₂ := h.framed hs
      exact ⟨⟨hs₂.nodup, hs₂.opening, hs₂.alone, hs₂.mem⟩, hnames ▸ List.prefix_refl _⟩
  | _ =>
    have hs := (CursorFrame.exec (R := Framed) rfl).of_run hrun
    have hnames : s'.names = s.names := hs.names
    exact ⟨h.framed hs, hnames ▸ List.prefix_refl _⟩

theorem of_run {es : List Event} (h : Single s) (hfresh : Lts.Along Sys.event Fresh s es)
    (hrun : Lts.run Sys.event s es = some s')
    : Single s' ∧ s.names <+: s'.names := by
  refine Lts.invariant_along (I := fun s' => Single s' ∧ s.names <+: s'.names) ?_ ⟨h, List.prefix_refl _⟩ hfresh hrun
  intro s₁ e s₂ ⟨hs₁, hnames⟩ he hstep
  cases e with
  | call a =>
    obtain ⟨hs₂, hnames'⟩ := hs₁.step he hstep
    exact ⟨hs₂, hnames.trans hnames'⟩
  | write str name =>
    rw [Sys.event, Sys.write_same he] at hstep
    cases hstep
    exact ⟨hs₁, hnames⟩

end Single

/--
What `init_metadata` takes for a record of a database, and the name it reads there.
-/
def isRecord (after : Bytes → Bytes) (r : Bytes × Bytes) : Bool :=
  (r.1 ++ r.2 ++ after r.1).take dbPrefix.length == dbPrefix

def recordName (after : Bytes → Bytes) (r : Bytes × Bytes) : Bytes :=
  cString ((r.1 ++ r.2 ++ after r.1).drop dbPrefix.length)

/--
The names that `init_metadata` reads from the metadata database.
-/
def recordNames (after : Bytes → Bytes) (contents : Lmdb.Contents) : List Bytes :=
  ((contents.dropWhile fun r => r.1 < dbPrefix).takeWhile (isRecord after)).map (recordName after)

theorem openRecords_names {tt : Nat} {after : Bytes → Bytes} (records : Lmdb.Contents)
    : ∀ {dbMeta s u s'}, (openRecords tt after dbMeta records).run s = .ok u s' →
        s'.names = s.names ++ (records.takeWhile (isRecord after)).map (recordName after) ∧ s'.pc = s.pc := by
  induction records with
  | nil =>
    intro dbMeta s u s' hrun
    cases hrun
    simp
  | cons r records ih =>
    obtain ⟨key, val⟩ := r
    intro dbMeta s u s' hrun
    unfold openRecords at hrun
    split at hrun
    . next hprefix =>
      have hrecord : isRecord after (key, val) = true := by simpa [isRecord] using hprefix
      split at hrun
      . cases hrun
      . next dbname flags hread =>
        have hname : dbname = recordName after (key, val) := by
          obtain ⟨_, -, heq⟩ := Option.map_eq_some_iff.mp hread
          cases heq
          rfl
        obtain ⟨t, s₁, hderef, hrest⟩ := bind_eq_ok.mp hrun
        obtain ⟨-, rfl⟩ := derefTt_eq_ok.mp hderef
        obtain ⟨res, s₂, hopen, hadds⟩ := bind_eq_ok.mp hrest
        have hs₂ := (LmdbFrame.mdbDbiOpen (R := Framed) _ _ _).of_run hopen
        split at hadds
        . cases hadds
        . obtain ⟨d, s₃, hadd, hrecords⟩ := bind_eq_ok.mp hadds
          cases hadd
          obtain ⟨hnames, hpc⟩ := ih hrecords
          refine ⟨?_, hpc.trans hs₂.pc⟩
          rw [hnames, List.takeWhile_cons, hrecord]
          have hs₁ : s₂.names = s₁.names := hs₂.names
          simp only [Sys.names] at hs₁ ⊢
          simp [hs₁, hname]
    . next hprefix =>
      have hrecord : isRecord after (key, val) = false := by simpa [isRecord] using hprefix
      cases hrun
      simp [hrecord]

/--
The write transaction `tt` and the cursor `c` of `init_metadata` are in use. The transaction sees the databases of
`data`, and there is room for `n` more handles.
-/
structure Surveys (tt i c : Nat) (data : Lmdb.Data) (n : Nat) (s : Sys) : Prop where
  writing : ∃ t x db, Writing tt i t x db s ∧ x.failed = false ∧
    (∀ name, (data.lookup name).isSome = true → (x.view.lookup name).isSome = true) ∧
    s.env.limits.Suffice (x.known.length + n)
  cursor : (s.cursors c).isSome = true

theorem Writing.scan {α : Type} {s : Sys} {tt i n : Nat} {t : TrashTxn} {x : Lmdb.Txn} {db : OpenDb} {d : Lmdb.Dbi}
    {f : Nat → Lmdb.Contents → M α} (th : Nat) (h : Writing tt i t x db s) (hfailed : x.failed = false)
    (hd : x.handle db.id = some d) (hroom : s.env.limits.Suffice (x.known.length + n))
    : ∃ s' contents, s'.names = s.names ∧ s'.pc = s.pc ∧ Surveys tt i s.nextCursor x.view n s' ∧
        (contents = (x.view.lookup d.name).getD [] ∨
          contents = Assoc.put metaMeta [] ((x.view.lookup d.name).getD [])) ∧
        (do
          let rc ← Db.putRecord tt metaMeta [] mdbNoOverwrite
          ensure (rc == some Lmdb.Rc.success || rc == some Lmdb.Rc.keyExist) (.assertFailed .put)
          let curr ← Db.createCursor th (some tt)
          let records ← cursorRange curr dbPrefix
          f curr records).run s =
          (f s.nextCursor (contents.dropWhile fun r => r.1 < dbPrefix)).run s' := by
  have hval : ([] : Bytes).length < 4294967296 := by decide
  have hflags : mdbNoOverwrite &&& ~~~putFlags = 0 := by decide
  have hput := Lmdb.Txn.put_of_usable hd h.rdonly h.active hfailed (by decide : metaMeta ≠ []) (by decide) hval hflags
  obtain ⟨rc, x', hput', hrc, hfailed', hd', hknown, hsees, hcontents⟩ : ∃ rc x',
      x.put db.id metaMeta [] mdbNoOverwrite .plain = (rc, x') ∧ (rc = .success ∨ rc = .keyExist) ∧
      x'.failed = false ∧ x'.handle db.id = some d ∧ x'.known = x.known ∧
      (∀ name, (x.view.lookup name).isSome = true → (x'.view.lookup name).isSome = true) ∧
      ((x'.view.lookup d.name).getD [] = (x.view.lookup d.name).getD [] ∨
        (x'.view.lookup d.name).getD [] = Assoc.put metaMeta [] ((x.view.lookup d.name).getD [])) := by
    rw [hput]
    split
    . exact ⟨_, _, rfl, .inr rfl, hfailed, hd, rfl, fun _ h => h, .inl rfl⟩
    . refine ⟨_, _, rfl, .inl rfl, hfailed, hd, rfl, fun _ => Assoc.isSome_lookup_put, .inr ?_⟩
      dsimp only [Lmdb.Data.store]
      rw [Assoc.lookup_put_self, Option.getD_some]
  have hrun := h.putRecord hroom hput'
  have hw := h.put (s.log ++ [.access true, .put metaMeta []]) hput'
  have hensure : (some rc == some Lmdb.Rc.success || some rc == some Lmdb.Rc.keyExist) = true := by
    rcases hrc with rfl | rfl <;> rfl
  rw [bind_of_ok hrun, hensure, bind_of_ok (run_ensure_true _), bind_of_ok (hw.createCursor th hfailed' hd')]
  refine ⟨_, _, ?_, ?_, ?_, hcontents, bind_of_ok (cursorRange_of_active dbPrefix ?_ hw.env hw.active hd')⟩
  . rfl
  . rfl
  . have hcursor : (update s.cursors s.nextCursor (some ⟨i, db.id⟩) s.nextCursor).isSome = true := by
      rw [update_self]
      rfl
    exact ⟨⟨_, x', db, hw.transfer rfl (List.prefix_refl _) hw.env rfl rfl, hfailed', hsees, hknown ▸ hroom⟩, hcursor⟩
  . exact update_self _ _ _

theorem mdbDbiOpen_metadata {limits : Lmdb.Limits} {n : Nat} (th : Nat) (data : Lmdb.Data)
    (hroom : limits.Suffice (n + 1))
    : ∃ s x, (mdbDbiOpen (some 0) metadata metadataFlags).run (((Sys.initWith limits data).begun th).handOut th 0) =
          .ok (.ok 0) s ∧
        s.env.limits = limits ∧ x.known = [⟨0, metadata⟩] ∧
        s.env.txns 0 = some x ∧ x.state = .active ∧ x.failed = false ∧ x.rdonly = false ∧
        x.handle 0 = some ⟨0, metadata⟩ ∧
        (x.view.lookup metadata).getD [] = (data.lookup metadata).getD [] ∧
        (∀ name, (data.lookup name).isSome = true → (x.view.lookup name).isSome = true) ∧
        s.dbs = [] ∧ (∀ th', s.pc th' = .idle) ∧ s.nextCursor = 0 := by
  have hopen := Lmdb.Txn.dbiOpen_create (x := (Sys.initWith limits data).env.newTxn th false) metadata metadataFlags 0
    rfl rfl rfl (by decide) (by decide) nofun (by decide) (by decide)
  refine ⟨_, _, mdbDbiOpen_of_active rfl rfl hopen (Lmdb.Env.refusal_eq_none hroom (Nat.succ_pos n)), rfl, rfl, rfl,
    rfl, rfl, rfl, rfl, ?_, ?_, rfl, fun _ => rfl, rfl⟩
  . change ((if (data.lookup metadata).isSome then data else Assoc.put metadata [] data).lookup metadata).getD [] =
      (data.lookup metadata).getD []
    split
    . rfl
    . next hnone =>
      rw [Assoc.lookup_put_self, Option.not_isSome_iff_eq_none.mp hnone]
      rfl
  . intro name hname
    change ((if (data.lookup metadata).isSome then data else Assoc.put metadata [] data).lookup name).isSome = true
    split
    . exact hname
    . exact Assoc.isSome_lookup_put hname

theorem initMetadata_init {limits : Lmdb.Limits} {n : Nat} (th : Nat) (after : Bytes → Bytes) (data : Lmdb.Data)
    (hroom : limits.Suffice (n + 1))
    : ∃ s contents, s.names = [metadata] ∧ (∀ th', s.pc th' = .idle) ∧ Surveys 0 0 0 data n s ∧
        (contents = (data.lookup metadata).getD [] ∨
          contents = Assoc.put metaMeta [] ((data.lookup metadata).getD [])) ∧
        (initMetadata th after).run (.initWith limits data) =
          (do
            openRecords 0 after metadataFlags (contents.dropWhile fun r => r.1 < dbPrefix)
            returnCursor 0
            returnTxn th 0 : M Unit).run s := by
  have hbegin : (beginTxn th metadata false).run (.initWith limits data) = .ok (.dbDne, 0)
      (((Sys.initWith limits data).begun th).handOut th 0) := beginTxn_write rfl
  have ht : (((Sys.initWith limits data).begun th).handOut th 0).tts 0 = some ⟨some 0, false, true, false, false, none⟩ :=
    begun_tts (Sys.initWith limits data) th
  obtain ⟨s, x, hdbi, hlimits, hknown, hx, hactive, hfailed, hrdonly, hhandle, hview, hsees, hdbs, hpc, hcursor⟩ :=
    mdbDbiOpen_metadata th data hroom
  have hadd : (internalAddDb metadata 0 metadataFlags).run s =
      .ok 0 { s with dbs := [⟨metadata, metadataFlags, 0, 0⟩] } := by
    simp [internalAddDb, hdbs]
  rw [initMetadata, bind_of_ok hbegin]
  dsimp only
  rw [show (TrashRc.dbDne == TrashRc.dbDne) = true from rfl, when_true, bind_of_ok (derefTt_of_some ht),
    bind_of_ok hdbi]
  dsimp only
  rw [bind_of_ok hadd, setTt, bind_of_ok (EStateM.run_modify _ _)]
  have hwriting : Writing 0 0 ⟨some 0, false, true, true, false, some 0⟩ x ⟨metadata, metadataFlags, 0, 0⟩ {
      s with
      dbs := [⟨metadata, metadataFlags, 0, 0⟩]
      tts := update s.tts 0 (some ⟨some 0, false, true, true, false, some 0⟩) } :=
    ⟨rfl, rfl, rfl, rfl, ⟨0, rfl, rfl⟩, hx, hactive, hrdonly⟩
  obtain ⟨s', contents, hnames, hpc', hsurveys, hcontents, hrun⟩ := hwriting.scan th
    (f := fun curr records => do
      openRecords 0 after metadataFlags records
      returnCursor curr
      returnTxn th 0) hfailed hhandle (by
        rw [hknown, List.length_singleton, Nat.add_comm]
        exact hlimits ▸ hroom)
  rw [hview] at hcontents
  refine ⟨s', contents, hnames, ?_, ?_, hcontents, hrun.trans ?_⟩
  . rw [hpc']
    exact hpc
  . rw [hcursor] at hsurveys
    obtain ⟨⟨t', x', db, hw, hfailed', hsees', hroom'⟩, hcur⟩ := hsurveys
    exact ⟨⟨t', x', db, hw, hfailed', fun name hname => hsees' name (hsees name hname), hroom'⟩, hcur⟩
  . dsimp only
    rw [hcursor]

/--
The registry after `open_env`. What the loop has read is a part of what the file contains.
-/
theorem names_of_init {data : Lmdb.Data} {th : Nat} {after : Bytes → Bytes} {s : Sys}
    (hinit : (Sys.init data).step (.initMetadata th after) = some s)
    : (∀ th', s.pc th' = .idle) ∧
        ∃ names, names <+: recordNames after ((data.lookup metadata).getD []) ∧ s.names = metadata :: names := by
  obtain ⟨r, hrun⟩ := exec_of_step hinit
  obtain ⟨-, hrest⟩ := ready_bind_eq_ok.mp hrun
  obtain ⟨_, s', hmeta, hpure⟩ := bind_eq_ok.mp hrest
  cases hpure
  obtain ⟨s₁, contents, hnames₁, hidle₁, -, hcontents, hscan⟩ := initMetadata_init th after data (Lmdb.Limits.unlimited_suffice 1)
  rw [hscan] at hmeta
  obtain ⟨_, s₂, hrecords, htail⟩ := bind_eq_ok.mp hmeta
  obtain ⟨_, s₃, hcursor, hreturn⟩ := bind_eq_ok.mp htail
  obtain ⟨hnames₂, hpc₂⟩ := openRecords_names _ hrecords
  have hs₃ := (CursorFrame.returnCursor (R := Framed) 0).of_run hcursor
  have hs := (TxnFrame.returnTxn (R := Framed) th 0).of_run hreturn
  have hread : (contents.dropWhile fun r => r.1 < dbPrefix).takeWhile (isRecord after) <+:
      (((data.lookup metadata).getD []).dropWhile fun r => r.1 < dbPrefix).takeWhile (isRecord after) := by
    rcases hcontents with rfl | rfl
    . exact List.prefix_refl _
    . refine Assoc.takeWhile_dropWhile_put_prefix ?_ ?_ _ _
      . exact fun _ => (by decide : decide (metaMeta < dbPrefix) = false)
      . exact fun _ => rfl
  refine ⟨?_, _, hread.map (recordName after), ?_⟩
  . rw [hs.pc, hs₃.pc, hpc₂]
    exact hidle₁
  . calc s.names = s₃.names := hs.names
      _ = s₂.names := hs₃.names
      _ = _ := by rw [hnames₂, hnames₁]; rfl

theorem Single.of_init {data : Lmdb.Data} {th : Nat} {after : Bytes → Bytes} {s : Sys}
    (hnames : (metadata :: recordNames after ((data.lookup metadata).getD [])).Nodup)
    (hinit : (Sys.init data).step (.initMetadata th after) = some s)
    : Single s := by
  obtain ⟨hpc, names, hread, hall⟩ := names_of_init hinit
  constructor
  . rw [hall]
    exact hnames.sublist (hread.sublist.cons_cons _)
  . intro th' n hn
    rw [hpc] at hn
    cases hn
  . intro th₁ th₂ n hn
    rw [hpc] at hn
    cases hn
  . rw [hall]
    exact List.mem_cons_self

/--
The name of a call that looks it up with success, and the entry that it sets its transaction to.
-/
def Sys.found (s : Sys) (a : Action) : Option (Bytes × Nat) :=
  match a, (exec a).run s with
  | .beginTxn _ dbname _, .ok (.txn .success tt) s' | .changeTxnDb _ tt dbname, .ok (.rc .success) s' =>
    ((s'.tts tt).bind TrashTxn.db).map fun d => (dbname, d)
  | _, _ => none

theorem changeTxnDb_finds {s s' : Sys} {tt d : Nat} {dbname : Bytes}
    (hrun : (changeTxnDb tt dbname).run s = .ok .success s') (hd : (s'.tts tt).bind TrashTxn.db = some d)
    : s.names[d]? = some dbname := by
  obtain ⟨t, ht, ⟨-, rfl, hmatch⟩ | ⟨hrc, -⟩ | ⟨d', db, -, hdb, hname, rfl⟩⟩ := changeTxnDb_cases hrun
  . rw [ht, Option.bind_some] at hd
    rw [hd, Option.bind_some] at hmatch
    cases hdb : s'.dbs[d]? with
    | none =>
      rw [hdb] at hmatch
      cases hmatch
    | some db =>
      rw [hdb] at hmatch
      rw [Sys.names, List.getElem?_map, hdb, Option.map_some, beq_iff_eq.mp hmatch]
  . cases hrc
  . dsimp only at hd
    rw [update_self, Option.bind_some] at hd
    cases hd
    rw [Sys.names, List.getElem?_map, hdb, Option.map_some, hname]

theorem names_of_found {s : Sys} {a : Action} {dbname : Bytes} {d : Nat} (h : s.found a = some (dbname, d))
    : s.names[d]? = some dbname := by
  unfold Sys.found at h
  split at h
  . next th dbname' rd tt s' hrun =>
    obtain ⟨d', hd, heq⟩ := Option.map_eq_some_iff.mp h
    cases heq
    obtain ⟨-, hrest⟩ := ready_bind_eq_ok.mp hrun
    obtain ⟨⟨rc, tt'⟩, s₁, hbegin, hpure⟩ := bind_eq_ok.mp hrest
    cases hpure
    obtain ⟨tt', s₂, hinternal, hrest⟩ := bind_eq_ok.mp hbegin
    rw [bind_of_ok (EStateM.run_modify _ _)] at hrest
    obtain ⟨rc, s₃, hchange, hpure⟩ := bind_eq_ok.mp hrest
    cases hpure
    have hnames : s₂.names = s.names := ((TxnFrame.internalBeginTxn (R := Framed) th rd).of_run hinternal).names
    have hfinds := changeTxnDb_finds hchange hd
    rw [← hnames]
    exact hfinds
  . next th tt dbname' s' hrun =>
    obtain ⟨d', hd, heq⟩ := Option.map_eq_some_iff.mp h
    cases heq
    obtain ⟨-, -, hrest⟩ := holds_bind_eq_ok.mp hrun
    obtain ⟨rc, s₁, hchange, hpure⟩ := bind_eq_ok.mp hrest
    cases hpure
    exact changeTxnDb_finds hchange hd
  . cases h

theorem oneEntry_of_run {data : Lmdb.Data} {th : Nat} {after : Bytes → Bytes} {s₀ s : Sys} {es : List Event}
    (hinit : (Sys.init data).step (.initMetadata th after) = some s₀)
    (hnames : (metadata :: recordNames after ((data.lookup metadata).getD [])).Nodup)
    (hfresh : Lts.Along Sys.event Fresh s₀ es) (hrun : Lts.run Sys.event s₀ es = some s)
    : (s.dbs.map OpenDb.name).Nodup ∧
        ∀ bs s₁ a a' dbname d d', bs <+: es → Lts.run Sys.event s₀ bs = some s₁ →
          s₁.found a = some (dbname, d) → s.found a' = some (dbname, d') → d = d' := by
  have hs₀ := Single.of_init hnames hinit
  obtain ⟨hs, -⟩ := hs₀.of_run hfresh hrun
  refine ⟨hs.nodup, ?_⟩
  rintro bs s₁ a a' dbname d d' ⟨cs, rfl⟩ hbs hd hd'
  -- the entry that was found first is still at its place
  obtain ⟨hbs', hcs'⟩ := Lts.along_append hfresh hbs
  rw [Lts.run_append, hbs, Option.bind_some] at hrun
  obtain ⟨hs₁, -⟩ := hs₀.of_run hbs' hbs
  obtain ⟨-, hprefix⟩ := hs₁.of_run hcs' hrun
  have hname := names_of_found hd
  have hlt : d < s₁.names.length := (List.getElem?_eq_some_iff.mp hname).1
  have hsame : s.names[d]? = some dbname := by
    obtain ⟨l, hl⟩ := hprefix
    rw [← hl, List.getElem?_append_left hlt, hname]
  have hlt' := Nat.lt_of_lt_of_le hlt hprefix.length_le
  exact (List.getElem?_inj hlt' hs.nodup).mp (hsame.trans (names_of_found hd').symm)

def opening : List Action := [.beginTxn 0 metadata false, .openDb 0 1 [0x61] 0, .resume 0, .resume 0]

/--
It goes back to the metadata, and the name of the database is written once more.
-/
def keeping : List Event := opening.map .call ++ [.call (.changeTxnDb 0 1 metadata), .write (.entry 1) [0x61]]

/--
It had found the entry of the database, and another thread finds the same one.
-/
theorem oneEntry_kept
    : ∃ s₀ s₁ s d, (Sys.init []).step (.initMetadata 0 fun _ => []) = some s₀ ∧
        Lts.run Sys.event s₀ (opening.map .call) = some s₁ ∧ Lts.run Sys.event s₀ keeping = some s ∧
        (s.dbs.map OpenDb.name).Nodup ∧ s₁.found (.changeTxnDb 0 1 [0x61]) = some ([0x61], d) ∧
        s.found (.beginTxn 1 [0x61] true) = some ([0x61], d) := by
  have hruns : ∃ s₀ ∈ (Sys.init []).step (.initMetadata 0 fun _ => []), ∃ s₁ ∈ Lts.run Sys.event s₀ (opening.map .call),
      ∃ s₂ ∈ s₁.event (.call (.changeTxnDb 0 1 metadata)), s₂.str (.entry 1) = some [0x61] ∧
        ∃ s ∈ s₂.event (.write (.entry 1) [0x61]), (s₁.found (.changeTxnDb 0 1 [0x61])).map Prod.fst = some [0x61] ∧
          (s.found (.beginTxn 1 [0x61] true)).map Prod.fst = some [0x61] := by
    decide +kernel
  obtain ⟨s₀, hinit, s₁, hrun₁, s₂, hchange, hstr, s, hwrite, hfound₁, hfound⟩ := hruns
  obtain ⟨hpc₀, names, hread, hnames₀⟩ := names_of_init hinit
  obtain rfl : names = [] := List.prefix_nil.mp hread
  have hrun : Lts.run Sys.event s₀ keeping = some s := by
    rw [keeping, Lts.run_append, hrun₁, Option.bind_some, Lts.run_cons, hchange, Option.bind_some, Lts.run_cons, hwrite]
    rfl
  have hfresh : Lts.Along Sys.event Fresh s₀ keeping := by
    refine ⟨trivial, fun t₁ h₁ => ⟨⟨?_, ?_⟩, fun t₂ h₂ => ⟨trivial, fun t₃ h₃ => ⟨trivial, fun t₄ h₄ => ⟨trivial,
      fun t₅ h₅ => ⟨?_, fun _ _ => trivial⟩⟩⟩⟩⟩⟩
    . obtain ⟨r, hexec⟩ := exec_of_step h₁
      rw [Sys.names, ((CursorFrame.exec (R := Framed) rfl).of_run hexec).names]
      change [0x61] ∉ s₀.names
      rw [hnames₀]
      decide
    . obtain ⟨r, hexec⟩ := exec_of_step h₁
      intro th
      rw [((CursorFrame.exec (R := Framed) rfl).of_run hexec).pc, hpc₀]
      nofun
    . have hrun₄ : Lts.run Sys.event s₀ (opening.map .call) = some t₄ := by
        simp only [opening, List.map_cons, List.map_nil, Lts.run_cons, Option.mem_def.mp h₁, Option.mem_def.mp h₂,
          Option.mem_def.mp h₃, Option.mem_def.mp h₄, Option.bind_some, Lts.run_nil]
      cases hrun₁.symm.trans hrun₄
      cases hchange.symm.trans h₅
      intro old hold
      exact Option.some.inj (hold.symm.trans hstr)
  obtain ⟨⟨_, d⟩, hd, rfl⟩ := Option.map_eq_some_iff.mp hfound₁
  obtain ⟨⟨_, d'⟩, hd', heq⟩ := Option.map_eq_some_iff.mp hfound
  cases heq
  obtain ⟨hnodup, hsame⟩ := oneEntry_of_run hinit (by decide) hfresh hrun
  obtain rfl := hsame _ s₁ _ _ _ _ _ (List.prefix_append _ _) hrun₁ hd hd'
  exact ⟨s₀, s₁, s, d, hinit, hrun₁, hrun, hnodup, hd, hd'⟩

/--
The thread opens it once more.
-/
theorem not_oneEntry_reopened
    : ¬ ∀ (data : Lmdb.Data) (as : List Action) (s : Sys), Lts.run Sys.step (.init data) as = some s →
        (s.dbs.map OpenDb.name).Nodup := by
  intro h
  have hall : (Lts.run Sys.step (.init [])
      (.initMetadata 0 (fun _ => []) :: opening ++ [.openDb 0 1 [0x61] 0, .resume 0, .resume 0])).map
      (fun s => s.dbs.map OpenDb.name) = some [metadata, [0x61], [0x61]] := by decide +kernel
  obtain ⟨s, hrun, hs⟩ := Option.map_eq_some_iff.mp hall
  have hnodup := h _ _ s hrun
  rw [hs] at hnodup
  revert hnodup
  decide

end Db
