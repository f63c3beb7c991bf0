import TrashDb.Lib.SingleWriter
import TrashDb.Db.Lemmas.Snapshot

/-!
This module contains that the threads use the data as a store with one writer at a time: whatever they do, the
data is what the committed transactions have written one after the other, each of them as a whole.
-/

namespace Lmdb.Txn

def writes (x : Txn) : Bool := !x.rdonly && x.state == .active

end Lmdb.Txn

namespace Db

open Prog Function
open SingleWriter (Store Op History)

/--
The data and what the writer makes of it.
-/
def Sys.store (s : Sys) : Store Lmdb.Data where
  data := s.env.data
  draft := ((s.env.writer.bind s.env.txns).filter Lmdb.Txn.writes).map Lmdb.Txn.view

def Sys.writing (s : Sys) (tt : Nat) : Bool := (s.tts tt).any fun t => (t.txn.bind s.env.txns).any Lmdb.Txn.writes

/--
What a call does to the store. It does nothing if it does not work with the transaction that writes.
-/
def Action.ops (s : Sys) (a : Action) : List (Op Write) :=
  (if a.writes s then [.begin] else []) ++
    (if a.writes s || (a.uses s).any s.writing then (a.wrote s).map .write else []) ++
    (if (a.returns s).any s.writing then [.commit] else [])

theorem uses_of_writes {s : Sys} {a : Action} (h : a.writes s = true) : a.uses s = [] := by
  cases a with
  | initMetadata th after => rfl
  | beginTxn th dbname rd => rfl
  | internalBeginTxn th rd => rfl
  | resume th =>
    rw [Action.writes] at h
    rw [Action.uses]
    cases hpc : s.pc th with
    | begin tt dbname flags => rfl
    | _ =>
      rw [hpc] at h
      cases h
  | _ => cases h

theorem uses_of_returns {s : Sys} {a : Action} {tt : Nat} (h : a.returns s = some tt)
    : tt ∈ a.uses s ∧ a.wrote s = [] := by
  cases a with
  | resume th =>
    rw [Action.returns] at h
    rw [Action.uses, Action.wrote]
    cases hpc : s.pc th with
    | commit tt' temp dbname id dbMeta =>
      rw [hpc] at h
      cases h
      exact ⟨List.mem_singleton_self _, rfl⟩
    | _ =>
      rw [hpc] at h
      cases h
  | returnTxn th tt' =>
    cases h
    exact ⟨List.mem_singleton_self _, rfl⟩
  | _ => cases h

theorem writer_of_internalBeginTxn {s s' : Sys} {th tt : Nat} (hrun : (internalBeginTxn th false).run s = .ok tt s')
    : s.env.writer = none := by
  obtain ⟨txn, s₂, hmdb, -⟩ := bind_eq_ok.mp hrun
  obtain ⟨l, ⟨-, hrd, -⟩ | ⟨i, e, -, hbegun, -⟩⟩ := Reaches.mdbTxnBegin_cases th hmdb
  . cases hrd
  . exact ((Lmdb.Env.begin_started hbegun).write rfl).1

theorem writer_of_beginTxn {s s' : Sys} {th : Nat} {dbname : Bytes} {r : TrashRc × Nat}
    (hrun : (beginTxn th dbname false).run s = .ok r s')
    : s.env.writer = none := by
  obtain ⟨tt, s₁, hbegin, -⟩ := bind_eq_ok.mp hrun
  exact writer_of_internalBeginTxn hbegin

theorem writer_of_writes {s s' : Sys} {a : Action} (h : a.writes s = true) (hstep : s.step a = some s')
    : s.env.writer = none := by
  obtain ⟨r, hrun⟩ := exec_of_step hstep
  cases a with
  | initMetadata th after =>
    obtain ⟨-, hrest⟩ := ready_bind_eq_ok.mp hrun
    obtain ⟨_, s₁, hinit, -⟩ := bind_eq_ok.mp hrest
    obtain ⟨_, s₂, hbegin, -⟩ := bind_eq_ok.mp hinit
    exact writer_of_beginTxn hbegin
  | beginTxn th dbname rd =>
    cases rd with
    | true => cases h
    | false =>
      obtain ⟨-, hrest⟩ := ready_bind_eq_ok.mp hrun
      obtain ⟨_, s₁, hbegin, -⟩ := bind_eq_ok.mp hrest
      exact writer_of_beginTxn hbegin
  | internalBeginTxn th rd =>
    cases rd with
    | true => cases h
    | false =>
      obtain ⟨-, hrest⟩ := ready_bind_eq_ok.mp hrun
      obtain ⟨_, s₁, hbegin, -⟩ := bind_eq_ok.mp hrest
      exact writer_of_internalBeginTxn hbegin
  | resume th =>
    obtain ⟨_, s₁, hresume, -⟩ := bind_eq_ok.mp hrun
    rw [Db.openDbResume, bind_of_ok (EStateM.run_get s)] at hresume
    rw [Action.writes] at h
    cases hpc : s.pc th with
    | begin tt dbname flags =>
      rw [hpc] at hresume
      obtain ⟨_, s₂, hbegin, -⟩ := bind_eq_ok.mp hresume
      exact writer_of_beginTxn hbegin
    | _ =>
      rw [hpc] at h
      cases h
  | _ => cases h

theorem beginTxn_metadata {s s' : Sys} {th tt : Nat} {rd : Bool} {rc : TrashRc} (hs : Regular s)
    (hrun : (beginTxn th metadata rd).run s = .ok (rc, tt) s')
    : rc = .success ∧ UsesMetadata tt s' ∧ s'.Sound ∧ s'.env.Backed := by
  have hrefl : Reaches (fun _ _ => True) s s := Relation.ReflTransGen.refl
  have hreaches := (Reaches.beginTxn th metadata rd).of_run hrefl hrun
  obtain ⟨tt', s₁, hbegin, hrest⟩ := bind_eq_ok.mp hrun
  have hhead : Headed s₁ := ((Reaches.internalBeginTxn th rd).of_run hrefl hbegin).headed hs.head
  obtain ⟨_, s₂, hout, hrest₁⟩ := bind_eq_ok.mp hrest
  replace hhead : Headed s₂ := by
    cases hout
    exact hhead
  obtain ⟨rc', s₃, hchange, hpure⟩ := bind_eq_ok.mp hrest₁
  cases hpure
  refine ⟨?_, changeTxnDb_metadata hhead hchange, hreaches.sound hs.sound, hreaches.backed hs.sound hs.backed⟩
  obtain ⟨-, -, ⟨rfl, -⟩ | ⟨-, -, hnone⟩ | ⟨-, -, rfl, -⟩⟩ := changeTxnDb_cases hchange
  . rfl
  . obtain ⟨db, hdb, hname⟩ := hhead
    exact absurd hname (hnone db (List.mem_of_getElem? hdb))
  . rfl

namespace Resting

variable {d : Lmdb.Data} {s s' : Sys}

theorem not_writes {i : Nat} {x : Lmdb.Txn} (h : Resting d s) (hx : s.env.txns i = some x) : x.writes = false := by
  cases hrd : x.rdonly with
  | true => simp [Lmdb.Txn.writes, hrd]
  | false => simp [Lmdb.Txn.writes, h.ended i x hx hrd]

theorem store (h : Resting d s) : s.store = ⟨d, none⟩ := by
  have hnone : (s.env.writer.bind s.env.txns).filter Lmdb.Txn.writes = none := by
    rw [Option.filter_eq_none_iff]
    intro x hx
    obtain ⟨i, -, hx⟩ := Option.bind_eq_some_iff.mp hx
    simp [h.not_writes hx]
  rw [Sys.store, h.data, hnone]
  rfl

theorem not_writing (h : Resting d s) (tt : Nat) : s.writing tt = false := by
  unfold Sys.writing
  by_contra hwriting
  obtain ⟨t, -, hany⟩ := (Option.any_eq_true _ _).mp (by simpa using hwriting)
  obtain ⟨x, hx, hwrites⟩ := (Option.any_eq_true _ _).mp hany
  obtain ⟨i, -, hx⟩ := Option.bind_eq_some_iff.mp hx
  rw [h.not_writes hx] at hwrites
  cases hwrites

theorem ops {a : Action} (h : Resting d s) (hwrites : a.writes s = false) : a.ops s = [] := by
  have huses : (a.uses s).any s.writing = false := by simp [h.not_writing]
  have hreturns : (a.returns s).any s.writing = false := by
    cases a.returns s <;> simp [h.not_writing]
  rw [Action.ops, hwrites, huses, hreturns]
  rfl

end Resting

namespace Working

variable {th tt i : Nat} {t : TrashTxn} {x : Lmdb.Txn} {d : Lmdb.Data} {s s' : Sys}

theorem writes (h : Working tt i t x d s) (hrd : t.rd = false) : x.writes = true := by
  simp [Lmdb.Txn.writes, h.rdonly, hrd, h.active]

theorem store (h : Working tt i t x d s) (hrd : t.rd = false) : s.store = ⟨d, some x.view⟩ := by
  rw [Sys.store, h.data (h.rdonly.trans hrd), h.writer (h.rdonly.trans hrd), Option.bind_some, h.txns,
    Option.filter_some_pos (h.writes hrd)]
  rfl

theorem writing_iff (h : Working tt i t x d s) (hrd : t.rd = false) (tt' : Nat) : s.writing tt' = true ↔ tt' = tt := by
  unfold Sys.writing
  rw [Option.any_eq_true]
  constructor
  . rintro ⟨t', ht', hwrites⟩
    obtain ⟨y, hy, hwrites⟩ := (Option.any_eq_true _ _).mp hwrites
    obtain ⟨j, hj, hy⟩ := Option.bind_eq_some_iff.mp hy
    by_cases hji : j = i
    . exact h.owner tt' t' ht' (hji ▸ hj)
    . rw [Lmdb.Txn.writes, Bool.and_eq_true, Bool.not_eq_true', beq_iff_eq] at hwrites
      rw [h.others (h.rdonly.trans hrd) j y hji hy hwrites.1] at hwrites
      cases hwrites.2
  . rintro rfl
    refine ⟨t, h.tts, ?_⟩
    rw [h.txn, Option.bind_some, h.txns]
    exact h.writes hrd

theorem commit {r : Unit} (h : Working tt i t x d s) (hrd : t.rd = false) (haccounts : Accounts t x d)
    (hrun : (Db.returnTxn th tt).run s = .ok r s')
    : Resting x.view s' := by
  have hrdonly := h.rdonly.trans hrd
  have hwr : t.wr = true := by rw [h.role, hrd]; rfl
  have hfinish : ∀ {e : Lmdb.Env}, e.txns = update s.env.txns i (some { x with state := .ended, opened := [] }) →
      ∀ j y, e.txns j = some y → y.rdonly = false → y.state = .ended := by
    intro e htxns j y hy hyrd
    rw [htxns, update_apply] at hy
    split at hy
    . cases hy
      rfl
    . next hne => exact h.others hrdonly j y hne hy hyrd
  obtain ⟨e, l, ⟨-, hrc, rfl⟩ | ⟨hcommit, rfl⟩, -, rfl⟩ := returnTxn_write h.tts hrd hwr h.txn h.txns h.active hrun
  . refine ⟨?_, hfinish (Lmdb.Env.commit_txns _ _ _)⟩
    rw [Lmdb.Env.commit_success hrc]
    simp [hrdonly]
  . refine ⟨?_, hfinish (Lmdb.Env.finish_txns _ _ _ _)⟩
    dsimp only
    rw [Lmdb.Env.finish_data, h.data hrdonly, haccounts (.inr hcommit)]

theorem commit_of_step {a : Action} (h : Working tt i t x d s) (hrd : t.rd = false) (haccounts : Accounts t x d)
    (hreturns : a.returns s = some tt) (hstep : s.step a = some s')
    : Resting x.view s' := by
  obtain ⟨r, hrun⟩ := exec_of_step hstep
  cases a with
  | resume th =>
    obtain ⟨_, s₁, hresume, hpure⟩ := bind_eq_ok.mp hrun
    cases hpure
    rw [Db.openDbResume, bind_of_ok (EStateM.run_get s)] at hresume
    rw [Action.returns] at hreturns
    cases hpc : s.pc th with
    | commit tt' temp dbname id dbMeta =>
      rw [hpc] at hresume hreturns
      cases hreturns
      obtain ⟨_, s₂, hreturn, hset⟩ := bind_eq_ok.mp hresume
      cases hset
      obtain ⟨hdata, hended⟩ := h.commit hrd haccounts hreturn
      exact ⟨hdata, hended⟩
    | _ =>
      rw [hpc] at hreturns
      cases hreturns
  | returnTxn th tt' =>
    cases hreturns
    obtain ⟨-, -, hrest⟩ := holds_bind_eq_ok.mp hrun
    obtain ⟨_, s₁, hreturn, hpure⟩ := bind_eq_ok.mp hrest
    cases hpure
    exact h.commit hrd haccounts hreturn
  | _ => cases hreturns

theorem begins {a : Action} (hs : Regular s) (hwrites : a.writes s = true) (hstep : s.step a = some s')
    : ∃ tt i t x, Working tt i t x s.env.data s' ∧ t.rd = false ∧ Accounts t x s.env.data ∧
        x.view = (a.wrote s).foldl Write.apply s.env.data := by
  obtain ⟨r, hrun⟩ := exec_of_step hstep
  have hbegun : ∀ {th tt dbname rc s'}, (Db.beginTxn th dbname false).run s = .ok (rc, tt) s' →
      ∃ i t x, Working tt i t x s.env.data s' ∧ t.rd = false ∧ Accounts t x s.env.data ∧ x.view = s.env.data := by
    intro th tt dbname rc s' hbegin
    obtain ⟨i, t, x, h, hrd, -, hview⟩ | ⟨hrd, -⟩ := Working.begin hs.sound hs.pools hbegin
    . exact ⟨i, t, x, h, hrd, fun _ => hview, hview⟩
    . cases hrd
  cases a with
  | initMetadata th after =>
    obtain ⟨-, hrest⟩ := ready_bind_eq_ok.mp hrun
    obtain ⟨_, s₁, hinit, hpure⟩ := bind_eq_ok.mp hrest
    cases hpure
    obtain ⟨⟨rc, tt⟩, s₂, hbegin, hwhen⟩ := bind_eq_ok.mp hinit
    -- the metadata has been opened before
    obtain ⟨rfl, -⟩ := beginTxn_metadata hs hbegin
    cases hwhen
    exact ⟨tt, hbegun hbegin⟩
  | beginTxn th dbname rd =>
    cases rd with
    | true => cases hwrites
    | false =>
      obtain ⟨-, hrest⟩ := ready_bind_eq_ok.mp hrun
      obtain ⟨⟨rc, tt⟩, s₁, hbegin, hpure⟩ := bind_eq_ok.mp hrest
      cases hpure
      exact ⟨tt, hbegun hbegin⟩
  | internalBeginTxn th rd =>
    cases rd with
    | true => cases hwrites
    | false =>
      obtain ⟨-, hrest⟩ := ready_bind_eq_ok.mp hrun
      obtain ⟨tt, s₁, hbegin, hrest₁⟩ := bind_eq_ok.mp hrest
      cases hrest₁
      obtain ⟨i, t, x, h, hrd, -, hview⟩ | ⟨hrd, -⟩ := Working.internalBegin hs.sound hs.pools hbegin
      . exact ⟨tt, i, t, x, h, hrd, fun _ => hview, hview⟩
      . cases hrd
  | resume th =>
    obtain ⟨_, s₁, hresume, hpure⟩ := bind_eq_ok.mp hrun
    cases hpure
    rw [Db.openDbResume, bind_of_ok (EStateM.run_get s)] at hresume
    cases hpc : s.pc th with
    | begin tt' dbname flags =>
      rw [hpc] at hresume
      obtain ⟨⟨rc, tt⟩, s₂, hbegin, hopen⟩ := bind_eq_ok.mp hresume
      obtain ⟨i, t, x, h, hrd, haccounts, hview⟩ := hbegun hbegin
      obtain ⟨-, hmetadata, hsound, hbacked⟩ := beginTxn_metadata hs hbegin
      obtain ⟨u, x', h', hwrote⟩ := h.openDbi hsound hbacked hmetadata hopen
      refine ⟨tt, i, u, x', h', hwrote.rd.trans hrd, hwrote.accounts haccounts, ?_⟩
      rw [Action.wrote, hpc, hstep, hwrote.view, hview]
      rfl
    | _ =>
      rw [Action.writes, hpc] at hwrites
      cases hwrites
  | _ => cases hwrites

theorem foreign_ops {a : Action} (h : Working tt i t x d s) (hrd : t.rd = false) (huses : tt ∉ a.uses s)
    (hwrites : a.writes s = false)
    : a.ops s = [] := by
  have hnot : ∀ tt' ∈ a.uses s, s.writing tt' = false := by
    intro tt' hmem
    by_contra hwriting
    rw [Bool.not_eq_false, h.writing_iff hrd] at hwriting
    exact huses (hwriting ▸ hmem)
  have hany : (a.uses s).any s.writing = false := List.any_eq_false.mpr fun tt' hmem => by simp [hnot tt' hmem]
  have hreturns : (a.returns s).any s.writing = false := by
    cases heq : a.returns s with
    | none => rfl
    | some tt' => exact hnot tt' (uses_of_returns heq).1
  rw [Action.ops, hwrites, hany, hreturns]
  rfl

theorem own_ops {a : Action} (h : Working tt i t x d s) (hrd : t.rd = false) (huses : tt ∈ a.uses s)
    : a.ops s = (a.wrote s).map .write ++ if a.returns s = some tt then [.commit] else [] := by
  have hwrites : a.writes s = false := by
    by_contra hwrites
    rw [uses_of_writes (by simpa using hwrites)] at huses
    cases huses
  have hany : (a.uses s).any s.writing = true := List.any_eq_true.mpr ⟨tt, huses, (h.writing_iff hrd tt).mpr rfl⟩
  have hreturns : (a.returns s).any s.writing = true ↔ a.returns s = some tt := by
    rw [Option.any_eq_true]
    constructor
    . rintro ⟨tt', heq, hwriting⟩
      rw [heq, (h.writing_iff hrd tt').mp hwriting]
    . exact fun heq => ⟨tt, heq, (h.writing_iff hrd tt).mpr rfl⟩
  rw [Action.ops, hwrites, hany]
  simp only [hreturns]
  rfl

end Working

/--
No transaction writes, or one does that is going to commit if it has changed anything.
-/
def Serving (s : Sys) : Prop :=
  Resting s.env.data s ∨ ∃ tt i t x, Working tt i t x s.env.data s ∧ t.rd = false ∧ Accounts t x s.env.data

theorem Serving.of_working {s : Sys} {tt i : Nat} {t : TrashTxn} {x : Lmdb.Txn} {d : Lmdb.Data}
    (h : Working tt i t x d s) (hrd : t.rd = false) (haccounts : Accounts t x d)
    : Serving s := by
  have hdata := h.data (h.rdonly.trans hrd)
  exact .inr ⟨tt, i, t, x, hdata.symm ▸ h, hrd, hdata.symm ▸ haccounts⟩

theorem store_of_step {s s' : Sys} {a : Action} (hs : Regular s) (hserving : Serving s) (hstep : s.step a = some s')
    : Serving s' ∧ Lts.run (SingleWriter.step Write.apply) s.store (a.ops s) = some s'.store := by
  obtain hresting | ⟨tt, i, t, x, h, hrd, haccounts⟩ := hserving
  . cases hwrites : a.writes s with
    | false =>
      have hresting' := hresting.step hwrites hstep
      refine ⟨.inl (hresting'.data.symm ▸ hresting'), ?_⟩
      rw [hresting.ops hwrites, hresting.store, hresting'.store]
      rfl
    | true =>
      obtain ⟨tt, i, t, x, h, hrd, haccounts, hview⟩ := Working.begins hs hwrites hstep
      refine ⟨.of_working h hrd haccounts, ?_⟩
      have hreturns : a.returns s = none := by
        cases heq : a.returns s with
        | none => rfl
        | some tt =>
          have huses := (uses_of_returns heq).1
          rw [uses_of_writes hwrites] at huses
          cases huses
      rw [Action.ops, hwrites, hreturns, hresting.store, h.store hrd, hview]
      exact (congrArg _ (List.append_nil _)).trans (SingleWriter.run_writes _ _ _)
  . by_cases huses : tt ∈ a.uses s
    . rw [h.store hrd, h.own_ops hrd huses, Lts.run_append, SingleWriter.run_writes, Option.bind_some]
      obtain ⟨u, x', h', hwrote, hreturns⟩ | ⟨-, hreturns⟩ := h.step hs huses hstep
      . refine ⟨.of_working h' (hwrote.rd.trans hrd) (hwrote.accounts haccounts), ?_⟩
        rw [hreturns, h'.store (hwrote.rd.trans hrd), hwrote.view]
        rfl
      . have hreturns := hreturns hrd
        have hresting := h.commit_of_step hrd haccounts hreturns hstep
        refine ⟨.inl (hresting.data.symm ▸ hresting), ?_⟩
        rw [(uses_of_returns hreturns).2, hreturns, if_pos rfl, hresting.store]
        rfl
    . have hwrites : a.writes s = false := by
        by_contra hwrites
        have hwriter := writer_of_writes (by simpa using hwrites) hstep
        rw [h.writer (h.rdonly.trans hrd)] at hwriter
        cases hwriter
      have h' := h.foreign huses hstep
      refine ⟨.of_working h' hrd haccounts, ?_⟩
      rw [h.foreign_ops hrd huses hwrites, h.store hrd, h'.store hrd]
      rfl

theorem resting_of_openEnv {limits : Lmdb.Limits} {data : Lmdb.Data} {th : Nat} {after : Bytes → Bytes} {s : Sys}
    (hopen : (Sys.initWith limits data).step (.initMetadata th after) = some s)
    : Resting s.env.data s := by
  refine ⟨rfl, ?_⟩
  intro i x hx hrd
  cases hstate : x.state with
  | ended => rfl
  | reset => exact absurd hstate ((Regular.openEnv hopen).sound.env.noReset i x hx hrd)
  | active => exact absurd hstate ((openEnv_of_step hopen).ended i x hx)

/--
The calls of all threads, in whatever order, do to the data what a store with one writer does: they are those
that the transactions which have been committed write one after the other, and a write transaction sees them
together with what it has written so far.
-/
theorem store_of_run {limits : Lmdb.Limits} {data : Lmdb.Data} {as : List Action} {s₀ s : Sys}
    (hnumbered : Numbered limits data as s₀ s)
    : Lts.run (SingleWriter.step Write.apply) ⟨s₀.env.data, none⟩ (Lts.record Sys.step Action.ops s₀ as) = some s.store ∧
      s.store = (History.ofOps (Lts.record Sys.step Action.ops s₀ as)).store Write.apply s₀.env.data := by
  obtain ⟨th, after, hopen⟩ := hnumbered.opened
  have hinvariant : ∀ s l a s', (Regular s ∧ Serving s ∧
        Lts.run (SingleWriter.step Write.apply) ⟨s₀.env.data, none⟩ l = some s.store) → s.step a = some s' →
      Regular s' ∧ Serving s' ∧
        Lts.run (SingleWriter.step Write.apply) ⟨s₀.env.data, none⟩ (l ++ a.ops s) = some s'.store := by
    rintro s l a s' ⟨hs, hserving, hrun⟩ hstep
    obtain ⟨hserving', hops⟩ := store_of_step hs hserving hstep
    refine ⟨hs.step hstep, hserving', ?_⟩
    rw [Lts.run_append, hrun]
    exact hops
  have hresting := resting_of_openEnv hopen
  obtain ⟨-, -, hstore⟩ := Lts.invariant_record (l := []) hinvariant
    ⟨.openEnv hopen, .inl hresting, by rw [hresting.store]; rfl⟩ hnumbered.run
  exact ⟨hstore, SingleWriter.history_of_run hstore⟩

/--
One transaction has been committed, the next one has put something and is not committed yet.
-/
def halfway : List Action := putting 1 0x31 ++ (putting 2 0x32).dropLast

theorem store_of_halfway
    : ∃ s₀ s,
        Numbered .unlimited [] halfway s₀ s ∧
        History.ofOps (Lts.record Sys.step Action.ops s₀ halfway) =
          ⟨[[.put metadata [0x6b] [0x31] .plain]], some [.put metadata [0x6b] [0x32] .plain]⟩ ∧
        s.store = (History.mk [[.put metadata [0x6b] [0x31] .plain]]
          (some [.put metadata [0x6b] [0x32] .plain])).store Write.apply s₀.env.data := by
  have hruns : ∃ s₀ ∈ (Sys.init []).step (.initMetadata 0 fun _ => []), numbered s₀ halfway = true ∧
      (Lts.run Sys.step s₀ halfway).isSome = true ∧ History.ofOps (Lts.record Sys.step Action.ops s₀ halfway) =
        ⟨[[.put metadata [0x6b] [0x31] .plain]], some [.put metadata [0x6b] [0x32] .plain]⟩ := by
    decide +kernel
  obtain ⟨s₀, hopen, hnumbered, hsome, hhistory⟩ := hruns
  obtain ⟨s, hrun⟩ := Option.isSome_iff_exists.mp hsome
  have hnumbered := Numbered.of_check hopen hrun hnumbered
  obtain ⟨-, hstore⟩ := store_of_run hnumbered
  rw [hhistory] at hstore
  exact ⟨s₀, s, hnumbered, hhistory, hstore⟩

end Db
