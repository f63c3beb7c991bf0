import TrashDb.Lib.Lts
import TrashDb.Db.Lemmas.Begin
import TrashDb.Db.Lemmas.OpenEnv

/-!
This module contains when a thread keeps to the rules of LMDB for its read transactions. It may have one
that is active, and it must not use one that is reset or has ended.
-/

namespace Db

open Prog Function

def Call.legal : Call → Bool
  | .txnBegin _ clash | .txnRenew clash => !clash
  | .access live => live
  | .get _ _ | .put _ _ | .dbiOpen _ _ => true

def LegalLog (s s' : Sys) : Prop := ∃ l, s'.log = s.log ++ l ∧ ∀ c ∈ l, c.legal = true

instance : Std.Refl LegalLog := ⟨fun s => ⟨[], by simp, nofun⟩⟩

theorem LegalLog.call {s₀ s : Sys} {c : Call} (h : LegalLog s₀ s) (hc : c.legal = true)
    : LegalLog s₀ { s with log := s.log ++ [c] } := by
  obtain ⟨l, hl, hlegal⟩ := h
  refine ⟨l ++ [c], by simp [hl], ?_⟩
  intro c' hc'
  rcases List.mem_append.mp hc' with hmem | hmem
  . exact hlegal c' hmem
  . rw [List.mem_singleton.mp hmem]
    exact hc

/--
The rules were kept until the program has stopped, and not because of them.
-/
def Harmless (s₀ : Sys) (e : Stop) (s : Sys) : Prop :=
  LegalLog s₀ s ∧ e ≠ .assertFailed .txnBegin ∧ e ≠ .assertFailed .txnRenew

def Fine (s₀ : Sys) (P : Sys → Prop) (s : Sys) : Prop := LegalLog s₀ s ∧ P s

namespace Fine

variable {s₀ s : Sys} {P : Sys → Prop}

theorem call {c : Call} (hP : Robust P) (h : Fine s₀ P s) (hc : c.legal = true)
    : Fine s₀ P { s with log := s.log ++ [c] } :=
  ⟨h.1.call hc, hP s _ h.2 (.log s c)⟩

theorem harmless {e : Stop} (h : Fine s₀ P s) (hbegin : e ≠ .assertFailed .txnBegin)
    (hrenew : e ≠ .assertFailed .txnRenew)
    : Harmless s₀ e s :=
  ⟨h.1, hbegin, hrenew⟩

theorem derefTt (tt : Nat)
    : Spec (Fine s₀ P) (derefTt tt) (fun t s => Fine s₀ P s ∧ s.tts tt = some t) (Harmless s₀) :=
  derefTt_spec tt fun _ hs => hs.harmless (by simp) (by simp)

theorem derefDb (db : Option Nat) : Spec (Fine s₀ P) (derefDb db) (fun _ => Fine s₀ P) (Harmless s₀) :=
  spec_weaken (derefDb_spec db fun _ hs => hs.harmless (by simp) (by simp)) (fun _ => id) fun _ _ => And.left

theorem changeTxnDb (hP : Robust P) (tt : Nat) (dbname : Bytes)
    : Spec (Fine s₀ P) (changeTxnDb tt dbname) (fun _ => Fine s₀ P) (Harmless s₀) := by
  refine spec_bind (derefTt tt) fun t => ?_
  refine spec_get fun s ⟨hs, ht⟩ => ?_
  split
  . refine spec_pure _ ?_
    rintro _ rfl
    exact hs
  . split
    . refine spec_pure _ ?_
      rintro _ rfl
      exact hs
    . next d hd =>
      refine spec_bind (Q := fun _ s => Fine s₀ P s ∧ s.tts tt = some t) ?_ fun _ => ?_
      . refine spec_set fun _ _ => ⟨⟨hs.1, ?_⟩, ht⟩
        exact hP s _ hs.2 (.of_alike (Alike.setCount s d _))
      . refine spec_bind (Q := fun _ => Fine s₀ P) ?_ fun _ => spec_pure _ fun _ => id
        refine spec_modify _ fun s ⟨hs, ht⟩ => ⟨hs.1, ?_⟩
        exact hP s _ hs.2 (.of_alike (Alike.setTt ht rfl))

theorem derefTxn {txn : Option Nat} (hP : Robust P) (hlive : ∀ s, P s → Live s txn)
    : Spec (Fine s₀ P) (derefTxn txn) (fun r s =>
        Fine s₀ P s ∧ txn = some r.1 ∧ s.env.txns r.1 = some r.2 ∧ r.2.state = .active) (Harmless s₀) := by
  refine spec_of_run fun s hs => ?_
  obtain ⟨i, x, rfl, hx, hactive⟩ := hlive s hs.2
  exact ⟨_, _, derefTxn_of_active hx hactive, hs.call hP rfl, rfl, hx, hactive⟩

theorem mdbGet {txn : Option Nat} (hP : Robust P) (hlive : ∀ s, P s → Live s txn) (dbi : Nat) (key : Bytes)
    : Spec (Fine s₀ P) (mdbGet txn dbi key) (fun _ => Fine s₀ P) (Harmless s₀) := by
  refine spec_bind (derefTxn hP hlive) fun r => ?_
  refine spec_bind (Q := fun _ => Fine s₀ P) ?_ fun _ => spec_pure _ fun _ => id
  exact spec_modify _ fun s hs => hs.1.call hP rfl

theorem mdbPut {txn : Option Nat} (hP : Robust P) (hlive : ∀ s, P s → Live s txn) (dbi : Nat)
    (key val : Bytes) (flags : BitVec 32) (answer : Lmdb.Answer)
    : Spec (Fine s₀ P) (mdbPut txn dbi key val flags answer) (fun _ => Fine s₀ P) (Harmless s₀) := by
  refine spec_bind (derefTxn hP hlive) fun ⟨i, x⟩ => ?_
  refine spec_bind (Q := fun _ s => Fine s₀ P s ∧ s.env.txns i = some x) ?_ fun _ => ?_
  . exact spec_modify _ fun s ⟨hs, _, hx, _⟩ => ⟨hs.call hP rfl, hx⟩
  . refine spec_bind (Q := fun _ => Fine s₀ P) ?_ fun _ => spec_pure _ fun _ => id
    refine spec_modify _ fun s ⟨hs, hx⟩ => ⟨hs.1, ?_⟩
    exact hP s _ hs.2 (.of_alike (Alike.setTxn hx (Alike.put_core x _ _ _ _ _)))

theorem mdbDbiOpen {txn : Option Nat} (hP : Robust P) (hlive : ∀ s, P s → Live s txn) (name : Bytes)
    (flags : BitVec 32)
    : Spec (Fine s₀ P) (mdbDbiOpen txn name flags) (fun _ => Fine s₀ P) (Harmless s₀) := by
  refine spec_bind (derefTxn hP hlive) fun ⟨i, x⟩ => ?_
  refine spec_bind (Q := fun _ s => Fine s₀ P s ∧ s.env.txns i = some x) ?_ fun _ => ?_
  . exact spec_modify _ fun s ⟨hs, _, hx, _⟩ => ⟨hs.call hP rfl, hx⟩
  refine spec_get fun s ⟨hs, hx⟩ => ?_
  split
  . refine spec_pure _ ?_
    rintro _ rfl
    exact hs
  . next dbi x' hopen =>
    split
    . refine spec_pure _ ?_
      rintro _ rfl
      exact hs
    . refine spec_bind (Q := fun _ => Fine s₀ P) (spec_modify _ ?_) fun _ => spec_pure _ fun _ => id
      rintro s rfl
      exact ⟨hs.1, hP s _ hs.2 (.dbiOpen hx hopen)⟩

theorem mdbCursorOpen {txn : Option Nat} (hP : Robust P) (hlive : ∀ s, P s → Live s txn) (dbi : Nat)
    : Spec (Fine s₀ P) (mdbCursorOpen txn dbi) (fun _ => Fine s₀ P) (Harmless s₀) := by
  refine spec_bind (derefTxn hP hlive) fun ⟨i, x⟩ => ?_
  dsimp only
  split
  . refine spec_get fun s hs => ?_
    refine spec_bind (Q := fun _ => Fine s₀ P) (spec_set fun _ _ => ?_) fun _ => spec_pure _ fun _ => id
    exact ⟨hs.1.1, hP s _ hs.1.2 (.of_alike (.cursors s _ _))⟩
  . exact spec_pure _ fun s hs => hs.1

section

variable {th tt i : Nat}

theorem trashGet (hP : Robust P) (htxn : ∀ s t, P s → s.tts tt = some t → t.txn = some i)
    (hlive : ∀ s, P s → Live s (some i)) (key : Bytes)
    : Spec (Fine s₀ P) (trashGet tt key) (fun _ => Fine s₀ P) (Harmless s₀) := by
  refine spec_bind (derefTt tt) fun t => ?_
  refine spec_weaken (A := fun s => Fine s₀ P s ∧ t.txn = some i) (spec_assume fun hi => ?_) ?_ fun _ _ => id
  . rw [hi]
    exact spec_bind (derefDb _) fun db => mdbGet hP hlive _ _
  . exact fun s ⟨hs, ht⟩ => ⟨hs, htxn s t hs.2 ht⟩

theorem trashPut (hP : Robust P) (htxn : ∀ s t, P s → s.tts tt = some t → t.txn = some i)
    (hlive : ∀ s, P s → Live s (some i)) (key val : Bytes) (flags : BitVec 32) (answer : Lmdb.Answer)
    : Spec (Fine s₀ P) (trashPut tt key val flags answer) (fun _ => Fine s₀ P) (Harmless s₀) := by
  refine spec_bind (derefTt tt) fun t => ?_
  split
  . exact spec_pure _ fun _ => And.left
  . next hrd =>
    simp only [Bool.not_eq_true] at hrd
    have hcore : Robust fun s => P s ∧ (s.tts tt).map TrashTxn.core = some t.core := by
      rintro s s' ⟨hs, ht⟩ hsim
      exact ⟨hP s s' hs hsim, by rw [hsim.tts, ht]⟩
    have htxn' : ∀ s, (P s ∧ (s.tts tt).map TrashTxn.core = some t.core) → t.txn = some i := by
      rintro s ⟨hs, ht⟩
      obtain ⟨t', ht', heq⟩ := Option.map_eq_some_iff.mp ht
      rw [← htxn s t' hs ht']
      simp only [TrashTxn.core, Prod.mk.injEq] at heq
      exact heq.1.symm
    refine spec_weaken (A := Fine s₀ fun s => P s ∧ (s.tts tt).map TrashTxn.core = some t.core) ?_ ?_
      fun _ _ => id
    . refine spec_bind (derefDb _) fun db => ?_
      refine spec_bind (mdbPut hcore ?_ _ _ _ _ _) fun rc => ?_
      . intro s hs
        rw [htxn' s hs]
        exact hlive s hs.1
      refine spec_bind (Q := fun _ => Fine s₀ P) ?_ fun _ => spec_pure _ fun _ => id
      refine spec_when (fun _ => spec_modify _ ?_) fun _ _ hs => ⟨hs.1, hs.2.1⟩
      intro s hs
      refine ⟨hs.1, hP s _ hs.2.1 (.setTt ?_)⟩
      rw [hs.2.2]
      simp [TrashTxn.core, hrd]
    . intro s hs
      exact ⟨hs.1.1, hs.1.2, by rw [hs.2, Option.map_some]⟩

theorem createCursor (hP : Robust P) (hpool : ∀ s, P s → s.rdrPool th = none)
    (htxn : ∀ s t, P s → s.tts tt = some t → t.txn = some i) (hlive : ∀ s, P s → Live s (some i))
    : Spec (Fine s₀ P) (createCursor th (some tt)) (fun _ => Fine s₀ P) (Harmless s₀) := by
  refine spec_bind (Q := fun tt' s => Fine s₀ P s ∧ tt' = tt) (spec_pure _ fun _ hs => ⟨hs, rfl⟩) fun tt' => ?_
  refine spec_assume ?_
  rintro rfl
  refine spec_bind (derefTt _) fun t => ?_
  refine spec_bind (Q := fun _ => Fine s₀ P) ?_ fun _ => ?_
  . refine spec_weaken (A := Fine s₀ P) ?_ (fun _ => And.left) fun _ _ => id
    refine spec_when (fun _ => ?_) fun _ _ => id
    exact spec_bind (changeTxnDb hP _ _) fun _ => spec_pure _ fun _ => id
  refine spec_bind (derefTt _) fun t => ?_
  refine spec_get fun s ⟨hs, ht⟩ => ?_
  rw [hpool s hs.2, htxn s t hs.2 ht]
  refine spec_weaken (A := Fine s₀ P) ?_ (by rintro _ rfl; exact hs) fun _ _ => id
  refine spec_bind (derefDb _) fun db => ?_
  refine spec_bind (mdbCursorOpen hP hlive _) fun c => ?_
  split
  . exact spec_throw _ fun _ hs => hs.harmless (by simp) (by simp)
  . exact spec_pure _ fun _ => id

end

end Fine

structure Uses (th tt i : Nat) (st : Lmdb.TxnState) (s : Sys) : Prop where
  pool : s.rdrPool th = none
  capacity : 0 < s.capacity
  metadata : PublicMetadata s
  owns : Owns true th tt i st s
  slot : s.env.slots th = if st = .active then some i else none

def Only (th : Nat) (tts : List Nat) (s : Sys) : Prop := ∀ tt, (th, tt) ∈ s.out → tt ∈ tts

namespace Uses

variable {s : Sys} {th tt i : Nat} {st : Lmdb.TxnState}

theorem robust : Robust (Uses th tt i st) := by
  intro s s' h hs
  refine ⟨?_, ?_, hs.metadata h.metadata, Owns.robust s s' h.owns hs, ?_⟩
  . rw [hs.rdrPool]
    exact h.pool
  . rw [hs.capacity]
    exact h.capacity
  . rw [hs.slots]
    exact h.slot

end Uses

structure Opened (th : Nat) (s : Sys) : Prop where
  pool : s.rdrPool th = none
  capacity : 0 < s.capacity
  metadata : PublicMetadata s
  slot : s.env.slots th = none
  out : Only th [] s
  idle : s.pc th = .idle

/--
The thread is at `pc` with its read transaction, and has no other transactions than `tts`.
-/
structure At (th tt i : Nat) (st : Lmdb.TxnState) (tts : List Nat) (pc : Pc) (s : Sys) : Prop where
  uses : Uses th tt i st s
  only : Only th tts s
  pc : s.pc th = pc

inductive Stage (th tt i : Nat) (s : Sys) : Prop where
  | idle (h : At th tt i .active [tt] .idle s)
  | begin {dbname : Bytes} {flags : BitVec 32} (h : At th tt i .reset [tt] (.begin tt dbname flags) s)
  | commit {temp id j : Nat} {dbname : Bytes} {dbMeta : BitVec 32}
    (h : At th tt i .reset [tt, temp] (.commit tt temp dbname id dbMeta) s)
    (htemp : Owns false th temp j .active s)
  | renew {dbname : Bytes} {id : Nat} {dbMeta : BitVec 32}
    (h : At th tt i .reset [tt] (.renew tt dbname id dbMeta) s)
  | publish {dbname : Bytes} {id : Nat} {dbMeta : BitVec 32}
    (h : At th tt i .active [tt] (.publish tt dbname id dbMeta) s)

namespace At

variable {s : Sys} {th tt i : Nat} {st : Lmdb.TxnState} {tts : List Nat} {pc : Pc}

theorem robust : Robust (At th tt i st tts pc) := by
  intro s s' h hs
  refine ⟨Uses.robust s s' h.uses hs, ?_, ?_⟩
  . rw [Only, hs.out]
    exact h.only
  . rw [hs.pc]
    exact h.pc

theorem setTxn {e : Lmdb.Env} {j : Nat} {y : Lmdb.Txn} (h : At th tt i st tts pc s) (hij : i ≠ j)
    (htxns : e.txns = update s.env.txns j (some y)) (hnext : s.env.nextTxn ≤ e.nextTxn)
    (hslots : e.slots = s.env.slots) (hdbis : s.env.dbis ⊆ e.dbis)
    : At th tt i st tts pc { s with env := e } := by
  refine ⟨⟨h.uses.pool, h.uses.capacity, ?_, h.uses.owns.setTxn hij htxns hnext, ?_⟩, h.only, h.pc⟩
  . exact h.uses.metadata.congr hdbis rfl
  . dsimp only
    rw [hslots]
    exact h.uses.slot

theorem setTt {tt' n : Nat} {t : Option TrashTxn} (h : At th tt i st tts pc s) (hne : tt ≠ tt')
    (hnext : s.nextTt ≤ n)
    : At th tt i st tts pc { s with tts := update s.tts tt' t, nextTt := n } :=
  ⟨⟨h.uses.pool, h.uses.capacity, h.uses.metadata, h.uses.owns.setTt hne hnext, h.uses.slot⟩, h.only, h.pc⟩

theorem setOut {tts' : List Nat} {out : List (Nat × Nat)} (h : At th tt i st tts pc s)
    (hout : ∀ tt, (th, tt) ∈ out → tt ∈ tts')
    : At th tt i st tts' pc { s with out := out } :=
  ⟨⟨h.uses.pool, h.uses.capacity, h.uses.metadata, ⟨h.uses.owns.core, h.uses.owns.role, h.uses.owns.ttLt,
    h.uses.owns.txnLt⟩, h.uses.slot⟩, hout, h.pc⟩

theorem setPc {pc' : Pc} (h : At th tt i st tts pc s)
    : At th tt i st tts pc' { s with pc := update s.pc th pc' } :=
  ⟨⟨h.uses.pool, h.uses.capacity, h.uses.metadata, ⟨h.uses.owns.core, h.uses.owns.role, h.uses.owns.ttLt,
    h.uses.owns.txnLt⟩, h.uses.slot⟩, h.only, update_self _ _ _⟩

theorem txn (s : Sys) (t : TrashTxn) (h : At th tt i st tts pc s) (ht : s.tts tt = some t)
    : t.txn = some i := by
  have hcore := h.uses.owns.core_eq ht
  simp only [TrashTxn.core, Prod.mk.injEq] at hcore
  exact hcore.1

theorem live (s : Sys) (h : At th tt i .active tts pc s) : Live s (some i) := h.uses.owns.live

theorem pool (s : Sys) (h : At th tt i st tts pc s) : s.rdrPool th = none := h.uses.pool

end At

section

variable {s₀ s : Sys} {th tt i : Nat} {tts : List Nat} {pc : Pc}

theorem internalGetReadTxn_of_opened {e : Lmdb.Env} (hpool : s.rdrPool th = none)
    (hslot : s.env.slots th = none) (hbegin : s.env.beginRead th = some (i, e))
    : (internalGetReadTxn th).run s = .ok s.nextTt {
        s with
        env := e
        tts := update s.tts s.nextTt (some ⟨some i, true, false, false, false, none⟩)
        nextTt := s.nextTt + 1
        log := s.log ++ [.txnBegin true false]
      } := by
  simp [internalGetReadTxn, mdbTxnBegin, call, setEnv, internalCreateTrashTxn, hpool, hslot, hbegin]

theorem internalGetReadTxn_fine
    : Spec (Fine s₀ (Opened th)) (internalGetReadTxn th)
        (fun tt s => ∃ i, Fine s₀ (At th tt i .active [] .idle) s) (Harmless s₀) := by
  refine spec_of_run fun s ⟨hlegal, h⟩ => ?_
  obtain ⟨e, hbegin, hnext, hdbis, hslot, hx⟩ := Lmdb.Env.beginRead_of_none h.slot
  refine ⟨_, _, internalGetReadTxn_of_opened h.pool h.slot hbegin, s.env.nextTxn, ?_, ?_⟩
  . obtain ⟨l, hl, hlegal'⟩ := hlegal.call (c := .txnBegin true false) rfl
    exact ⟨l, hl, hlegal'⟩
  . have hmeta : PublicMetadata { s with env := e } := by
      refine h.metadata.congr ?_ rfl
      rw [hdbis]
      exact List.Subset.refl _
    refine ⟨⟨h.pool, h.capacity, hmeta, ?_, hslot⟩, h.out, h.idle⟩
    refine ⟨⟨_, update_self _ _ _, rfl⟩, ⟨_, hx, rfl⟩, Nat.lt_succ_self _, ?_⟩
    dsimp only
    rw [hnext]
    exact Nat.lt_succ_self _

theorem beginTxn_fine (dbname : Bytes)
    : Spec (Fine s₀ (Opened th)) (beginTxn th dbname true)
        (fun r s => ∃ i, Fine s₀ (At th r.2 i .active [r.2] .idle) s) (Harmless s₀) := by
  refine spec_bind internalGetReadTxn_fine fun tt => spec_exists fun i => ?_
  refine spec_bind (Q := fun _ => Fine s₀ (At th tt i .active [tt] .idle)) ?_ fun _ => ?_
  . refine spec_modify _ fun s ⟨hlegal, h⟩ => ⟨hlegal, h.setOut ?_⟩
    intro tt' htt'
    rcases List.mem_cons.mp htt' with heq | hmem
    . cases heq
      exact List.mem_singleton_self _
    . cases h.only tt' hmem
  . refine spec_bind (Fine.changeTxnDb At.robust tt dbname) fun rc => ?_
    exact spec_pure _ fun s hs => ⟨i, hs⟩

theorem createCursor_fine
    : Spec (Fine s₀ (At th tt i .active tts .idle)) (createCursor th (some tt))
        (fun _ => Fine s₀ (At th tt i .active tts .idle)) (Harmless s₀) :=
  Fine.createCursor At.robust At.pool At.txn At.live

theorem createCursor_none_fine
    : Spec (Fine s₀ (Opened th)) (createCursor th none)
        (fun _ s => ∃ tt i, Fine s₀ (At th tt i .active [] .idle) s) (Harmless s₀) := by
  refine spec_bind internalGetReadTxn_fine fun tt => spec_exists fun i => ?_
  exact spec_weaken createCursor_fine (fun _ => id) fun _ s hs => ⟨tt, i, hs⟩

theorem openDbi_found_fine (dbname : Bytes) (flags dbMeta : BitVec 32)
    : Spec (Fine s₀ (At th tt i .active [tt] .idle)) (openDbi th tt tt dbname flags dbMeta)
        (fun _ s => ∃ id, Fine s₀ (At th tt i .active [tt] (.publish tt dbname id dbMeta)) s)
        (Harmless s₀) := by
  refine spec_bind (Fine.derefTt tt) fun t => ?_
  refine spec_weaken (A := fun s => Fine s₀ (At th tt i .active [tt] .idle) s ∧ t.txn = some i)
    (spec_assume fun hi => ?_) (fun s ⟨hs, ht⟩ => ⟨hs, hs.2.txn s t ht⟩) fun _ _ => id
  rw [hi]
  refine spec_bind (Fine.mdbDbiOpen At.robust At.live dbname flags) fun r => ?_
  split
  . exact spec_throw _ fun _ hs => hs.harmless (by simp) (by simp)
  . next dbi =>
    split
    . -- there is no put in a read transaction
      dsimp only
      refine spec_bind (Q := fun r s => Fine s₀ (At th tt i .active [tt] .idle) s ∧ r = none) ?_ fun r => ?_
      . refine putRecord_spec fun _ => spec_bind (Fine.derefTt tt) fun t => ?_
        split
        . exact spec_pure _ fun _ hs => ⟨hs.1, rfl⟩
        . next hrd =>
          refine fun s ⟨hs, ht⟩ => absurd ?_ hrd
          have hcore := hs.2.uses.owns.core_eq ht
          simp only [TrashTxn.core, Prod.mk.injEq] at hcore
          exact hcore.2.1
      . refine spec_assume ?_
        rintro rfl
        exact spec_bind (spec_ensure (Q := fun _ _ => False) _ _ (fun _ _ hok => by simp at hok)
          fun _ hs _ => hs.harmless (by simp) (by simp)) fun _ => spec_false
    . exact spec_modify _ fun s hs => ⟨dbi, hs.1, hs.2.setPc⟩

theorem reset_fine {t : TrashTxn} (pc : Pc)
    : Spec (fun s => Fine s₀ (At th tt i .active [tt] .idle) s ∧ s.tts tt = some t)
        (do setTt tt { t with dontFin := true }; returnTxn th tt; setPc th pc)
        (fun _ => Fine s₀ (At th tt i .reset [tt] pc)) (Harmless s₀) := by
  refine spec_of_run fun s ⟨⟨hlegal, h⟩, ht⟩ => ?_
  have hcore := h.uses.owns.core_eq ht
  simp only [TrashTxn.core, Prod.mk.injEq] at hcore
  obtain ⟨hi, hrd, hwr, hdontFin, hcommit⟩ := hcore
  obtain ⟨x, hx, hrole⟩ := h.uses.owns.role
  simp only [Lmdb.Txn.role, Prod.mk.injEq] at hrole
  obtain ⟨hrdonly, hthread, hactive⟩ := hrole
  let marked : Sys := { s with tts := update s.tts tt (some { t with dontFin := true }) }
  have hreturn : (returnTxn th tt).run marked = .ok () {
      marked with
      env := s.env.finish i x .reset
      tts := update marked.tts tt (some { t with dontFin := false })
      log := s.log ++ [.access true]
    } := by
    have hkept := returnTxn_kept (s := marked) th (t := { t with dontFin := true }) (update_self _ _ _) hrd hwr
      (by simpa [hrd] using hcommit) hi hx (by simp [hactive]) rfl
    rw [hactive] at hkept
    exact hkept
  have hrun : (do Db.setTt tt { t with dontFin := true }; returnTxn th tt; setPc th pc : M Unit).run s = .ok () {
      marked with
      env := s.env.finish i x .reset
      tts := update marked.tts tt (some { t with dontFin := false })
      log := s.log ++ [.access true]
      pc := update s.pc th pc
    } := by
    rw [Db.setTt, bind_of_ok (EStateM.run_modify _ _), bind_of_ok hreturn]
    rfl
  refine ⟨_, _, hrun, hlegal.call rfl, ⟨h.uses.pool, h.uses.capacity, ?_, ?_, ?_⟩, h.only, update_self _ _ _⟩
  . refine h.uses.metadata.congr ?_ rfl
    dsimp only
    rw [Lmdb.Env.finish_dbis]
    exact List.Subset.refl _
  . refine ⟨⟨_, update_self _ _ _, ?_⟩, ⟨{ x with state := .reset, opened := [] }, ?_, ?_⟩, h.uses.owns.ttLt, ?_⟩
    . simpa [TrashTxn.core, hi, hrd, hwr] using hcommit
    . dsimp only
      rw [Lmdb.Env.finish_txns, update_self]
    . rw [Lmdb.Txn.role, hrdonly, hthread]
    . dsimp only
      rw [Lmdb.Env.finish_nextTxn]
      exact h.uses.owns.txnLt
  . dsimp only
    rw [Lmdb.Env.finish_slots _ hactive, hrdonly, hthread]
    simp

theorem openDb_fine (dbname : Bytes) (flags : BitVec 32)
    : Spec (Fine s₀ (At th tt i .active [tt] .idle)) (openDb th tt dbname flags)
        (fun _ => Fine s₀ (Stage th tt i)) (Harmless s₀) := by
  refine spec_bind (Fine.changeTxnDb At.robust tt metadata) fun _ => ?_
  refine spec_bind (Fine.trashGet At.robust At.txn At.live dbname) fun r => ?_
  split
  . split
    . exact spec_throw _ fun _ hs => hs.harmless (by simp) (by simp)
    . refine spec_weaken (openDbi_found_fine dbname _ _) (fun _ => id) ?_
      rintro _ s ⟨id, hlegal, h⟩
      exact ⟨hlegal, .publish h⟩
  . refine spec_bind (Fine.derefTt tt) fun t => ?_
    split
    . refine spec_weaken (reset_fine (.begin tt dbname flags)) (fun _ => id) ?_
      rintro _ s ⟨hlegal, h⟩
      exact ⟨hlegal, .begin h⟩
    . next hrd =>
      refine fun s ⟨hs, ht⟩ => absurd ?_ hrd
      have hcore := hs.2.uses.owns.core_eq ht
      simp only [TrashTxn.core, Prod.mk.injEq] at hcore
      exact hcore.2.1
  . exact spec_throw _ fun _ hs => hs.harmless (by simp) (by simp)

theorem endTxn_fine
    : Spec (Fine s₀ (At th tt i .active tts pc)) (endTxn tt) (fun t s =>
        LegalLog s₀ s ∧ s.rdrPool th = none ∧ t.rd = true ∧ t.dontFin = false) (Harmless s₀) := by
  refine spec_bind (Fine.derefTt tt) fun t => ?_
  refine spec_weaken
    (A := fun s => Fine s₀ (At th tt i .active tts pc) s ∧ t.core = (some i, true, false, false, false))
    (spec_assume fun hcore => ?_) (fun s ⟨hs, ht⟩ => ⟨hs, hs.2.uses.owns.core_eq ht⟩) fun _ _ => id
  simp only [TrashTxn.core, Prod.mk.injEq] at hcore
  obtain ⟨hi, hrd, hwr, hdontFin, hcommit⟩ := hcore
  rw [hrd, Bool.true_and] at hcommit
  rw [hcommit, hwr, hrd, hi]
  refine spec_bind (Q := fun _ => Fine s₀ (At th tt i .active tts pc)) (spec_pure _ fun _ => id) fun _ => ?_
  refine spec_bind (Q := fun _ s => LegalLog s₀ s ∧ s.rdrPool th = none) ?_ fun _ => ?_
  . refine spec_bind (Fine.derefTxn At.robust At.live) fun r => ?_
    exact spec_modify _ fun s hs => ⟨hs.1.1, hs.1.2.uses.pool⟩
  . exact spec_pure _ fun s hs => ⟨hs.1, hs.2, hrd, hdontFin⟩

theorem returnTxn_fine
    : Spec (Fine s₀ (At th tt i .active tts pc)) (returnTxn th tt) (fun _ _ => False) (Harmless s₀) := by
  refine spec_bind endTxn_fine fun t => ?_
  refine spec_weaken (A := fun s => (LegalLog s₀ s ∧ s.rdrPool th = none) ∧ t.rd = true ∧ t.dontFin = false)
    (spec_assume fun ⟨hrd, hdontFin⟩ => ?_) (fun s ⟨hlegal, hpool, h⟩ => ⟨⟨hlegal, hpool⟩, h⟩) fun _ _ => id
  rw [hrd, hdontFin]
  refine spec_bind (Q := fun _ s => LegalLog s₀ s ∧ s.rdrPool th = none) (spec_modify _ fun _ => id) fun _ => ?_
  refine spec_bind (Q := fun _ _ => False) ?_ fun _ => spec_false
  refine spec_get fun s ⟨hlegal, hpool⟩ => ?_
  rw [hpool]
  refine spec_throw _ ?_
  rintro _ rfl
  exact ⟨hlegal, nofun, nofun⟩

theorem mdbTxnBegin_fine
    : Spec (Fine s₀ (At th tt i .reset tts pc)) (mdbTxnBegin th false) (fun txn s =>
        ∃ j, Fine s₀ (At th tt i .reset tts pc) s ∧ txn = some j ∧ j < s.env.nextTxn ∧
          ∃ x, s.env.txns j = some x ∧ x.role = (false, th, .active)) (Harmless s₀) := by
  refine spec_get fun s ⟨hlegal, h⟩ => ?_
  split
  . contradiction
  . split
    . refine spec_throw _ ?_
      rintro _ rfl
      exact ⟨hlegal, nofun, nofun⟩
    . next j e hbegin =>
      obtain ⟨rfl, hnext, hslots, hdbis, htxns⟩ := Lmdb.Env.beginWrite_eq_some hbegin
      have h' : At th tt i .reset tts pc { s with env := e } := by
        refine h.setTxn ?_ htxns ?_ hslots ?_
        . exact Nat.ne_of_lt h.uses.owns.txnLt
        . rw [hnext]
          exact Nat.le_succ _
        . rw [hdbis]
          exact List.Subset.refl _
      refine spec_of_run ?_
      rintro s rfl
      refine ⟨_, _, rfl, s.env.nextTxn, ⟨hlegal.call rfl, At.robust _ _ h' (.log _ _)⟩, rfl, ?_,
        s.env.newTxn th false, ?_, rfl⟩
      . dsimp only
        rw [hnext]
        exact Nat.lt_succ_self _
      . dsimp only
        rw [htxns, update_self]

def AtWrite (th tt i temp j : Nat) (pc : Pc) (s : Sys) : Prop :=
  At th tt i .reset [tt, temp] pc s ∧ Owns false th temp j .active s

theorem AtWrite.robust {temp j : Nat} : Robust (AtWrite th tt i temp j pc) :=
  fun s s' h hs => ⟨At.robust s s' h.1 hs, Owns.robust s s' h.2 hs⟩

theorem AtWrite.txn {temp j : Nat} (s : Sys) (t : TrashTxn) (h : AtWrite th tt i temp j pc s)
    (ht : s.tts temp = some t)
    : t.txn = some j := by
  have hcore := h.2.core_eq ht
  simp only [TrashTxn.core, Prod.mk.injEq] at hcore
  exact hcore.1

theorem AtWrite.live {temp j : Nat} (s : Sys) (h : AtWrite th tt i temp j pc s) : Live s (some j) :=
  h.2.live

theorem beginTemp_fine (dbname : Bytes)
    : Spec (Fine s₀ (At th tt i .reset [tt] pc)) (beginTxn th dbname false) (fun r s =>
        ∃ j, Fine s₀ (AtWrite th tt i r.2 j pc) s) (Harmless s₀) := by
  have hbegin : Spec (Fine s₀ (At th tt i .reset [tt] pc)) (internalBeginTxn th false) (fun temp s =>
      ∃ j, Fine s₀ (fun s => At th tt i .reset [tt] pc s ∧ Owns false th temp j .active s) s) (Harmless s₀) := by
    refine spec_bind mdbTxnBegin_fine fun txn => spec_exists fun j => ?_
    refine spec_of_run fun s ⟨⟨hlegal, h⟩, htxn, hlt, x, hx, hrole⟩ => ?_
    subst htxn
    refine ⟨s.nextTt, _, rfl, j, hlegal, ?_, ?_⟩
    . exact h.setTt (Nat.ne_of_lt h.uses.owns.ttLt) (Nat.le_succ _)
    . exact ⟨⟨_, update_self _ _ _, rfl⟩, ⟨x, hx, hrole⟩, Nat.lt_succ_self _, hlt⟩
  refine spec_bind hbegin fun temp => spec_exists fun j => ?_
  refine spec_bind (Q := fun _ => Fine s₀ (AtWrite th tt i temp j pc)) ?_ fun _ => ?_
  . refine spec_modify _ fun s ⟨hlegal, h, htemp⟩ => ⟨hlegal, h.setOut ?_, ?_⟩
    . intro tt' htt'
      rcases List.mem_cons.mp htt' with heq | hmem
      . cases heq
        simp
      . have := h.only tt' hmem
        simp_all
    . exact ⟨htemp.core, htemp.role, htemp.ttLt, htemp.txnLt⟩
  . refine spec_bind (Fine.changeTxnDb AtWrite.robust temp dbname) fun rc => ?_
    exact spec_pure _ fun s hs => ⟨j, hs⟩

theorem openDbi_create_fine {temp j : Nat} (dbname : Bytes) (flags dbMeta : BitVec 32)
    : Spec (Fine s₀ (AtWrite th tt i temp j pc)) (openDbi th tt temp dbname (flags ||| mdbCreate) dbMeta)
        (fun _ => Fine s₀ (Stage th tt i)) (Harmless s₀) := by
  refine spec_bind (Fine.derefTt temp) fun t => ?_
  refine spec_weaken (A := fun s => Fine s₀ (AtWrite th tt i temp j pc) s ∧ t.txn = some j)
    (spec_assume fun hj => ?_) (fun s ⟨hs, ht⟩ => ⟨hs, hs.2.txn s t ht⟩) fun _ _ => id
  rw [hj]
  refine spec_bind (Fine.mdbDbiOpen AtWrite.robust AtWrite.live dbname _) fun r => ?_
  split
  . exact spec_throw _ fun _ hs => hs.harmless (by simp) (by simp)
  . next dbi =>
    rw [if_pos (or_mdbCreate flags)]
    dsimp only
    refine spec_bind (putRecord_spec (Fine.trashPut AtWrite.robust AtWrite.txn AtWrite.live _ _ _)) fun rc => ?_
    refine spec_bind (Q := fun _ => Fine s₀ (AtWrite th tt i temp j pc)) ?_ fun _ => ?_
    . exact spec_ensure _ _ (fun _ hs _ => hs) fun _ hs _ => hs.harmless (by simp) (by simp)
    . refine spec_modify _ fun s ⟨hlegal, h, htemp⟩ => ⟨hlegal, ?_⟩
      rw [if_pos (h.uses.owns.tt_ne htemp).symm]
      exact .commit h.setPc ⟨htemp.core, htemp.role, htemp.ttLt, htemp.txnLt⟩

theorem AtWrite.finish {temp j : Nat} {e : Lmdb.Env} {y y' : Lmdb.Txn} (h : AtWrite th tt i temp j pc s)
    (hy : s.env.txns j = some y) (htxns : e.txns = update s.env.txns j (some y'))
    (hnext : e.nextTxn = s.env.nextTxn)
    (hslots : e.slots = if y.rdonly then update s.env.slots y.thread none else s.env.slots)
    (hdbis : s.env.dbis ⊆ e.dbis)
    : At th tt i .reset [tt, temp] pc { s with env := e } := by
  refine h.1.setTxn (h.1.uses.owns.txn_ne h.2) htxns (Nat.le_of_eq hnext.symm) ?_ hdbis
  obtain ⟨x, hx, hrole⟩ := h.2.role
  rw [hy] at hx
  cases hx
  simp only [Lmdb.Txn.role, Prod.mk.injEq] at hrole
  rw [hslots, hrole.1]
  rfl

theorem mdbTxnCommit_fine {temp j : Nat}
    : Spec (Fine s₀ (AtWrite th tt i temp j pc)) (mdbTxnCommit (some j))
        (fun _ => Fine s₀ (At th tt i .reset [tt, temp] pc)) (Harmless s₀) := by
  refine spec_of_run fun s ⟨hlegal, h⟩ => ?_
  obtain ⟨_, y, heq, hy, hactive⟩ := h.live
  cases heq
  refine ⟨_, _, mdbTxnCommit_of_active hy hactive, hlegal.call rfl, ?_⟩
  refine At.robust _ _ (h.finish hy (Lmdb.Env.commit_txns _ _ _) ?_ ?_ ?_) (.log _ (.access true))
  . exact Lmdb.Env.commit_nextTxn _ _ _
  . exact Lmdb.Env.commit_slots hactive
  . exact Lmdb.Env.commit_dbis _ _ _

theorem mdbTxnAbort_fine {temp j : Nat}
    : Spec (Fine s₀ (AtWrite th tt i temp j pc)) (mdbTxnAbort (some j))
        (fun _ => Fine s₀ (At th tt i .reset [tt, temp] pc)) (Harmless s₀) := by
  refine spec_of_run fun s ⟨hlegal, h⟩ => ?_
  obtain ⟨_, y, heq, hy, hactive⟩ := h.live
  cases heq
  refine ⟨_, _, mdbTxnAbort_of_some hy, hlegal, h.finish hy (Lmdb.Env.finish_txns _ _ _ _) ?_ ?_ ?_⟩
  . exact Lmdb.Env.finish_nextTxn _ _ _ _
  . exact Lmdb.Env.finish_slots _ hactive
  . rw [Lmdb.Env.finish_dbis]
    exact List.Subset.refl _

theorem endTemp_fine {temp j : Nat} (hne : tt ≠ temp)
    : Spec (Fine s₀ (AtWrite th tt i temp j pc)) (endTxn temp) (fun t s =>
        Fine s₀ (At th tt i .reset [tt, temp] pc) s ∧ t.rd = false) (Harmless s₀) := by
  refine spec_bind (Fine.derefTt temp) fun t => ?_
  refine spec_weaken
    (A := fun s => Fine s₀ (AtWrite th tt i temp j pc) s ∧ t.core = (some j, false, true, false, false))
    (spec_assume fun hcore => ?_) (fun s hs => ⟨hs.1, hs.1.2.2.core_eq hs.2⟩) fun _ _ => id
  simp only [TrashTxn.core, Prod.mk.injEq] at hcore
  obtain ⟨hj, hrd, hwr, _, _⟩ := hcore
  split
  . rw [hj]
    refine spec_bind mdbTxnCommit_fine fun rc => ?_
    refine spec_bind (Q := fun _ => Fine s₀ (At th tt i .reset [tt, temp] pc)) ?_ fun _ => ?_
    . exact spec_ensure _ _ (fun _ hs _ => hs) fun _ hs _ => hs.harmless (by simp) (by simp)
    dsimp only
    refine spec_bind (Q := fun _ => Fine s₀ (At th tt i .reset [tt, temp] pc)) (spec_modify _ ?_) fun _ => ?_
    . exact fun s hs => ⟨hs.1, hs.2.setTt hne (Nat.le_refl _)⟩
    . exact spec_pure _ fun s hs => ⟨hs, hrd⟩
  . rw [hwr, hrd, hj]
    refine spec_bind mdbTxnAbort_fine fun _ => ?_
    refine spec_bind (Q := fun _ => Fine s₀ (At th tt i .reset [tt, temp] pc)) (spec_pure _ fun _ => id) fun _ => ?_
    exact spec_pure _ fun s hs => ⟨hs, hrd⟩

theorem returnTemp_fine {temp j : Nat}
    : Spec (Fine s₀ (AtWrite th tt i temp j pc)) (returnTxn th temp)
        (fun _ => Fine s₀ (At th tt i .reset [tt] pc)) (Harmless s₀) := by
  refine spec_weaken (A := fun s => Fine s₀ (AtWrite th tt i temp j pc) s ∧ tt ≠ temp)
    (spec_assume fun hne => ?_) (fun s hs => ⟨hs, hs.2.1.uses.owns.tt_ne hs.2.2⟩) fun _ _ => id
  refine spec_bind (endTemp_fine hne) fun t => spec_assume fun hrd => ?_
  rw [hrd]
  refine spec_bind (Q := fun _ => Fine s₀ (At th tt i .reset [tt] pc)) (spec_modify _ ?_) fun _ => ?_
  . rintro s ⟨hlegal, h⟩
    refine ⟨hlegal, h.setOut ?_⟩
    intro tt' htt'
    obtain ⟨hmem, hne'⟩ := List.mem_filter.mp htt'
    have := h.only tt' hmem
    simp_all
  refine spec_bind (Q := fun _ => Fine s₀ (At th tt i .reset [tt] pc)) (spec_pure _ fun _ => id) fun _ => ?_
  refine spec_bind (Fine.derefDb _) fun db => ?_
  refine spec_modify _ fun s ⟨hlegal, h⟩ => ⟨hlegal, ?_⟩
  have hcount := At.robust s _ h (.of_alike (Alike.setCount s (t.db.getD 0) fun db => Word.sub32 db.count 1))
  split
  . exact hcount.setTt hne (Nat.le_refl _)
  . exact hcount

theorem mdbTxnRenew_fine
    : Spec (Fine s₀ (At th tt i .reset tts pc)) (mdbTxnRenew th (some i))
        (fun _ => Fine s₀ (At th tt i .active tts pc)) (Harmless s₀) := by
  refine spec_of_run fun s ⟨hlegal, h⟩ => ?_
  obtain ⟨x, hx, hrole⟩ := h.uses.owns.role
  simp only [Lmdb.Txn.role, Prod.mk.injEq] at hrole
  have hslot : s.env.slots th = none := h.uses.slot
  have hrenew : (mdbTxnRenew th (some i)).run s = .ok .success {
      s with
      env := { s.env with slots := update s.env.slots th (some i) }.setTxn i (s.env.newTxn th true)
      log := s.log ++ [.txnRenew false]
    } := by
    simp [mdbTxnRenew, call, setEnv, hx, hslot, Lmdb.Env.renew, hrole.1, hrole.2.2]
    rfl
  refine ⟨_, _, hrenew, hlegal.call rfl, ⟨h.uses.pool, h.uses.capacity, ?_, ?_, ?_⟩, h.only, h.pc⟩
  . exact h.uses.metadata.congr (List.Subset.refl _) rfl
  . exact ⟨h.uses.owns.core, ⟨_, update_self _ _ _, rfl⟩, h.uses.owns.ttLt, h.uses.owns.txnLt⟩
  . exact update_self _ _ _

theorem internalAddDb_fine {st : Lmdb.TxnState} (dbname : Bytes) (id : Nat) (flags : BitVec 32)
    : Spec (Fine s₀ (At th tt i st tts pc)) (internalAddDb dbname id flags)
        (fun _ => Fine s₀ (At th tt i st tts pc)) (Harmless s₀) := by
  exact spec_of_run fun s ⟨hlegal, h⟩ => ⟨_, _, rfl, hlegal, At.robust s _ h (.addDb s _)⟩

theorem openDbResume_fine (hstage : Stage th tt i s)
    : Spec (· = s) (openDbResume th) (fun _ => Fine s (Stage th tt i)) (Harmless s) := by
  refine spec_get ?_
  rintro s rfl
  have hstart : ∀ {P : Sys → Prop}, P s → ∀ s', s' = s → Fine s P s' := by
    intro P hs s' heq
    rw [heq]
    exact ⟨refl s, hs⟩
  cases hstage with
  | idle h =>
    rw [h.pc]
    refine spec_throw _ fun s' heq => ?_
    rw [heq]
    exact ⟨refl s, nofun, nofun⟩
  | begin h =>
    rw [h.pc]
    refine spec_bind (spec_weaken (beginTemp_fine metadata) (hstart h) fun _ _ => id) fun ⟨rc, temp⟩ => ?_
    exact spec_exists fun j => openDbi_create_fine _ _ _
  | commit h htemp =>
    rw [h.pc]
    refine spec_bind (spec_weaken returnTemp_fine (hstart ⟨h, htemp⟩) fun _ _ => id) fun _ => ?_
    exact spec_modify _ fun s' ⟨hlegal, h'⟩ => ⟨hlegal, .renew h'.setPc⟩
  | @renew dbname dbi dbMeta h =>
    rw [h.pc]
    refine spec_bind (spec_weaken (Fine.derefTt tt) (hstart h) fun _ _ => id) fun t => ?_
    refine spec_weaken
      (A := fun s' => Fine s (At th tt i .reset [tt] (.renew tt dbname dbi dbMeta)) s' ∧ t.txn = some i)
      (spec_assume fun hi => ?_) (fun s' ⟨hs', ht⟩ => ⟨hs', hs'.2.txn s' t ht⟩) fun _ _ => id
    rw [hi]
    refine spec_bind mdbTxnRenew_fine fun _ => ?_
    exact spec_modify _ fun s' ⟨hlegal, h'⟩ => ⟨hlegal, .publish h'.setPc⟩
  | @publish dbname dbi dbMeta h =>
    rw [h.pc]
    refine spec_bind (spec_weaken (internalAddDb_fine _ _ _) (hstart h) fun _ _ => id) fun db => ?_
    refine spec_bind (Fine.derefTt tt) fun t => ?_
    refine spec_bind (Q := fun _ => Fine s (At th tt i .active [tt] (.publish tt dbname dbi dbMeta)))
      (spec_modify _ fun s' ⟨⟨hlegal, h'⟩, ht⟩ => ⟨hlegal, ?_⟩) fun _ => ?_
    . exact At.robust s' _ h' (.of_alike (Alike.setTt ht rfl))
    . exact spec_modify _ fun s' ⟨hlegal, h'⟩ => ⟨hlegal, .idle h'.setPc⟩

end

/--
The thread calls a function of the module, with the transaction that it has. It takes one at a time.
-/
def Reads (th : Nat) (s : Sys) : Action → Prop
  | .initThreadLocalReaders th' => th' = th ∧ s.pc th = .idle
  | .beginTxn th' _ rd => th' = th ∧ s.pc th = .idle ∧ rd = true ∧ ∀ tt, (th, tt) ∉ s.out
  | .createCursor th' tt => th' = th ∧ s.pc th = .idle ∧ ∀ tt' ∈ tt, (th, tt') ∈ s.out
  | .openDb th' tt _ _ | .returnTxn th' tt => th' = th ∧ s.pc th = .idle ∧ (th, tt) ∈ s.out
  | .resume th' => th' = th
  | _ => False

instance (th : Nat) (s : Sys) (a : Action) : Decidable (Reads th s a) :=
  match a with
  | .initThreadLocalReaders th' => inferInstanceAs (Decidable (th' = th ∧ s.pc th = .idle))
  | .beginTxn th' _ rd =>
    decidable_of_iff (th' = th ∧ s.pc th = .idle ∧ rd = true ∧ ∀ p ∈ s.out, p.1 ≠ th) (by
      constructor
      . rintro ⟨hth, hidle, hrd, hout⟩
        exact ⟨hth, hidle, hrd, fun tt hmem => hout _ hmem rfl⟩
      . rintro ⟨hth, hidle, hrd, hout⟩
        refine ⟨hth, hidle, hrd, ?_⟩
        rintro ⟨_, tt⟩ hmem rfl
        exact hout tt hmem)
  | .createCursor th' tt => inferInstanceAs (Decidable (th' = th ∧ s.pc th = .idle ∧ ∀ tt' ∈ tt, (th, tt') ∈ s.out))
  | .openDb th' tt _ _ | .returnTxn th' tt =>
    inferInstanceAs (Decidable (th' = th ∧ s.pc th = .idle ∧ (th, tt) ∈ s.out))
  | .resume th' => inferInstanceAs (Decidable (th' = th))
  | .initMetadata _ _ | .internalBeginTxn _ _ | .changeTxnDb _ _ _ | .returnCursor _ _ | .trashPut _ _ _ _ _ _
  | .trashGet _ _ _ => inferInstanceAs (Decidable False)

def Action.isInitReaders : Action → Bool
  | .initThreadLocalReaders _ => true
  | _ => false

def Action.opensReader : Action → Bool
  | .beginTxn _ _ rd => rd
  | .createCursor _ tt => tt.isNone
  | _ => false

/--
The call keeps to the rules of LMDB, and no `assert` fails because of them.
-/
def Clean (s : Sys) (a : Action) : Prop :=
  LegalLog s (final ((exec a).run s)) ∧
    ∀ s', (exec a).run s ≠ .error (.assertFailed .txnBegin) s' ∧
      (exec a).run s ≠ .error (.assertFailed .txnRenew) s'

/--
The thread has kept to the rules, `busy` says that it has begun a read transaction.
-/
def Session (th : Nat) (busy : Bool) (s : Sys) : Prop :=
  if busy then ∃ tt i, Stage th tt i s else Opened th s

section

variable {s : Sys} {th : Nat} {busy : Bool} {a : Action}

theorem clean_of_spec {Q : Ret → Sys → Prop}
    (h : Spec (· = s) (exec a) (fun r s' => LegalLog s s' ∧ Q r s') (Harmless s))
    : Clean s a := by
  obtain ⟨hok, herror⟩ := h s rfl
  cases hrun : (exec a).run s with
  | ok r s' =>
    refine ⟨?_, fun s' => ⟨?_, ?_⟩⟩
    . rw [hrun]
      exact (hok r s' hrun).1
    . simp [hrun]
    . simp [hrun]
  | error e s' =>
    obtain ⟨hlegal, hbegin, hrenew⟩ := herror e s' hrun
    refine ⟨?_, fun s' => ⟨?_, ?_⟩⟩
    . rw [hrun]
      exact hlegal
    . simp [hrun, hbegin]
    . simp [hrun, hrenew]

theorem ready_of_idle (hidle : s.pc th = .idle) : Spec (· = s) (ready th) (fun _ s' => s' = s) (Harmless s) := by
  refine spec_of_run ?_
  rintro s rfl
  exact ⟨(), s, by simp [ready, hidle], rfl⟩

theorem holds_of_mem {tt : Nat} (hidle : s.pc th = .idle) (hmem : (th, tt) ∈ s.out)
    : Spec (· = s) (holds th tt) (fun _ s' => s' = s) (Harmless s) := by
  refine spec_of_run ?_
  rintro s rfl
  exact ⟨(), s, by simp [holds, ready, hidle, hmem], rfl⟩

theorem Stage.at_idle {tt i : Nat} (h : Stage th tt i s) (hidle : s.pc th = .idle)
    : At th tt i .active [tt] .idle s := by
  cases h with
  | idle h => exact h
  | begin h | commit h _ | renew h | publish h =>
    have := h.pc
    rw [hidle] at this
    cases this

theorem Session.of_mem {tt : Nat} (h : Session th busy s) (hidle : s.pc th = .idle)
    (hmem : (th, tt) ∈ s.out)
    : busy = true ∧ ∃ i, At th tt i .active [tt] .idle s := by
  cases busy with
  | false => cases h.out tt hmem
  | true =>
    obtain ⟨tt', i, hstage⟩ := h
    have hat := hstage.at_idle hidle
    obtain rfl := List.mem_singleton.mp (hat.only tt hmem)
    exact ⟨rfl, i, hat⟩

theorem exec_fine (h : Session th busy s) (hreads : Reads th s a) (hinit : a.isInitReaders = false)
    (hopens : a.opensReader = true → busy = false)
    : Spec (· = s) (exec a) (fun _ => Fine s (Session th (busy || a.opensReader))) (Harmless s) := by
  have hstart : ∀ {P : Sys → Prop}, P s → ∀ s', s' = s → Fine s P s' := by
    intro P hs s' heq
    rw [heq]
    exact ⟨refl s, hs⟩
  cases a with
  | initThreadLocalReaders th' => cases hinit
  | beginTxn th' dbname rd =>
    obtain ⟨rfl, hidle, rfl, _⟩ := hreads
    obtain rfl := hopens rfl
    refine spec_bind (ready_of_idle hidle) fun _ => ?_
    refine spec_bind (spec_weaken (beginTxn_fine dbname) (hstart h) fun _ _ => id) fun ⟨rc, tt⟩ => ?_
    exact spec_pure _ fun s' ⟨i, hlegal, hat⟩ => ⟨hlegal, tt, i, .idle hat⟩
  | createCursor th' tt =>
    obtain ⟨rfl, hidle, hmem⟩ := hreads
    cases tt with
    | none =>
      obtain rfl := hopens rfl
      refine spec_bind (ready_of_idle hidle) fun _ => ?_
      refine spec_bind (spec_weaken createCursor_none_fine (hstart h) fun _ _ => id) fun c => ?_
      refine spec_pure _ fun s' ⟨tt, i, hlegal, hat⟩ => ⟨hlegal, tt, i, .idle ⟨hat.uses, ?_, hat.pc⟩⟩
      exact fun tt' htt' => absurd (hat.only tt' htt') List.not_mem_nil
    | some tt =>
      obtain ⟨rfl, i, hat⟩ := h.of_mem hidle (hmem tt rfl)
      refine spec_bind (holds_of_mem hidle (hmem tt rfl)) fun _ => ?_
      refine spec_bind (spec_weaken createCursor_fine (hstart hat) fun _ _ => id) fun c => ?_
      exact spec_pure _ fun s' ⟨hlegal, hat'⟩ => ⟨hlegal, tt, i, .idle hat'⟩
  | openDb th' tt dbname flags =>
    obtain ⟨rfl, hidle, hmem⟩ := hreads
    obtain ⟨rfl, i, hat⟩ := h.of_mem hidle hmem
    refine spec_bind (holds_of_mem hidle hmem) fun _ => ?_
    refine spec_bind (spec_weaken (openDb_fine dbname flags) (hstart hat) fun _ _ => id) fun _ => ?_
    exact spec_pure _ fun s' ⟨hlegal, hstage⟩ => ⟨hlegal, tt, i, hstage⟩
  | resume th' =>
    obtain rfl : th' = th := hreads
    cases busy with
    | false =>
      refine spec_bind (Q := fun _ _ => False) (spec_get fun s' hs' => ?_) fun _ => spec_false
      rw [hs', h.idle]
      refine spec_throw _ fun s' heq => ?_
      rw [heq]
      exact ⟨refl s, nofun, nofun⟩
    | true =>
      obtain ⟨tt, i, hstage⟩ := h
      refine spec_bind (openDbResume_fine hstage) fun _ => ?_
      exact spec_pure _ fun s' ⟨hlegal, hstage'⟩ => ⟨hlegal, tt, i, hstage'⟩
  | returnTxn th' tt =>
    obtain ⟨rfl, hidle, hmem⟩ := hreads
    obtain ⟨rfl, i, hat⟩ := h.of_mem hidle hmem
    refine spec_bind (holds_of_mem hidle hmem) fun _ => ?_
    exact spec_bind (spec_weaken returnTxn_fine (hstart hat) fun _ _ => id) fun _ => spec_false
  | _ => cases hreads

theorem not_legalLog {s' : Sys} {c : Call} (hlog : s.log ++ [c] <+: s'.log) (hc : c.legal = false)
    : ¬ LegalLog s s' := by
  rintro ⟨l, hl, hlegal⟩
  rw [hl, List.prefix_append_right_inj] at hlog
  have hmem := hlegal c (hlog.subset (List.mem_singleton_self c))
  rw [hc] at hmem
  cases hmem

theorem internalGetReadTxn_clash {i : Nat} (hpool : s.rdrPool th = none) (hslot : s.env.slots th = some i)
    : ∃ tt s', (internalGetReadTxn th).run s = .ok tt s' ∧ s'.log = s.log ++ [.txnBegin true true] := by
  simp [internalGetReadTxn, mdbTxnBegin, call, internalCreateTrashTxn, hpool, hslot, Lmdb.Env.beginRead]

theorem not_legalLog_of_clash {α : Type} {i : Nat} {m : Nat → M α} (hpool : s.rdrPool th = none)
    (hslot : s.env.slots th = some i) (hm : ∀ tt, Extends Logged (m tt))
    : ¬ LegalLog s (final ((internalGetReadTxn th >>= m).run s)) := by
  obtain ⟨tt, s', hrun, hlog⟩ := internalGetReadTxn_clash hpool hslot
  rw [bind_of_ok hrun]
  refine not_legalLog (c := .txnBegin true true) ?_ rfl
  rw [← hlog]
  exact hm tt s'

theorem not_clean_of_busy {tt i : Nat} (hat : At th tt i .active [tt] .idle s) (hreads : Reads th s a)
    (ha : a.opensReader = true ∨ a.isInitReaders = true)
    : ¬ Clean s a := by
  have hpool := hat.uses.pool
  have hslot : s.env.slots th = some i := hat.uses.slot
  have hready : (ready th).run s = .ok () s := by simp [ready, hat.pc]
  rintro ⟨hlegal, _⟩
  cases a with
  | beginTxn th' dbname rd =>
    obtain ⟨rfl, _, rfl, _⟩ := hreads
    rw [exec, bind_of_ok hready, beginTxn, bind_assoc] at hlegal
    refine not_legalLog_of_clash hpool hslot (fun tt => ?_) hlegal
    refine extends_bind (extends_bind (fun _ => List.prefix_refl _) fun _ => ?_) fun _ => extends_pure _
    exact extends_bind (TxnFrame.changeTxnDb tt dbname) fun _ => extends_pure _
  | createCursor th' tt' =>
    obtain ⟨rfl, _, _⟩ := hreads
    cases tt' with
    | none =>
      rw [exec, bind_of_ok hready, createCursor, bind_assoc] at hlegal
      refine not_legalLog_of_clash hpool hslot (fun tt => ?_) hlegal
      refine extends_bind ?_ fun _ => extends_pure _
      exact TxnFrame.createCursor _ (some tt)
    | some tt' => simp [Action.opensReader, Action.isInitReaders] at ha
  | initThreadLocalReaders th' =>
    obtain ⟨rfl, _⟩ := hreads
    rw [exec, bind_of_ok hready, initThreadLocalReaders, bind_assoc, bind_of_ok (EStateM.run_get s), hpool,
      Option.isNone_none, when_true, createCursor, bind_assoc, bind_assoc] at hlegal
    refine not_legalLog_of_clash hpool hslot (fun tt => ?_) hlegal
    refine extends_bind (TxnFrame.createCursor _ (some tt)) fun c => ?_
    refine extends_bind (extends_bind ?_ fun txns => ?_) fun _ => extends_pure _
    . exact TxnFrame.createReaders _ _
    . exact fun _ => List.prefix_refl _
  | _ => simp [Action.opensReader, Action.isInitReaders] at ha

theorem changeTxnDb_of_found {tt d : Nat} {t : TrashTxn} {dbname : Bytes} (ht : s.tts tt = some t)
    (hdb : t.db = none) (hd : s.dbs.findIdx? (fun db => dbMatch (some db) dbname) = some d)
    : (changeTxnDb tt dbname).run s = .ok .success {
        s with
        dbs := s.dbs.modify d fun db => { db with count := Word.add32 db.count 1 }
        tts := update s.tts tt (some { t with db := some d })
      } := by
  rw [changeTxnDb, bind_of_ok (derefTt_of_some ht), bind_of_ok (EStateM.run_get s), hdb]
  simp only [Option.bind_none, dbMatch, Bool.false_eq_true, if_false]
  simp only [dbMatch] at hd
  rw [hd]
  rfl

theorem mdbCursorOpen_of_known {i dbi : Nat} {x : Lmdb.Txn} (hx : s.env.txns i = some x)
    (hactive : x.state = .active) (hfailed : x.failed = false) (hdbi : ∃ h ∈ x.dbis, h.id = dbi)
    : ∃ c s', (mdbCursorOpen (some i) dbi).run s = .ok (some c) s' := by
  have husable : x.usable ∧ (x.handle dbi).isSome := by
    refine ⟨Lmdb.Txn.usable_iff.mpr ⟨hactive, hfailed⟩, ?_⟩
    obtain ⟨h, hh, hid⟩ := hdbi
    rw [Lmdb.Txn.handle, List.find?_isSome]
    exact ⟨h, List.mem_append_left _ hh, by simpa using hid⟩
  rw [mdbCursorOpen, bind_of_ok (derefTxn_of_active hx hactive)]
  dsimp only
  rw [if_pos husable]
  exact ⟨_, _, rfl⟩

theorem createCursor_of_new {tt i d : Nat} {t : TrashTxn} {x : Lmdb.Txn} {db : OpenDb}
    (hpool : s.rdrPool th = none) (ht : s.tts tt = some t) (hnone : t.db = none) (hi : t.txn = some i)
    (hx : s.env.txns i = some x) (hactive : x.state = .active) (hfailed : x.failed = false)
    (hd : s.dbs.findIdx? (fun db => dbMatch (some db) metadata) = some d) (hdb : s.dbs[d]? = some db)
    (hid : ∃ h ∈ x.dbis, h.id = db.id)
    : ∃ c s', (createCursor th (some tt)).run s = .ok c s' := by
  let changed : Sys := {
    s with
    dbs := s.dbs.modify d fun db => { db with count := Word.add32 db.count 1 }
    tts := update s.tts tt (some { t with db := some d })
  }
  have hchange : (changeTxnDb tt metadata).run s = .ok .success changed := changeTxnDb_of_found ht hnone hd
  have hderef : (derefDb (some d)).run changed = .ok { db with count := Word.add32 db.count 1 } changed := by
    simp [derefDb, changed, hdb]
  obtain ⟨c, s', hopen⟩ : ∃ c s', (mdbCursorOpen (some i) db.id).run changed = .ok (some c) s' :=
    mdbCursorOpen_of_known hx hactive hfailed hid
  refine ⟨c, s', ?_⟩
  have hpure : (cursorTxn th (some tt)).run s = .ok tt s := rfl
  have hwhen : (do let _ ← changeTxnDb tt metadata : M Unit).run s = .ok () changed := by
    rw [bind_of_ok hchange]
    rfl
  rw [createCursor, bind_of_ok hpure, bind_of_ok (derefTt_of_some ht), hnone, Option.isNone_none, when_true,
    bind_of_ok hwhen, bind_of_ok (derefTt_of_some (update_self _ _ _)), bind_of_ok (EStateM.run_get changed)]
  have hpool' : changed.rdrPool th = none := hpool
  rw [hpool']
  dsimp only
  rw [bind_of_ok hderef, hi, bind_of_ok hopen]
  rfl

theorem createCursor_of_opened (h : Opened th s) : ∃ c s', (createCursor th none).run s = .ok c s' := by
  obtain ⟨e, hbegin, _, hdbis, _, hx⟩ := Lmdb.Env.beginRead_of_none h.slot
  obtain ⟨d, db, hd, hdb, hid⟩ := h.metadata
  have hget := internalGetReadTxn_of_opened h.pool h.slot hbegin
  rw [createCursor, cursorTxn, bind_of_ok hget]
  exact createCursor_of_new h.pool (update_self _ _ _) rfl rfl hx rfl rfl hd hdb hid

theorem not_clean_of_opened (h : Opened th s) : ¬ Clean s (.initThreadLocalReaders th) := by
  have hready : (ready th).run s = .ok () s := by simp [ready, h.idle]
  obtain ⟨c, s₁, hcursor⟩ := createCursor_of_opened h
  obtain ⟨hok, _⟩ := createCursor_none_fine s ⟨refl s, h⟩
  obtain ⟨tt, i, _, hat⟩ := hok c s₁ hcursor
  obtain ⟨n, hn⟩ := Nat.exists_eq_add_one.mpr h.capacity
  obtain ⟨s₂, hreaders⟩ := createReaders_clash (n := n) hat.uses.slot
  rintro ⟨_, hassert⟩
  apply (hassert s₂).1
  rw [exec, bind_of_ok hready, initThreadLocalReaders, bind_assoc, bind_of_ok (EStateM.run_get s), h.pool,
    Option.isNone_none, when_true, bind_assoc, bind_of_ok hcursor, bind_assoc, hn, bind_of_error hreaders]

theorem not_clean (h : Session th busy s) (hreads : Reads th s a)
    (ha : a.isInitReaders = true ∨ (a.opensReader = true ∧ busy = true))
    : ¬ Clean s a := by
  cases busy with
  | true =>
    obtain ⟨tt, i, hstage⟩ := h
    have hidle : s.pc th = .idle := by
      cases a with
      | initThreadLocalReaders th' => exact hreads.2
      | beginTxn th' dbname rd => exact hreads.2.1
      | createCursor th' tt => exact hreads.2.1
      | _ => simp [Action.isInitReaders, Action.opensReader] at ha
    refine not_clean_of_busy (hstage.at_idle hidle) hreads ?_
    rcases ha with hinit | ⟨hopens, _⟩
    . exact .inr hinit
    . exact .inl hopens
  | false =>
    cases a with
    | initThreadLocalReaders th' =>
      obtain ⟨rfl, _⟩ := hreads
      exact not_clean_of_opened h
    | _ => simp [Action.isInitReaders] at ha

end

theorem clean_iff {th : Nat} {busy : Bool} {s : Sys} {as : List Action} (h : Session th busy s)
    (hreads : Lts.Along Sys.step (Reads th) s as)
    : (∀ bs a, bs ++ [a] <+: as → ∀ s', Lts.run Sys.step s bs = some s' → Clean s' a) ↔
        ∀ bs a, bs ++ [a] <+: as → (Lts.run Sys.step s bs).isSome →
          a.isInitReaders = false ∧
          (a.opensReader = true → busy = false ∧ ∀ b ∈ bs, b.opensReader = false) := by
  induction as generalizing s busy with
  | nil => simp
  | cons a as ih =>
    rw [Lts.forall_snoc_cons, Lts.forall_snoc_cons]
    by_cases ha : a.isInitReaders = true ∨ (a.opensReader = true ∧ busy = true)
    . -- neither side holds of the first call
      constructor
      . intro hclean
        exact absurd (hclean.1 s rfl) (not_clean h hreads.1 ha)
      . intro hcond
        obtain ⟨hinit, hopens⟩ := hcond.1 rfl
        rcases ha with ha | ⟨ha, hbusy⟩
        . rw [hinit] at ha
          cases ha
        . rw [(hopens ha).1] at hbusy
          cases hbusy
    . have hinit : a.isInitReaders = false := by simpa using fun h => ha (.inl h)
      have hopens : a.opensReader = true → busy = false := by simpa using fun h h' => ha (.inr ⟨h, h'⟩)
      have hfine := exec_fine h hreads.1 hinit hopens
      have hclean := clean_of_spec hfine
      have hfirst : (∀ s', Lts.run Sys.step s [] = some s' → Clean s' a) := by
        rintro _ ⟨⟩
        exact hclean
      cases hstep : s.step a with
      | none =>
        simp only [Lts.run_cons, hstep, Option.bind_none]
        simp [hinit, hclean]
        exact hopens
      | some s₁ =>
        obtain ⟨r, hexec⟩ := exec_of_step hstep
        obtain ⟨_, hsession⟩ := (hfine s rfl).1 r s₁ hexec
        have htail := ih hsession (hreads.2 s₁ hstep)
        simp only [Lts.run_cons, hstep, Option.bind_some]
        constructor
        . rintro ⟨_, hrest⟩
          refine ⟨fun _ => ⟨hinit, fun ho => ⟨hopens ho, nofun⟩⟩, ?_⟩
          intro bs b hbs hrun
          obtain ⟨hinit', hopens'⟩ := htail.mp hrest bs b hbs hrun
          refine ⟨hinit', fun ho => ?_⟩
          obtain ⟨hbusy, hbefore⟩ := hopens' ho
          rw [Bool.or_eq_false_iff] at hbusy
          exact ⟨hbusy.1, List.forall_mem_cons.mpr ⟨hbusy.2, hbefore⟩⟩
        . rintro ⟨_, hcond⟩
          refine ⟨hfirst, htail.mpr ?_⟩
          intro bs b hbs hrun
          obtain ⟨hinit', hopens'⟩ := hcond bs b hbs hrun
          refine ⟨hinit', fun ho => ?_⟩
          obtain ⟨hbusy, hbefore⟩ := hopens' ho
          obtain ⟨ha', hbefore'⟩ := List.forall_mem_cons.mp hbefore
          exact ⟨by rw [hbusy, ha']; rfl, hbefore'⟩

theorem opened_of_openEnv {s : Sys} (h : OpenEnv s) (th : Nat) : Opened th s := by
  obtain ⟨db, hdb, hname⟩ := h.head
  refine ⟨h.pool th, by rw [h.capacity]; exact Nat.zero_lt_one, ⟨0, db, ?_, hdb, ?_⟩, h.slots th, ?_, h.idle th⟩
  . obtain ⟨hlt, hget⟩ := List.getElem?_eq_some_iff.mp hdb
    rw [List.findIdx?_eq_some_iff_getElem]
    refine ⟨hlt, ?_, by simp⟩
    rw [hget]
    simpa [dbMatch] using hname
  . rcases h.listed.dbs db (List.mem_of_getElem? hdb) with hpublic | ⟨i, x, hx, hactive, _⟩
    . exact ⟨_, hpublic, rfl⟩
    . exact absurd hactive (h.ended i x hx)
  . simp [Only, h.out]

/--
After `open_env`, the calls of a thread keep to the rules of LMDB exactly if, of those that it gets to, none
sets up its pool and only one begins a read transaction.
-/
theorem disciplined_iff {data : Lmdb.Data} {th₀ th : Nat} {after : Bytes → Bytes} {s : Sys} {as : List Action}
    (hopen : (Sys.init data).step (.initMetadata th₀ after) = some s)
    (hreads : Lts.Along Sys.step (Reads th) s as)
    : (∀ bs a, bs ++ [a] <+: as → ∀ s', Lts.run Sys.step s bs = some s' → Clean s' a) ↔
        ∀ bs a, bs ++ [a] <+: as → (Lts.run Sys.step s bs).isSome →
          a.isInitReaders = false ∧ (a.opensReader = true → ∀ b ∈ bs, b.opensReader = false) := by
  have hopened : Session th false s := opened_of_openEnv (openEnv_of_step hopen) th
  rw [clean_iff hopened hreads]
  simp only [true_and]

def creatingFromRead : List Action :=
  [.beginTxn 1 metadata true, .openDb 1 1 [0x61] 0, .resume 1, .resume 1, .resume 1, .resume 1]

theorem disciplined_create
    : ∃ s, (Sys.init []).step (.initMetadata 0 fun _ => []) = some s ∧
        ∀ bs a, bs ++ [a] <+: creatingFromRead → ∀ s', Lts.run Sys.step s bs = some s' → Clean s' a := by
  have hruns : ∃ s ∈ (Sys.init []).step (.initMetadata 0 fun _ => []), Lts.Along Sys.step (Reads 1) s creatingFromRead := by
    decide +kernel
  obtain ⟨s, hopen, hreads⟩ := hruns
  refine ⟨s, hopen, (disciplined_iff hopen hreads).mpr ?_⟩
  have hcond : ∀ bs a, bs ++ [a] <+: creatingFromRead →
      a.isInitReaders = false ∧ (a.opensReader = true → ∀ b ∈ bs, b.opensReader = false) := by
    simp [creatingFromRead, Lts.forall_snoc_cons, Action.isInitReaders, Action.opensReader]
  exact fun bs a hbs _ => hcond bs a hbs

theorem not_disciplined_init_readers
    : ¬ ∀ (data : Lmdb.Data) (th₀ th : Nat) (after : Bytes → Bytes) (s : Sys) (as : List Action),
        (Sys.init data).step (.initMetadata th₀ after) = some s → Lts.Along Sys.step (Reads th) s as →
        ∀ bs a, bs ++ [a] <+: as → ∀ s', Lts.run Sys.step s bs = some s' → Clean s' a := by
  intro h
  have hsome : ((Sys.init []).step (.initMetadata 0 fun _ => [])).isSome = true := by decide +kernel
  obtain ⟨s, hopen⟩ := Option.isSome_iff_exists.mp hsome
  have hopened := opened_of_openEnv (openEnv_of_step hopen) 0
  have hreads : Lts.Along Sys.step (Reads 0) s [.initThreadLocalReaders 0] :=
    ⟨⟨rfl, hopened.idle⟩, fun _ _ => trivial⟩
  exact not_clean_of_opened hopened (h [] 0 0 _ s _ hopen hreads [] _ (List.prefix_refl _) s rfl)

end Db
