import TrashDb.Db.Lemmas.Sound

/-!
This module contains the rule for what the calls keep that are given some of the transactions only. It is enough
that LMDB keeps it when it is called with theirs.
-/

namespace Db

open Prog Function

/--
The transaction that a thread goes on with in `open_db`, if it does not begin one.
-/
def Pc.uses : Pc → List Nat
  | .idle | .begin _ _ _ => []
  | .commit _ tt _ _ _ | .renew tt _ _ _ | .publish tt _ _ _ => [tt]

def Action.uses (s : Sys) : Action → List Nat
  | .resume th => (s.pc th).uses
  | .changeTxnDb _ tt _ | .openDb _ tt _ _ | .trashPut _ tt _ _ _ _ | .trashGet _ tt _ | .returnTxn _ tt => [tt]
  | .createCursor _ tt => tt.toList
  | .initThreadLocalReaders _ | .initMetadata _ _ | .beginTxn _ _ _ | .internalBeginTxn _ _ | .returnCursor _ _ => []

def Action.writes (s : Sys) : Action → Bool
  | .initMetadata _ _ => true
  | .beginTxn _ _ rd | .internalBeginTxn _ rd => !rd
  | .resume th => (s.pc th).creating.isSome
  | _ => false

def Free (free : Nat → Prop) (txn : Option Nat) : Prop := ∀ i, txn = some i → free i

/--
The property `P` is kept by what is done to the transactions in `others`, which point to those of LMDB in
`free`. A transaction that is begun is one of them, write transactions are begun only if `writes`.
-/
structure Closed (P : Sys → Prop) (others free : Nat → Prop) (writes : Prop) : Prop where
  congr : ∀ {s s' : Sys}, P s → s'.tts = s.tts → s'.nextTt = s.nextTt → s'.env = s.env → s'.rdrPool = s.rdrPool → P s'
  setTts : ∀ {s tt u n}, P s → others tt → (∀ t : TrashTxn, u = some t → Free free t.txn) → s.nextTt ≤ n →
    P { s with tts := update s.tts tt u, nextTt := n }
  setPool : ∀ {s th} {rdrs : Readers}, P s → (∀ tt ∈ rdrs.txns, others tt) →
    P { s with rdrPool := update s.rdrPool th (some rdrs) }
  fresh : ∀ {s : Sys}, P s → others s.nextTt
  pool : ∀ {s th} {rdrs : Readers}, P s → s.rdrPool th = some rdrs → ∀ tt ∈ rdrs.txns, others tt
  txn : ∀ {s tt t}, P s → others tt → s.tts tt = some t → Free free t.txn
  begin : ∀ {s th rd i e}, P s → (rd = false → writes) → s.env.begin th rd = some (i, e) →
    free i ∧ P { s with env := e }
  renew : ∀ {s i x}, P s → free i → s.env.txns i = some x → ∀ th, P { s with env := (s.env.renew th i x).2 }
  finish : ∀ {s i x}, P s → free i → s.env.txns i = some x → ∀ st, st = .ended ∨ x.state ≠ .ended →
    P { s with env := s.env.finish i x st }
  commit : ∀ {s i x}, P s → free i → s.env.txns i = some x → x.state ≠ .ended →
    P { s with env := (s.env.commit i x).2 }
  setTxn : ∀ {s i x x'}, P s → free i → s.env.txns i = some x → x.state ≠ .ended → x'.role = x.role →
    ∀ n, P { s with env := { s.env.setTxn i x' with nextDbi := n } }

namespace Closed

variable {P : Sys → Prop} {others free : Nat → Prop} {writes : Prop} {s s' : Sys} {t' : TrashTxn}

theorem derefDb (db : Option Nat)
    : Returns P (derefDb db) (fun _ => P) :=
  spec_weaken (derefDb_spec db fun _ _ => trivial) (fun _ => id) fun _ _ => And.left

variable (h : Closed P others free writes) (th tt' : Nat) (txn : Option Nat)

include h

theorem call (c : Call) : Returns P (call c) (fun _ => P) :=
  spec_modify _ fun _ hs => h.congr hs rfl rfl rfl rfl

theorem setTt (hne : others tt') (ht' : Free free t'.txn)
    : Returns P (setTt tt' t') (fun _ => P) := by
  refine spec_modify _ fun s hs => ?_
  refine h.setTts hs hne ?_ (Nat.le_refl _)
  rintro _ ⟨⟩
  exact ht'

theorem setPc (pc : Pc) : Returns P (setPc th pc) (fun _ => P) :=
  spec_modify _ fun _ hs => h.congr hs rfl rfl rfl rfl

theorem derefTt (hne : others tt')
    : Returns P (derefTt tt') (fun t' s => P s ∧ Free free t'.txn) :=
  spec_weaken (derefTt_spec tt' fun _ _ => trivial) (fun _ => id) fun _ _ hs => ⟨hs.1, h.txn hs.1 hne hs.2⟩

theorem derefTxn (htxn : Free free txn)
    : Returns P (derefTxn txn) (fun r s =>
        P s ∧ free r.1 ∧ s.env.txns r.1 = some r.2 ∧ r.2.state ≠ .ended) := by
  refine spec_weaken (derefTxn_spec txn (fun s c hs => h.congr hs rfl rfl rfl rfl) fun _ _ => trivial) (fun _ => id) ?_
  rintro ⟨j, y⟩ s ⟨hs, rfl, hy, hended⟩
  exact ⟨hs, htxn j rfl, hy, hended⟩

theorem mdbTxnBegin {rd : Bool} (hwrites : rd = false → writes)
    : Returns P (mdbTxnBegin th rd) (fun r s => P s ∧ Free free r) := by
  refine returns_iff.mpr fun s txn s' hs hrun => ?_
  obtain ⟨l, ⟨rfl, -, rfl⟩ | ⟨i, e, rfl, hbegin, rfl⟩⟩ := Reaches.mdbTxnBegin_cases th hrun
  . exact ⟨h.congr hs rfl rfl rfl rfl, nofun⟩
  . obtain ⟨hfree, hs'⟩ := h.begin hs hwrites hbegin
    refine ⟨h.congr hs' rfl rfl rfl rfl, ?_⟩
    rintro _ ⟨⟩
    exact hfree

theorem mdbTxnRenew (htxn : Free free txn)
    : Returns P (mdbTxnRenew th txn) (fun _ => P) := by
  refine spec_get fun s hs => ?_
  split
  . exact spec_bind (spec_weaken (h.call _) (by rintro _ rfl; exact hs) fun _ _ => id) fun _ =>
      spec_throw _ fun _ _ => trivial
  . next j y heq =>
    obtain ⟨rfl, hy⟩ := txn_eq_some heq
    refine spec_bind (Q := fun _ s' => s' = { s with log := s.log ++ [.txnRenew (s.env.slots th).isSome] }) ?_
      fun _ => ?_
    . refine spec_modify _ ?_
      rintro _ rfl
      rfl
    . refine spec_bind (Q := fun _ => P) (spec_modify _ ?_) fun _ => spec_pure _ fun _ => id
      rintro _ rfl
      exact h.congr (h.renew hs (htxn j rfl) hy th) rfl rfl rfl rfl

theorem mdbTxnReset (htxn : Free free txn)
    : Returns P (mdbTxnReset txn) (fun _ => P) := by
  refine spec_bind (h.derefTxn txn htxn) fun ⟨j, y⟩ => spec_modify _ ?_
  rintro s ⟨hs, hj, hy, hended⟩
  exact h.finish hs hj hy .reset (.inr hended)

theorem mdbTxnAbort (htxn : Free free txn)
    : Returns P (mdbTxnAbort txn) (fun _ => P) := by
  refine spec_get fun s hs => ?_
  split
  . exact spec_throw _ fun _ _ => trivial
  . next j y heq =>
    obtain ⟨rfl, hy⟩ := txn_eq_some heq
    refine spec_modify _ ?_
    rintro _ rfl
    exact h.finish hs (htxn j rfl) hy .ended (.inl rfl)

theorem mdbTxnCommit (htxn : Free free txn)
    : Returns P (mdbTxnCommit txn) (fun _ => P) := by
  refine spec_bind (h.derefTxn txn htxn) fun ⟨j, y⟩ => spec_get ?_
  rintro s ⟨hs, hj, hy, hended⟩
  refine spec_bind (Q := fun _ => P) (spec_modify _ ?_) fun _ => spec_pure _ fun _ => id
  rintro _ rfl
  exact h.commit hs hj hy hended

theorem mdbGet (htxn : Free free txn) (dbi : Nat) (key : Bytes)
    : Returns P (mdbGet txn dbi key) (fun _ => P) := by
  refine spec_bind (h.derefTxn txn htxn) fun _ => ?_
  exact spec_bind (spec_weaken (h.call _) (fun _ => And.left) fun _ _ => id) fun _ => spec_pure _ fun _ => id

theorem mdbPut (htxn : Free free txn) (dbi : Nat) (key val : Bytes) (flags : BitVec 32) (answer : Lmdb.Answer)
    : Returns P (mdbPut txn dbi key val flags answer) (fun _ => P) := by
  refine spec_bind (h.derefTxn txn htxn) fun ⟨j, y⟩ => ?_
  refine spec_bind (Q := fun _ s => P s ∧ free j ∧ s.env.txns j = some y ∧ y.state ≠ .ended)
    (spec_modify _ fun s hs => ⟨h.congr hs.1 rfl rfl rfl rfl, hs.2⟩) fun _ => ?_
  dsimp only
  refine spec_bind (Q := fun _ => P) (spec_modify _ ?_) fun _ => spec_pure _ fun _ => id
  rintro s ⟨hs, hj, hy, hended⟩
  exact h.setTxn hs hj hy hended (Lmdb.Txn.put_role rfl).1 s.env.nextDbi

theorem mdbDbiOpen (htxn : Free free txn) (name : Bytes) (flags : BitVec 32)
    : Returns P (mdbDbiOpen txn name flags) (fun _ => P) := by
  refine spec_bind (h.derefTxn txn htxn) fun ⟨j, y⟩ => ?_
  refine spec_bind (Q := fun _ s => P s ∧ free j ∧ s.env.txns j = some y ∧ y.state ≠ .ended)
    (spec_modify _ fun s hs => ⟨h.congr hs.1 rfl rfl rfl rfl, hs.2⟩) fun _ => spec_get ?_
  rintro s ⟨hs, hj, hy, hended⟩
  split
  . refine spec_pure _ ?_
    rintro _ rfl
    exact hs
  . next hopen =>
    split
    . refine spec_pure _ ?_
      rintro _ rfl
      exact hs
    . refine spec_bind (Q := fun _ => P) (spec_modify _ ?_) fun _ => spec_pure _ fun _ => id
      rintro _ rfl
      exact h.setTxn hs hj hy hended (Lmdb.Txn.dbiOpen_role hopen) _

theorem mdbCursorOpen (htxn : Free free txn) (dbi : Nat)
    : Returns P (mdbCursorOpen txn dbi) (fun _ => P) := by
  refine spec_bind (h.derefTxn txn htxn) fun ⟨j, y⟩ => ?_
  dsimp only
  split
  . refine spec_get fun s hs => ?_
    refine spec_bind (Q := fun _ => P) (spec_set fun _ _ => ?_) fun _ => spec_pure _ fun _ => id
    exact h.congr hs.1 rfl rfl rfl rfl
  . exact spec_pure _ fun _ => And.left

theorem mdbCursorRenew (htxn : Free free txn) (c : Nat)
    : Returns P (mdbCursorRenew txn c) (fun _ => P) := by
  refine spec_bind (h.derefTxn txn htxn) fun ⟨j, y⟩ => spec_get fun s hs => ?_
  split
  . exact spec_throw _ fun _ _ => trivial
  . split
    . refine spec_bind (Q := fun _ => P) (spec_set fun _ _ => ?_) fun _ => spec_pure _ fun _ => id
      exact h.congr hs.1 rfl rfl rfl rfl
    . refine spec_pure _ ?_
      rintro _ rfl
      exact hs.1

theorem cursorRange (c : Nat) (key : Bytes)
    : Returns P (cursorRange c key) (fun _ => P) := by
  refine spec_get fun s hs => ?_
  split
  . exact spec_throw _ fun _ _ => trivial
  . refine spec_bind (Q := fun _ => P) ?_ fun ⟨j, y⟩ => ?_
    . refine spec_weaken (derefTxn_spec (P := P) _ ?_ fun _ _ => trivial) ?_ fun _ _ => And.left
      . exact fun s c hs => h.congr hs rfl rfl rfl rfl
      . rintro _ rfl
        exact hs
    . dsimp only
      split <;> exact spec_pure _ fun _ hs => hs

theorem internalAddDb (dbname : Bytes) (id : Nat) (flags : BitVec 32)
    : Returns P (internalAddDb dbname id flags) (fun _ => P) := by
  refine spec_get fun s hs => ?_
  refine spec_bind (Q := fun _ => P) (spec_set fun _ _ => ?_) fun _ => spec_pure _ fun _ hs => hs
  exact h.congr hs rfl rfl rfl rfl

theorem internalCreateTrashTxn (htxn : Free free txn) (rd : Bool)
    : Returns P (internalCreateTrashTxn txn rd) (fun r s => P s ∧ others r) := by
  refine spec_get fun s hs => ?_
  have hne := h.fresh hs
  refine spec_bind (Q := fun _ => P) (spec_set fun _ _ => ?_) fun _ => spec_pure _ fun _ hs' => ⟨hs', hne⟩
  refine h.setTts hs hne ?_ (Nat.le_succ _)
  rintro _ ⟨⟩
  exact htxn

theorem internalGetReadTxn
    : Returns P (internalGetReadTxn th) (fun r s => P s ∧ others r) := by
  refine spec_get fun s hs => ?_
  split
  . refine spec_bind (Q := fun r s => P s ∧ Free free r) ?_ fun txn => ?_
    . exact spec_weaken (h.mdbTxnBegin th nofun) (by rintro _ rfl; exact hs) fun _ _ => id
    . exact spec_weaken (A := fun s => P s ∧ Free free txn)
        (spec_assume fun htxn => h.internalCreateTrashTxn txn htxn true) (fun _ => id) fun _ _ => id
  . next rdrs hpool =>
    split
    . exact spec_throw _ fun _ _ => trivial
    . next tt' txns htxns =>
      have hall := h.pool hs hpool
      rw [htxns] at hall
      obtain ⟨hne, hrest⟩ := List.forall_mem_cons.mp hall
      refine spec_bind (Q := fun _ => P) (spec_set fun _ _ => h.setPool hs hrest) fun _ => ?_
      refine spec_bind (h.derefTt tt' hne) fun t' => ?_
      refine spec_bind (Q := fun _ => P) (spec_assume fun ht' => h.mdbTxnRenew th t'.txn ht') fun rc => ?_
      refine spec_bind (Q := fun _ => P) ?_ fun _ => spec_pure _ fun _ hs' => ⟨hs', hne⟩
      exact spec_ensure _ _ (fun _ hs' _ => hs') fun _ _ _ => trivial

theorem internalBeginTxn {rd : Bool} (hwrites : rd = false → writes)
    : Returns P (internalBeginTxn th rd) (fun r s => P s ∧ others r) := by
  cases rd with
  | true => exact h.internalGetReadTxn th
  | false =>
    refine spec_bind (h.mdbTxnBegin th hwrites) fun txn => ?_
    exact spec_assume fun htxn => h.internalCreateTrashTxn txn htxn false

theorem changeTxnDb (hne : others tt') (dbname : Bytes)
    : Returns P (changeTxnDb tt' dbname) (fun _ => P) := by
  refine spec_bind (h.derefTt tt' hne) fun t' => spec_get ?_
  rintro s ⟨hs, ht'⟩
  split
  . refine spec_pure _ ?_
    rintro _ rfl
    exact hs
  . split
    . refine spec_pure _ ?_
      rintro _ rfl
      exact hs
    . refine spec_bind (Q := fun _ => P) (spec_set fun _ _ => h.congr hs rfl rfl rfl rfl) fun _ => ?_
      exact spec_bind (h.setTt tt' hne ht') fun _ => spec_pure _ fun _ => id

theorem beginTxn (dbname : Bytes) {rd : Bool} (hwrites : rd = false → writes)
    : Returns P (beginTxn th dbname rd) (fun r s => P s ∧ others r.2) := by
  refine spec_bind (h.internalBeginTxn th hwrites) fun tt' => spec_bind (Q := fun _ s => P s ∧ others tt') ?_ fun _ => ?_
  . exact spec_modify _ fun s hs => ⟨h.congr hs.1 rfl rfl rfl rfl, hs.2⟩
  . refine spec_assume fun hne => ?_
    exact spec_bind (h.changeTxnDb tt' hne dbname) fun _ => spec_pure _ fun _ hs => ⟨hs, hne⟩

theorem endTxn (hne : others tt')
    : Returns P (endTxn tt') (fun t' s => P s ∧ Free free t'.txn) := by
  refine spec_bind (h.derefTt tt' hne) fun t' => spec_assume fun ht' => ?_
  split
  . refine spec_bind (h.mdbTxnCommit t'.txn ht') fun rc => ?_
    refine spec_bind (Q := fun _ => P) (spec_ensure _ _ (fun _ hs _ => hs) fun _ _ _ => trivial) fun _ => ?_
    exact spec_bind (h.setTt tt' hne ht') fun _ => spec_pure _ fun _ hs => ⟨hs, ht'⟩
  . refine spec_bind (Q := fun _ => P) ?_ fun _ => ?_
    . exact spec_when (fun _ => h.mdbTxnAbort t'.txn ht') fun _ _ => id
    refine spec_bind (Q := fun _ => P) ?_ fun _ => spec_pure _ fun _ hs => ⟨hs, ht'⟩
    exact spec_when (fun _ => h.mdbTxnReset t'.txn ht') fun _ _ => id

theorem returnToPool (hne : others tt') (ht' : Free free t'.txn)
    : Returns P (returnToPool th tt' t') (fun _ => P) := by
  refine spec_get fun s hs => ?_
  split
  . exact spec_throw _ fun _ _ => trivial
  . next rdrs hpool =>
    split
    . refine spec_set fun _ _ => h.setPool hs ?_
      exact List.forall_mem_cons.mpr ⟨hne, h.pool hs hpool⟩
    . exact spec_weaken (h.mdbTxnAbort t'.txn ht') (by rintro _ rfl; exact hs) fun _ _ => id

theorem releaseDb (hne : others tt')
    : Returns P (releaseDb tt' t') (fun _ => P) := by
  refine spec_bind (derefDb t'.db) fun _ => spec_modify _ fun s hs => ?_
  split
  . exact h.congr (h.setTts (u := none) hs hne nofun (Nat.le_refl _)) rfl rfl rfl rfl
  . exact h.congr hs rfl rfl rfl rfl

theorem returnTxn (hne : others tt')
    : Returns P (returnTxn th tt') (fun _ => P) := by
  refine spec_bind (h.endTxn tt' hne) fun t' => spec_assume fun ht' => ?_
  split
  . exact h.setTt tt' hne ht'
  . refine spec_bind (Q := fun _ => P) (spec_modify _ fun s hs => h.congr hs rfl rfl rfl rfl) fun _ => ?_
    refine spec_bind (Q := fun _ => P) ?_ fun _ => h.releaseDb tt' hne
    exact spec_when (fun _ => h.returnToPool th tt' hne ht') fun _ _ => id

theorem trashPut (hne : others tt') (key val : Bytes) (flags : BitVec 32) (answer : Lmdb.Answer)
    : Returns P (trashPut tt' key val flags answer) (fun _ => P) := by
  refine spec_bind (h.derefTt tt' hne) fun t' => spec_assume fun ht' => ?_
  split
  . exact spec_pure _ fun _ => id
  . refine spec_bind (derefDb t'.db) fun db => ?_
    refine spec_bind (h.mdbPut t'.txn ht' _ _ _ _ _) fun rc => ?_
    refine spec_bind (Q := fun _ => P) ?_ fun _ => spec_pure _ fun _ => id
    exact spec_when (fun _ => h.setTt tt' hne ht') fun _ _ => id

theorem trashGet (hne : others tt') (key : Bytes)
    : Returns P (trashGet tt' key) (fun _ => P) := by
  refine spec_bind (h.derefTt tt' hne) fun t' => spec_assume fun ht' => ?_
  exact spec_bind (derefDb t'.db) fun db => h.mdbGet t'.txn ht' _ _

theorem createCursor (tt' : Option Nat) (hall : ∀ tt ∈ tt', others tt)
    : Returns P (createCursor th tt') (fun _ => P) := by
  refine spec_bind (Q := fun r s => P s ∧ others r) ?_ fun tt' => spec_assume fun hne => ?_
  . cases tt' with
    | none => exact h.internalGetReadTxn th
    | some tt' => exact spec_pure _ fun _ hs => ⟨hs, hall tt' rfl⟩
  refine spec_bind (h.derefTt tt' hne) fun t' => ?_
  refine spec_bind (Q := fun _ => P) ?_ fun _ => ?_
  . refine spec_weaken (A := P) ?_ (fun _ => And.left) fun _ _ => id
    refine spec_when (fun _ => ?_) fun _ _ => id
    exact spec_bind (h.changeTxnDb tt' hne metadata) fun _ => spec_pure _ fun _ => id
  refine spec_bind (h.derefTt tt' hne) fun t' => spec_assume fun ht' => spec_get fun s hs => ?_
  split
  . refine spec_bind (Q := fun _ => P) ?_ fun renewed => ?_
    . exact spec_weaken (h.mdbCursorRenew t'.txn ht' _) (by rintro _ rfl; exact hs) fun _ _ => id
    refine spec_bind (Q := fun _ => P) ?_ fun _ => spec_pure _ fun _ => id
    exact spec_ensure _ _ (fun _ hs _ => hs) fun _ _ _ => trivial
  . refine spec_bind (Q := fun _ => P) ?_ fun db => ?_
    . exact spec_weaken (derefDb _) (by rintro _ rfl; exact hs) fun _ _ => id
    refine spec_bind (h.mdbCursorOpen t'.txn ht' _) fun c => ?_
    split
    . exact spec_throw _ fun _ _ => trivial
    . exact spec_pure _ fun _ => id

theorem returnCursor (c : Nat) : Returns P (returnCursor c) (fun _ => P) := by
  refine spec_get fun s hs => ?_
  split
  . exact spec_throw _ fun _ _ => trivial
  . exact spec_set fun _ _ => h.congr hs rfl rfl rfl rfl

theorem createReaders (n : Nat)
    : Returns P (createReaders th n) (fun r s => P s ∧ ∀ tt ∈ r, others tt) := by
  induction n with
  | zero => exact spec_pure _ fun _ hs => ⟨hs, by simp⟩
  | succ n ih =>
    refine spec_bind (h.mdbTxnBegin th nofun) fun txn => spec_assume fun htxn => ?_
    refine spec_bind (Q := fun _ => P) ?_ fun _ => ?_
    . exact spec_ensure _ _ (fun _ hs _ => hs) fun _ _ _ => trivial
    refine spec_bind (h.mdbTxnReset txn htxn) fun _ => ?_
    refine spec_bind (h.internalCreateTrashTxn txn htxn true) fun tt' => spec_assume fun hne => ?_
    refine spec_bind ih fun tts => spec_pure _ fun s hs => ⟨hs.1, ?_⟩
    exact List.forall_mem_append.mpr ⟨hs.2, List.forall_mem_singleton.mpr hne⟩

theorem initThreadLocalReaders
    : Returns P (initThreadLocalReaders th) (fun _ => P) := by
  refine spec_get fun s hs => ?_
  refine spec_weaken (A := P) ?_ (by rintro _ rfl; exact hs) fun _ _ => id
  refine spec_when (fun _ => ?_) fun _ _ => id
  refine spec_bind (h.createCursor th none nofun) fun curr => ?_
  refine spec_bind (h.createReaders th s.capacity) fun txns => spec_modify _ fun s hs => ?_
  exact h.setPool hs.1 hs.2

theorem openRecords (hne : others tt') (after : Bytes → Bytes) (records : Lmdb.Contents)
    : ∀ dbMeta, Returns P (openRecords tt' after dbMeta records) (fun _ => P) := by
  induction records with
  | nil => exact fun _ => spec_pure _ fun _ => id
  | cons r records ih =>
    intro dbMeta
    unfold Db.openRecords
    split
    . split
      . exact spec_throw _ fun _ _ => trivial
      . refine spec_bind (h.derefTt tt' hne) fun t' => spec_assume fun ht' => ?_
        refine spec_bind (h.mdbDbiOpen t'.txn ht' _ _) fun res => ?_
        split
        . exact spec_throw _ fun _ _ => trivial
        . exact spec_bind (h.internalAddDb _ _ _) fun _ => ih _
    . exact spec_pure _ fun _ => id

theorem initMetadata (after : Bytes → Bytes) (hwrites : writes)
    : Returns P (initMetadata th after) (fun _ => P) := by
  refine spec_bind (h.beginTxn th metadata fun _ => hwrites) fun ⟨rc, tt'⟩ => spec_assume fun hne => ?_
  refine spec_when (fun _ => ?_) fun _ _ => id
  refine spec_bind (h.derefTt tt' hne) fun t' => spec_assume fun ht' => ?_
  refine spec_bind (h.mdbDbiOpen t'.txn ht' _ _) fun res => ?_
  split
  . exact spec_throw _ fun _ _ => trivial
  . refine spec_bind (h.internalAddDb _ _ _) fun db => ?_
    refine spec_bind (h.setTt tt' hne ht') fun _ => ?_
    refine spec_bind (putRecord_spec (h.trashPut tt' hne _ _ _)) fun rc => ?_
    refine spec_bind (Q := fun _ => P) (spec_ensure _ _ (fun _ hs _ => hs) fun _ _ _ => trivial) fun _ => ?_
    refine spec_bind (h.createCursor th (some tt') (by simpa using hne)) fun curr => ?_
    refine spec_bind (h.cursorRange _ _) fun records => ?_
    refine spec_bind (h.openRecords tt' hne after records _) fun _ => ?_
    refine spec_bind (h.returnCursor _) fun _ => ?_
    exact h.returnTxn th tt' hne

theorem openDbi (temp : Nat) (hne : others temp) (dbname : Bytes) (flags dbMeta : BitVec 32)
    : Returns P (openDbi th tt' temp dbname flags dbMeta) (fun _ => P) := by
  refine spec_bind (h.derefTt temp hne) fun t' => spec_assume fun ht' => ?_
  refine spec_bind (h.mdbDbiOpen t'.txn ht' _ _) fun res => ?_
  split
  . exact spec_throw _ fun _ _ => trivial
  . split
    . refine spec_bind (putRecord_spec (h.trashPut temp hne _ _ _)) fun rc => ?_
      refine spec_bind (Q := fun _ => P) ?_ fun _ => h.setPc th _
      exact spec_ensure _ _ (fun _ hs _ => hs) fun _ _ _ => trivial
    . exact h.setPc th _

theorem openDb (hne : others tt') (dbname : Bytes) (flags : BitVec 32)
    : Returns P (openDb th tt' dbname flags) (fun _ => P) := by
  refine spec_bind (h.changeTxnDb tt' hne metadata) fun _ => ?_
  refine spec_bind (h.trashGet tt' hne dbname) fun res => ?_
  split
  . split
    . exact spec_throw _ fun _ _ => trivial
    . exact h.openDbi th tt' tt' hne _ _ _
  . refine spec_bind (h.derefTt tt' hne) fun t' => spec_assume fun ht' => ?_
    split
    . refine spec_bind (h.setTt tt' hne ht') fun _ => ?_
      exact spec_bind (h.returnTxn th tt' hne) fun _ => h.setPc th _
    . exact h.openDbi th tt' tt' hne _ _ _
  . exact spec_throw _ fun _ _ => trivial

theorem openDbResume (hs : P s) (huses : ∀ tt ∈ (s.pc th).uses, others tt)
    (hwrites : (s.pc th).creating.isSome → writes)
    : Returns (· = s) (openDbResume th) (fun _ => P) := by
  refine spec_get ?_
  rintro s rfl
  have hstart : ∀ s', s' = s → P s' := by
    rintro _ rfl
    exact hs
  split
  . exact spec_throw _ fun _ _ => trivial
  . next tt' dbname flags hpc =>
    rw [hpc] at hwrites
    refine spec_bind (Q := fun r s => P s ∧ others r.2) ?_ fun ⟨_, temp⟩ => ?_
    . exact spec_weaken (h.beginTxn th metadata fun _ => hwrites rfl) hstart fun _ _ => id
    . exact spec_assume fun hne => h.openDbi th tt' temp hne _ _ _
  . next tt' temp dbname id dbMeta hpc =>
    have hne : others temp := huses temp (by simp [hpc, Pc.uses])
    refine spec_bind (Q := fun _ => P) ?_ fun _ => h.setPc th _
    exact spec_weaken (h.returnTxn th temp hne) hstart fun _ _ hs => hs
  . next tt' dbname id dbMeta hpc =>
    have hne : others tt' := huses tt' (by simp [hpc, Pc.uses])
    refine spec_bind (spec_weaken (h.derefTt tt' hne) hstart fun _ _ hs => hs) fun t' => spec_assume fun ht' => ?_
    exact spec_bind (h.mdbTxnRenew th t'.txn ht') fun _ => h.setPc th _
  . next tt' dbname id dbMeta hpc =>
    have hne : others tt' := huses tt' (by simp [hpc, Pc.uses])
    refine spec_bind (spec_weaken (h.internalAddDb _ _ _) hstart fun _ _ hs => hs) fun db => ?_
    refine spec_bind (h.derefTt tt' hne) fun t' => spec_assume fun ht' => ?_
    exact spec_bind (h.setTt tt' hne ht') fun _ => h.setPc th _

theorem step {a : Action} (hs : P s) (huses : ∀ tt ∈ a.uses s, others tt) (hwrites : a.writes s = true → writes)
    (hstep : s.step a = some s')
    : P s' := by
  obtain ⟨r, hrun⟩ := exec_of_step hstep
  cases a with
  | initThreadLocalReaders th =>
    obtain ⟨-, hrest⟩ := ready_bind_eq_ok.mp hrun
    obtain ⟨_, s₁, hinit, hpure⟩ := bind_eq_ok.mp hrest
    cases hpure
    exact (h.initThreadLocalReaders th).of_run hs hinit
  | initMetadata th after =>
    obtain ⟨-, hrest⟩ := ready_bind_eq_ok.mp hrun
    obtain ⟨_, s₁, hinit, hpure⟩ := bind_eq_ok.mp hrest
    cases hpure
    exact (h.initMetadata th after (hwrites rfl)).of_run hs hinit
  | beginTxn th dbname rd =>
    obtain ⟨-, hrest⟩ := ready_bind_eq_ok.mp hrun
    obtain ⟨_, s₁, hbegin, hpure⟩ := bind_eq_ok.mp hrest
    cases hpure
    exact ((h.beginTxn th dbname fun hrd => hwrites (by simp [Action.writes, hrd])).of_run hs hbegin).1
  | internalBeginTxn th rd =>
    obtain ⟨-, hrest⟩ := ready_bind_eq_ok.mp hrun
    obtain ⟨_, s₁, hbegin, hmodify⟩ := bind_eq_ok.mp hrest
    cases hmodify
    have hs₁ := (h.internalBeginTxn th fun hrd => hwrites (by simp [Action.writes, hrd])).of_run hs hbegin
    exact h.congr hs₁.1 rfl rfl rfl rfl
  | changeTxnDb th tt' dbname =>
    obtain ⟨-, -, hrest⟩ := holds_bind_eq_ok.mp hrun
    obtain ⟨_, s₁, hchange, hpure⟩ := bind_eq_ok.mp hrest
    cases hpure
    exact (h.changeTxnDb tt' (huses tt' List.mem_cons_self) dbname).of_run hs hchange
  | openDb th tt' dbname flags =>
    obtain ⟨-, -, hrest⟩ := holds_bind_eq_ok.mp hrun
    obtain ⟨_, s₁, hopen, hpure⟩ := bind_eq_ok.mp hrest
    cases hpure
    exact (h.openDb th tt' (huses tt' List.mem_cons_self) dbname flags).of_run hs hopen
  | resume th =>
    obtain ⟨_, s₁, hresume, hpure⟩ := bind_eq_ok.mp hrun
    cases hpure
    exact (h.openDbResume th hs huses hwrites).of_run rfl hresume
  | createCursor th tt' =>
    cases tt' with
    | none =>
      obtain ⟨-, hrest⟩ := ready_bind_eq_ok.mp hrun
      obtain ⟨_, s₁, hcreate, hpure⟩ := bind_eq_ok.mp hrest
      cases hpure
      exact (h.createCursor th none nofun).of_run hs hcreate
    | some tt' =>
      obtain ⟨-, -, hrest⟩ := holds_bind_eq_ok.mp hrun
      obtain ⟨_, s₁, hcreate, hpure⟩ := bind_eq_ok.mp hrest
      cases hpure
      exact (h.createCursor th (some tt') (by simpa [Action.uses] using huses)).of_run hs hcreate
  | returnCursor th c =>
    obtain ⟨-, hrest⟩ := ready_bind_eq_ok.mp hrun
    obtain ⟨_, s₁, hreturn, hpure⟩ := bind_eq_ok.mp hrest
    cases hpure
    exact (h.returnCursor c).of_run hs hreturn
  | trashPut th tt' key val flags answer =>
    obtain ⟨-, -, hrest⟩ := holds_bind_eq_ok.mp hrun
    obtain ⟨_, s₁, hput, hpure⟩ := bind_eq_ok.mp hrest
    cases hpure
    exact (h.trashPut tt' (huses tt' List.mem_cons_self) key val flags answer).of_run hs hput
  | trashGet th tt' key =>
    obtain ⟨-, -, hrest⟩ := holds_bind_eq_ok.mp hrun
    obtain ⟨_, s₁, hget, hpure⟩ := bind_eq_ok.mp hrest
    cases hpure
    exact (h.trashGet tt' (huses tt' List.mem_cons_self) key).of_run hs hget
  | returnTxn th tt' =>
    obtain ⟨-, -, hrest⟩ := holds_bind_eq_ok.mp hrun
    obtain ⟨_, s₁, hreturn, hpure⟩ := bind_eq_ok.mp hrest
    cases hpure
    exact (h.returnTxn th tt' (huses tt' List.mem_cons_self)).of_run hs hreturn

end Closed

end Db
