import TrashDb.Lib.Lts
import TrashDb.Db.Lemmas.Alike
import TrashDb.Db.Lemmas.Frame
import TrashDb.Db.Lemmas.Readers

/-!
This module contains the life cycle of the cursors of a thread. `create_cursor` hands out the cursor of the
pool for a read transaction on the metadata and a new one otherwise, `return_cursor` closes either.
-/

namespace Db

open Prog Function

/--
The part of `create_cursor` up to its last branch, with the cursor that is going to be renewed.
-/
def cursorBranch (th : Nat) (tt : Option Nat) : M (TrashTxn × Option Nat) := do
  let tt ← cursorTxn th tt
  let t ← derefTt tt
  when t.db.isNone do
    let _ ← changeTxnDb tt metadata
  let t ← derefTt tt
  let s ← get
  match s.rdrPool th, t.rd && dbMatch (t.db.bind (s.dbs[·]?)) metadata with
  | some rdrs, true => pure (t, some rdrs.iCurr)
  | _, _ => pure (t, none)

def cursorOf (t : TrashTxn) : Option Nat → M Nat
  | some c => do
    let renewed ← mdbCursorRenew t.txn c
    ensure renewed (.assertFailed .cursorRenew)
    pure c
  | none => do
    let db ← derefDb t.db
    match ← mdbCursorOpen t.txn db.id with
    | none => throw (.assertFailed .cursorOpen)
    | some c => pure c

theorem createCursor_eq (th : Nat) (tt : Option Nat)
    : createCursor th tt = cursorBranch th tt >>= fun r => cursorOf r.1 r.2 := by
  simp only [createCursor, cursorBranch, bind_assoc]
  refine bind_congr fun tt => bind_congr fun t => bind_congr fun _ => bind_congr fun t => bind_congr fun s => ?_
  cases s.rdrPool th with
  | none => rfl
  | some rdrs => cases t.rd && dbMatch (t.db.bind (s.dbs[·]?)) metadata <;> rfl

structure SameCursors (s s' : Sys) : Prop where
  cursors : s'.cursors = s.cursors
  nextCursor : s'.nextCursor = s.nextCursor
  iCurr : ∀ th, (s'.rdrPool th).map Readers.iCurr = (s.rdrPool th).map Readers.iCurr

namespace SameCursors

instance : OpenFrame SameCursors where
  refl _ := ⟨rfl, rfl, fun _ => rfl⟩
  trans _ _ _ h h' :=
    ⟨h'.cursors.trans h.cursors, h'.nextCursor.trans h.nextCursor, fun th => (h'.iCurr th).trans (h.iCurr th)⟩
  env _ _ := ⟨rfl, rfl, fun _ => rfl⟩
  log _ _ _ := ⟨rfl, rfl, fun _ => rfl⟩
  tts _ _ _ := ⟨rfl, rfl, fun _ => rfl⟩
  out _ _ := ⟨rfl, rfl, fun _ => rfl⟩
  count _ _ _ _ := ⟨rfl, rfl, fun _ => rfl⟩
  pool s txns th rdrs hpool := by
    refine ⟨rfl, rfl, fun th' => ?_⟩
    dsimp only
    by_cases hth : th' = th
    . rw [hth, update_self, hpool]
      rfl
    . rw [update_of_ne hth]
  pc _ _ := ⟨rfl, rfl, fun _ => rfl⟩
  add _ _ _ _ := ⟨rfl, rfl, fun _ => rfl⟩

instance : KeyFrame SameCursors where
  key _ _ := ⟨rfl, rfl, fun _ => rfl⟩

theorem cursorBranch (th : Nat) (tt : Option Nat) : Extends SameCursors (cursorBranch th tt) := by
  refine extends_bind ?_ fun tt => ?_
  . cases tt with
    | none => exact TxnFrame.internalGetReadTxn th
    | some tt => apply extends_pure
  refine extends_bind (LmdbFrame.derefTt tt) fun t => ?_
  refine extends_bind (extends_when _ ?_) fun _ => ?_
  . exact extends_bind (TxnFrame.changeTxnDb tt metadata) fun _ => extends_pure _
  refine extends_bind (LmdbFrame.derefTt tt) fun t => ?_
  refine extends_bind extends_get fun s => ?_
  split <;> apply extends_pure

end SameCursors

def Sys.cached (s : Sys) (th tt : Nat) : Bool :=
  (s.rdrPool th).isSome &&
    (s.tts tt).any fun t => t.rd && (t.db.isNone || dbMatch (t.db.bind (s.dbs[·]?)) metadata)

section

variable {s s' : Sys} {th : Nat} {t : TrashTxn}

theorem pool_of_cursorBranch {tt : Option Nat} {c : Nat} (hrun : (cursorBranch th tt).run s = .ok (t, some c) s')
    : ∃ rdrs, s.rdrPool th = some rdrs ∧ rdrs.iCurr = c := by
  have hsame := ((SameCursors.cursorBranch th tt).of_run hrun).iCurr th
  obtain ⟨tt, s₁, -, hrest⟩ := bind_eq_ok.mp hrun
  obtain ⟨t₀, s₂, -, hrest⟩ := bind_eq_ok.mp hrest
  obtain ⟨_, s₃, -, hrest⟩ := bind_eq_ok.mp hrest
  obtain ⟨t₁, s₄, -, hrest⟩ := bind_eq_ok.mp hrest
  rw [bind_of_ok (EStateM.run_get _)] at hrest
  split at hrest
  . next rdrs hpool _ =>
    cases hrest
    rw [hpool] at hsame
    exact Option.map_eq_some_iff.mp hsame.symm
  . cases hrest

theorem cached_of_cursorBranch {tt c : Nat} (hrun : (cursorBranch th (some tt)).run s = .ok (t, some c) s')
    : s.cached th tt = true := by
  obtain ⟨rdrs, hpool, -⟩ := pool_of_cursorBranch hrun
  rw [cursorBranch, cursorTxn, bind_of_ok (EStateM.run_pure _ _)] at hrun
  obtain ⟨t₀, s₂, hderef, hrest⟩ := bind_eq_ok.mp hrun
  obtain ⟨_, s₃, hchange, htail⟩ := bind_eq_ok.mp hrest
  obtain ⟨t₁, s₄, hderef', hbranch⟩ := bind_eq_ok.mp htail
  obtain ⟨ht₀, rfl⟩ := derefTt_eq_ok.mp hderef
  obtain ⟨ht₁, rfl⟩ := derefTt_eq_ok.mp hderef'
  rw [bind_of_ok (EStateM.run_get _)] at hbranch
  split at hbranch
  . next hmatch =>
    cases hbranch
    obtain ⟨hrd, hdb⟩ := Bool.and_eq_true_iff.mp hmatch
    cases hnone : t₀.db with
    | none =>
      have halike : Extends Alike (when t₀.db.isNone do let _ ← changeTxnDb tt metadata) :=
        extends_when _ (extends_bind (Alike.changeTxnDb tt metadata) fun _ => extends_pure _)
      obtain ⟨t', ht', hcore⟩ := (halike.of_run hchange).tt_of_some ht₁
      cases ht₀.symm.trans ht'
      have hrd₀ : t₀.rd = t.rd := congrArg (fun c => c.2.1) hcore
      simp [Sys.cached, hpool, ht₀, hrd₀, hrd, hnone]
    | some d =>
      rw [hnone] at hchange
      cases hchange
      cases ht₀.symm.trans ht₁
      simp [Sys.cached, hpool, ht₀, hrd, hdb]
  . cases hbranch

theorem cursorOf_renewed {c c' : Nat} (hrun : (cursorOf t (some c)).run s = .ok c' s')
    : c' = c ∧ ∃ s₁ curr, SameCursors s s₁ ∧ s' = { s₁ with cursors := update s₁.cursors c (some curr) } := by
  obtain ⟨renewed, s₁, hrenew, hrest⟩ := bind_eq_ok.mp hrun
  obtain ⟨_, s₂, hensure, hpure⟩ := bind_eq_ok.mp hrest
  obtain ⟨hrenewed, rfl⟩ := ensure_eq_ok.mp hensure
  cases hpure
  refine ⟨rfl, ?_⟩
  obtain ⟨⟨i, x⟩, s₁, hderef, hset⟩ := bind_eq_ok.mp hrenew
  have hsame : SameCursors s s₁ := (LmdbFrame.derefTxn _).of_run hderef
  rw [bind_of_ok (EStateM.run_get _)] at hset
  split at hset
  . cases hset
  . split at hset
    . cases hset
      exact ⟨s₁, _, hsame, rfl⟩
    . cases hset
      cases hrenewed

theorem cursorOf_opened {c : Nat} (hrun : (cursorOf t none).run s = .ok c s')
    : ∃ s₁ curr, SameCursors s s₁ ∧ c = s₁.nextCursor ∧
        s' = { s₁ with cursors := update s₁.cursors c (some curr), nextCursor := c + 1 } := by
  obtain ⟨db, s₁, hderef, hrest⟩ := bind_eq_ok.mp hrun
  obtain ⟨c?, s₂, hopen, hpure⟩ := bind_eq_ok.mp hrest
  have hsame : SameCursors s s₁ := (LmdbFrame.derefDb _).of_run hderef
  cases c? with
  | none => cases hpure
  | some c' =>
    cases hpure
    obtain ⟨⟨i, x⟩, s₃, hderef', hset⟩ := bind_eq_ok.mp hopen
    have hsame' : SameCursors s₁ s₃ := (LmdbFrame.derefTxn _).of_run hderef'
    dsimp only at hset
    split at hset
    . cases hset
      exact ⟨s₃, _, IsTrans.trans _ _ _ hsame hsame', rfl, rfl⟩
    . cases hset

end

/--
A thread that calls `create_cursor` and `return_cursor`, with other calls between.
-/
inductive CursorCall where
  | create (tt : Option Nat)
  | close (c : Nat)
  | other (a : Action)

/--
The field `held` are the cursors that were created and not returned yet, one for each call. The field `lent`
says that the cursor of the pool was handed out before.
-/
structure CursorUse where
  sys : Sys
  held : List Nat
  lent : Bool

def Action.keepsCursors (s : Sys) : Action → Bool
  | .beginTxn _ _ _ | .internalBeginTxn _ _ | .changeTxnDb _ _ _ | .openDb _ _ _ _ | .resume _ | .trashPut _ _ _ _ _ _
  | .trashGet _ _ _ => true
  | .returnTxn _ tt => (s.tts tt).any TrashTxn.rd
  | _ => false

def CursorUse.step (th : Nat) (σ : CursorUse) : CursorCall → Option CursorUse
  | .create tt =>
    match (exec (.createCursor th tt)).run σ.sys with
    | .ok (.cursor c) s => some ⟨s, c :: σ.held, σ.lent || (s.rdrPool th).any fun rdrs => rdrs.iCurr == c⟩
    | _ => none
  | .close c =>
    if c ∈ σ.held then
      (σ.sys.step (.returnCursor th c)).map fun s => { σ with sys := s, held := σ.held.erase c }
    else
      none
  | .other a =>
    if a.keepsCursors σ.sys then
      (σ.sys.step a).map fun s => { σ with sys := s }
    else
      none

def Sys.numTxns (s : Sys) (th : Nat) : Nat := ((s.rdrPool th).map fun rdrs => rdrs.txns.length).getD 0

structure CursorUse.Sound (σ : CursorUse) : Prop where
  single : σ.held.Nodup
  live : ∀ c ∈ σ.held, (σ.sys.cursors c).isSome = true

/--
A call of `create_cursor` renews no cursor that was closed. Together with the call of `return_cursor` for it a
call without a transaction leaves the number of transactions in the pool as it is.
-/
def CursorUse.Proper (th : Nat) (σ : CursorUse) : CursorCall → Prop
  | .create tt =>
    (∀ t c s, (cursorBranch th tt).run σ.sys = .ok (t, some c) s → (s.cursors c).isSome = true) ∧
    (tt = none → ∀ σ₁ cs σ₂ c σ₃, σ.step th (.create none) = some σ₁ → Lts.run (CursorUse.step th) σ₁ cs = some σ₂ →
      σ₁.held.head? = some c → σ₂.step th (.close c) = some σ₃ →
      σ.sys.numTxns th + σ₂.sys.numTxns th = σ₁.sys.numTxns th + σ₃.sys.numTxns th)
  | _ => True

/--
The pool gives no transaction away, and its cursor once.
-/
def CursorUse.Allowed (th : Nat) (σ : CursorUse) : CursorCall → Prop
  | .create none => σ.sys.rdrPool th = none
  | .create (some tt) => σ.sys.cached th tt = true → σ.lent = false
  | _ => True

instance CursorUse.decidableAllowed (th : Nat) (σ : CursorUse) : (a : CursorCall) → Decidable (σ.Allowed th a)
  | .create none => inferInstanceAs (Decidable (σ.sys.rdrPool th = none))
  | .create (some tt) => inferInstanceAs (Decidable (σ.sys.cached th tt = true → σ.lent = false))
  | .close _ => isTrue trivial
  | .other _ => isTrue trivial

/--
A thread before its first cursor: those that LMDB opens are new, and the one of the pool is open.
-/
structure Sys.CursorsReady (s : Sys) (th : Nat) : Prop where
  new : ∀ c, s.nextCursor ≤ c → s.cursors c = none
  cached : ∀ rdrs, s.rdrPool th = some rdrs → (s.cursors rdrs.iCurr).isSome = true

/--
The invariant: the cursor of the pool is open and not held until it is handed out.
-/
structure CursorUse.Inv (th : Nat) (σ : CursorUse) : Prop extends σ.Sound where
  new : ∀ c, σ.sys.nextCursor ≤ c → σ.sys.cursors c = none
  cached : σ.lent = false → ∀ c, (σ.sys.rdrPool th).map Readers.iCurr = some c →
    (σ.sys.cursors c).isSome = true ∧ c ∉ σ.held

namespace CursorUse.Inv

variable {th : Nat} {s s' : Sys} {held : List Nat} {lent : Bool}

theorem same (h : Inv th ⟨s, held, lent⟩) (hs : SameCursors s s') : Inv th ⟨s', held, lent⟩ := by
  refine ⟨⟨h.single, ?_⟩, ?_, ?_⟩
  . rw [hs.cursors]
    exact h.live
  . rw [hs.cursors, hs.nextCursor]
    exact h.new
  . rw [hs.cursors, hs.iCurr]
    exact h.cached

theorem renewed {c : Nat} {curr : Cursor} (h : Inv th ⟨s, held, lent⟩)
    (hc : (s.rdrPool th).map Readers.iCurr = some c)
    (hlent : lent = false)
    : Inv th ⟨{ s with cursors := update s.cursors c (some curr) }, c :: held, true⟩ := by
  obtain ⟨hopen, hheld⟩ := h.cached hlent c hc
  refine ⟨⟨List.nodup_cons.mpr ⟨hheld, h.single⟩, ?_⟩, ?_, nofun⟩
  . intro c' hc'
    dsimp only
    by_cases heq : c' = c
    . rw [heq, update_self]
      rfl
    . rw [update_of_ne heq]
      exact h.live c' ((List.mem_cons.mp hc').resolve_left heq)
  . intro c' hc'
    have hnone := h.new c' hc'
    dsimp only
    rw [update_of_ne]
    . exact hnone
    . rintro rfl
      rw [hnone] at hopen
      cases hopen

theorem opened {curr : Cursor} (h : Inv th ⟨s, held, lent⟩)
    : Inv th ⟨{ s with cursors := update s.cursors s.nextCursor (some curr), nextCursor := s.nextCursor + 1 },
        s.nextCursor :: held, lent⟩ := by
  have hne : ∀ c, (s.cursors c).isSome = true → c ≠ s.nextCursor := by
    rintro c hc rfl
    rw [h.new _ (Nat.le_refl _)] at hc
    cases hc
  refine ⟨⟨List.nodup_cons.mpr ⟨fun hmem => hne _ (h.live _ hmem) rfl, h.single⟩, ?_⟩, ?_, ?_⟩
  . intro c hc
    dsimp only
    by_cases heq : c = s.nextCursor
    . rw [heq, update_self]
      rfl
    . rw [update_of_ne heq]
      exact h.live c ((List.mem_cons.mp hc).resolve_left heq)
  . intro c hc
    dsimp only
    rw [update_of_ne (Nat.ne_of_gt hc)]
    exact h.new c (Nat.le_of_succ_le hc)
  . intro hlent c hc
    obtain ⟨hopen, hheld⟩ := h.cached hlent c hc
    dsimp only
    rw [update_of_ne (hne c hopen)]
    exact ⟨hopen, List.not_mem_cons_of_ne_of_not_mem (hne c hopen) hheld⟩

theorem closed {c : Nat} (h : Inv th ⟨s, held, lent⟩) (hc : c ∈ held)
    : Inv th ⟨{ s with cursors := update s.cursors c none }, held.erase c, lent⟩ := by
  refine ⟨⟨h.single.erase c, ?_⟩, ?_, ?_⟩
  . intro c' hc'
    obtain ⟨hne, hmem⟩ := h.single.mem_erase_iff.mp hc'
    dsimp only
    rw [update_of_ne hne]
    exact h.live c' hmem
  . intro c' hc'
    dsimp only
    rw [update_apply]
    split
    . rfl
    . exact h.new c' hc'
  . intro hlent c' hc'
    obtain ⟨hopen, hheld⟩ := h.cached hlent c' hc'
    have hne : c' ≠ c := by
      rintro rfl
      exact hheld hc
    dsimp only
    rw [update_of_ne hne]
    exact ⟨hopen, fun hmem => hheld (List.mem_of_mem_erase hmem)⟩

theorem iCurr_of_cursorBranch {t : TrashTxn} {tt : Option Nat} {c : Nat}
    (ha : Allowed th ⟨s, held, lent⟩ (.create tt)) (hrun : (cursorBranch th tt).run s = .ok (t, some c) s')
    : (s'.rdrPool th).map Readers.iCurr = some c ∧ lent = false := by
  have hsame := ((SameCursors.cursorBranch th tt).of_run hrun).iCurr th
  obtain ⟨rdrs, hpool, rfl⟩ := pool_of_cursorBranch hrun
  rw [hsame, hpool]
  refine ⟨rfl, ?_⟩
  cases tt with
  | none => cases hpool.symm.trans ha
  | some tt => exact ha (cached_of_cursorBranch hrun)

theorem createCursor {tt : Option Nat} {c : Nat} (h : Inv th ⟨s, held, lent⟩)
    (ha : Allowed th ⟨s, held, lent⟩ (.create tt)) (hrun : (createCursor th tt).run s = .ok c s')
    : Inv th ⟨s', c :: held, lent || (s'.rdrPool th).any fun rdrs => rdrs.iCurr == c⟩ := by
  rw [createCursor_eq] at hrun
  obtain ⟨⟨t, c?⟩, s₁, hbranch, hcursor⟩ := bind_eq_ok.mp hrun
  have h₁ := h.same ((SameCursors.cursorBranch th tt).of_run hbranch)
  cases c? with
  | some c' =>
    obtain ⟨hc, hlent⟩ := iCurr_of_cursorBranch ha hbranch
    obtain ⟨rfl, s₂, curr, hsame, rfl⟩ := cursorOf_renewed hcursor
    rw [← hsame.iCurr] at hc
    have hany : ((s₂.rdrPool th).any fun rdrs => rdrs.iCurr == c) = true := by
      obtain ⟨rdrs, hpool, hiCurr⟩ := Option.map_eq_some_iff.mp hc
      simp [hpool, hiCurr]
    dsimp only
    rw [hany, Bool.or_true]
    exact (h₁.same hsame).renewed hc hlent
  | none =>
    obtain ⟨s₂, curr, hsame, rfl, rfl⟩ := cursorOf_opened hcursor
    have h₂ := h₁.same hsame
    cases hlent : lent with
    | true =>
      rw [hlent] at h₂
      exact h₂.opened
    | false =>
      -- the cursor of the pool is an old one
      have hany : ((s₂.rdrPool th).any fun rdrs => rdrs.iCurr == s₂.nextCursor) = false := by
        rw [Option.any_eq_false]
        intro rdrs hpool
        rw [beq_eq_false_iff_ne]
        intro heq
        obtain ⟨hopen, -⟩ := h₂.cached hlent rdrs.iCurr (by rw [hpool]; rfl)
        rw [heq, h₂.new _ (Nat.le_refl _)] at hopen
        cases hopen
      dsimp only
      rw [hany]
      rw [hlent] at h₂
      exact h₂.opened

end CursorUse.Inv

theorem createCursor_of_step {th : Nat} {σ σ' : CursorUse} {tt : Option Nat}
    (hstep : σ.step th (.create tt) = some σ')
    : ∃ c s, (createCursor th tt).run σ.sys = .ok c s ∧
        σ' = ⟨s, c :: σ.held, σ.lent || (s.rdrPool th).any fun rdrs => rdrs.iCurr == c⟩ := by
  unfold CursorUse.step at hstep
  dsimp only at hstep
  split at hstep
  . next c s hrun =>
    cases hstep
    refine ⟨c, s, ?_, rfl⟩
    cases tt with
    | none =>
      obtain ⟨-, hrest⟩ := ready_bind_eq_ok.mp hrun
      obtain ⟨c', s₁, hcreate, hpure⟩ := bind_eq_ok.mp hrest
      cases hpure
      exact hcreate
    | some tt =>
      obtain ⟨-, -, hrest⟩ := holds_bind_eq_ok.mp hrun
      obtain ⟨c', s₁, hcreate, hpure⟩ := bind_eq_ok.mp hrest
      cases hpure
      exact hcreate
  . cases hstep

theorem returnCursor_of_step {th c : Nat} {s s' : Sys} (hstep : s.step (.returnCursor th c) = some s')
    : s' = { s with cursors := update s.cursors c none } := by
  obtain ⟨r, hrun⟩ := exec_of_step hstep
  obtain ⟨-, hrest⟩ := ready_bind_eq_ok.mp hrun
  obtain ⟨_, s₁, hreturn, hpure⟩ := bind_eq_ok.mp hrest
  cases hpure
  rw [returnCursor, bind_of_ok (EStateM.run_get _)] at hreturn
  split at hreturn
  . cases hreturn
  . cases hreturn
    rfl

theorem sameCursors_of_step {s s' : Sys} {a : Action} (ha : a.keepsCursors s = true) (hstep : s.step a = some s')
    : SameCursors s s' := by
  obtain ⟨r, hrun⟩ := exec_of_step hstep
  have hkind : a.inits = false ∧ a.isCursor = false := by
    cases a <;> first | exact ⟨rfl, rfl⟩ | cases ha
  exact (OpenFrame.exec hkind.1 hkind.2).of_run hrun

namespace CursorUse

variable {th : Nat} {σ σ' : CursorUse}

theorem close_of_step {c : Nat} (hstep : σ.step th (.close c) = some σ')
    : c ∈ σ.held ∧ σ' = { σ with
        sys := { σ.sys with cursors := update σ.sys.cursors c none }, held := σ.held.erase c } := by
  unfold CursorUse.step at hstep
  dsimp only at hstep
  split at hstep
  . next hheld =>
    obtain ⟨s, hreturn, rfl⟩ := Option.map_eq_some_iff.mp hstep
    rw [returnCursor_of_step hreturn]
    exact ⟨hheld, rfl⟩
  . cases hstep

theorem Inv.step {a : CursorCall} (h : Inv th σ) (ha : σ.Allowed th a) (hstep : σ.step th a = some σ')
    : Inv th σ' := by
  cases a with
  | create tt =>
    obtain ⟨c, s, hcreate, rfl⟩ := createCursor_of_step hstep
    exact h.createCursor ha hcreate
  | close c =>
    obtain ⟨hheld, rfl⟩ := close_of_step hstep
    exact h.closed hheld
  | other a =>
    unfold CursorUse.step at hstep
    dsimp only at hstep
    split at hstep
    . next hkeeps =>
      obtain ⟨s, hs, rfl⟩ := Option.map_eq_some_iff.mp hstep
      exact h.same (sameCursors_of_step hkeeps hs)
    . cases hstep

theorem Inv.proper (h : Inv th σ) {a : CursorCall} (ha : σ.Allowed th a) : σ.Proper th a := by
  cases a with
  | create tt =>
    constructor
    . intro t c s hbranch
      obtain ⟨hc, hlent⟩ := iCurr_of_cursorBranch ha hbranch
      exact ((h.same ((SameCursors.cursorBranch th tt).of_run hbranch)).cached hlent c hc).1
    . -- without a pool nothing is taken from it
      rintro rfl σ₁ cs σ₂ c σ₃ hcreate - - hclose
      obtain ⟨-, rfl⟩ := close_of_step hclose
      obtain ⟨c', s, hrun, rfl⟩ := createCursor_of_step hcreate
      have hpool : s.rdrPool th = none := ((TxnFrame.createCursor (R := Framed) th none).of_run hrun).pools th ha
      have hnum : σ.sys.numTxns th = s.numTxns th := by
        rw [Sys.numTxns, Sys.numTxns, hpool, show σ.sys.rdrPool th = none from ha]
      rw [hnum]
      rfl
  | close c => trivial
  | other a => trivial

theorem cursors_of_run {s : Sys} {cs : List CursorCall} (h : s.CursorsReady th)
    (hcs : Lts.Along (CursorUse.step th) (CursorUse.Allowed th) ⟨s, [], false⟩ cs)
    (hrun : Lts.run (CursorUse.step th) ⟨s, [], false⟩ cs = some σ)
    : σ.Sound ∧ ∀ a, σ.Allowed th a → σ.Proper th a := by
  have hinit : Inv th ⟨s, [], false⟩ := by
    refine ⟨⟨List.nodup_nil, nofun⟩, h.new, fun _ c hc => ?_⟩
    obtain ⟨rdrs, hpool, rfl⟩ := Option.map_eq_some_iff.mp hc
    exact ⟨h.cached rdrs hpool, List.not_mem_nil⟩
  have hinv := Lts.invariant_along (fun _ _ _ => Inv.step) hinit hcs hrun
  exact ⟨hinv.toSound, fun _ => hinv.proper⟩

end CursorUse

def openedReaders : Sys := { twoReaders with cursors := update (fun _ => none) 0 (some ⟨0, 0⟩), nextCursor := 1 }

theorem openedReaders_ready : openedReaders.CursorsReady 0 := by
  constructor
  . intro c hc
    have hne : c ≠ 0 := Nat.ne_of_gt hc
    exact update_of_ne hne (some (⟨0, 0⟩ : Cursor)) fun _ => none
  . rintro rdrs ⟨⟩
    rfl

def cursorOnce : List CursorCall := [.other (.beginTxn 0 metadata true), .create (some 0), .close 0]

theorem cursors_returned
    : openedReaders.CursorsReady 0 ∧ ∃ σ, Lts.run (CursorUse.step 0) ⟨openedReaders, [], false⟩ cursorOnce = some σ ∧
        σ.Sound ∧ ∀ a, σ.Allowed 0 a → σ.Proper 0 a := by
  have hsome : (Lts.run (CursorUse.step 0) ⟨openedReaders, [], false⟩ cursorOnce).isSome = true := by decide +kernel
  obtain ⟨σ, hrun⟩ := Option.isSome_iff_exists.mp hsome
  exact ⟨openedReaders_ready, σ, hrun, CursorUse.cursors_of_run openedReaders_ready (by decide +kernel) hrun⟩

/--
The next call renews the cursor that was closed.
-/
theorem not_cursors_renewed
    : ¬∀ th s cs σ, s.CursorsReady th → Lts.run (CursorUse.step th) ⟨s, [], false⟩ cs = some σ →
        σ.Sound ∧ ∀ a, σ.Proper th a := by
  intro h
  have hclosed : ∃ σ ∈ Lts.run (CursorUse.step 0) ⟨openedReaders, [], false⟩ cursorOnce,
      ∃ t c s, (cursorBranch 0 (some 0)).run σ.sys = .ok (t, some c) s ∧ (s.cursors c).isSome = false :=
    ⟨_, rfl, _, _, _, rfl, rfl⟩
  obtain ⟨σ, hrun, t, c, s, hbranch, hnone⟩ := hclosed
  have hproper := (h 0 openedReaders cursorOnce σ openedReaders_ready hrun).2 (.create (some 0))
  rw [hproper.1 t c s hbranch] at hnone
  cases hnone

end Db
