import TrashDb.Db.Lmdb

/-!
This module contains what the calls of LMDB do to the transactions and to the handles of an environment.
-/

namespace Lmdb

open Db Function

theorem Txn.usable_iff {x : Txn} : x.usable = true ↔ x.state = .active ∧ x.failed = false := by
  simp [Txn.usable]

namespace Env

variable {e e' : Env} {i : Nat} {x : Txn}

/--
The handle is public, or the transaction that has opened it is active.
-/
def Open (e : Env) (h : Dbi) : Prop :=
  h ∈ e.dbis ∨ ∃ i x, e.txns i = some x ∧ x.state = .active ∧ h ∈ x.opened

structure WellFormed (e : Env) : Prop where
  fresh : ∀ i, e.nextTxn ≤ i → e.txns i = none
  dbis : ∀ i x, e.txns i = some x → x.dbis ⊆ e.dbis

def Keeps (e e' : Env) : Prop := e.WellFormed → e'.WellFormed ∧ ∀ h, e.Open h → e'.Open h

structure Begins (e : Env) (i : Nat) (e' : Env) : Prop where
  dbis : e'.dbis = e.dbis
  txns : ∃ x, e'.txns = update e.txns i (some x) ∧ x.dbis = e.dbis ∧ x.opened = []
  old : ∀ x, e.txns i = some x → x.state ≠ .active
  next : e.nextTxn ≤ e'.nextTxn ∧ i < e'.nextTxn

theorem Keeps.refl (e : Env) : Keeps e e := fun h => ⟨h, fun _ => id⟩

theorem Keeps.trans {e'' : Env} (h : Keeps e e') (h' : Keeps e' e'') : Keeps e e'' := by
  intro hwf
  obtain ⟨hwf', hopen⟩ := h hwf
  obtain ⟨hwf'', hopen'⟩ := h' hwf'
  exact ⟨hwf'', fun d hd => hopen' d (hopen d hd)⟩

theorem Begins.keeps (h : Begins e i e') : Keeps e e' := by
  obtain ⟨x, htxns, hdbis, _⟩ := h.txns
  intro hwf
  refine ⟨⟨?_, ?_⟩, ?_⟩
  . intro j hj
    have := h.next
    rw [htxns, update_of_ne (by omega)]
    exact hwf.fresh j (by omega)
  . intro j y hy
    rw [htxns, update_apply] at hy
    split at hy
    . cases hy
      rw [hdbis, h.dbis]
      exact List.Subset.refl _
    . rw [h.dbis]
      exact hwf.dbis j y hy
  . rintro d (hd | ⟨j, y, hy, hactive, hd⟩)
    . exact .inl (h.dbis ▸ hd)
    . -- the transaction that has opened the handle is another one
      have hne : j ≠ i := by
        rintro rfl
        exact h.old y hy hactive
      exact .inr ⟨j, y, by rw [htxns, update_of_ne hne, hy], hactive, hd⟩

/--
No active transaction has a private handle of the database.
-/
def Settled (e : Env) (name : Bytes) : Prop :=
  ∀ i x, e.txns i = some x → x.state = .active → ∀ h ∈ x.opened, h.name ≠ name

theorem Begins.opened (h : Begins e i e') (hx : e'.txns i = some x) : x.opened = [] := by
  obtain ⟨y, htxns, _, hopened⟩ := h.txns
  rw [htxns, update_self] at hx
  cases hx
  exact hopened

theorem Begins.known {name : Bytes} {d : Dbi} (h : Begins e i e') (hsettled : e.Settled name)
    (hx : e'.txns i = some x) (hopen : e'.Open d) (hname : d.name = name)
    : d ∈ x.known := by
  obtain ⟨y, htxns, hdbis, hopened⟩ := h.txns
  rcases hopen with hpublic | ⟨j, z, hz, hactive, hprivate⟩
  . rw [htxns, update_self] at hx
    cases hx
    apply List.mem_append_left
    rw [hdbis, ← h.dbis]
    exact hpublic
  . rw [htxns, update_apply] at hz
    split at hz
    . cases hz
      rw [hopened] at hprivate
      cases hprivate
    . exact absurd hname (hsettled j z hz hactive d hprivate)

theorem beginRead_begins {th : Nat} (hwf : e.WellFormed) (h : e.beginRead th = some (i, e'))
    : Begins e i e' := by
  unfold beginRead at h
  split at h
  . cases h
  . cases h
    refine ⟨rfl, ⟨_, rfl, rfl, rfl⟩, ?_, Nat.le_succ _, Nat.lt_succ_self _⟩
    intro x hx
    rw [hwf.fresh e.nextTxn (Nat.le_refl _)] at hx
    cases hx

theorem beginWrite_begins {th : Nat} (hwf : e.WellFormed) (h : e.beginWrite th = some (i, e'))
    : Begins e i e' := by
  unfold beginWrite at h
  split at h
  . cases h
  . cases h
    refine ⟨rfl, ⟨_, rfl, rfl, rfl⟩, ?_, Nat.le_succ _, Nat.lt_succ_self _⟩
    intro x hx
    rw [hwf.fresh e.nextTxn (Nat.le_refl _)] at hx
    cases hx

theorem beginRead_of_none {th : Nat} (h : e.slots th = none)
    : ∃ e', e.beginRead th = some (e.nextTxn, e') ∧ e'.nextTxn = e.nextTxn + 1 ∧ e'.dbis = e.dbis ∧
        e'.slots th = some e.nextTxn ∧ e'.txns e.nextTxn = some (e.newTxn th true) := by
  unfold beginRead
  rw [h]
  exact ⟨_, rfl, rfl, rfl, update_self _ _ _, update_self _ _ _⟩

theorem beginWrite_eq_some {th : Nat} (h : e.beginWrite th = some (i, e'))
    : i = e.nextTxn ∧ e'.nextTxn = e.nextTxn + 1 ∧ e'.slots = e.slots ∧ e'.dbis = e.dbis ∧
        e'.txns = update e.txns e.nextTxn (some (e.newTxn th false)) := by
  unfold beginWrite at h
  split at h
  . cases h
  . cases h
    exact ⟨rfl, rfl, rfl, rfl, rfl⟩

theorem lt_nextTxn (hwf : e.WellFormed) (hx : e.txns i = some x) : i < e.nextTxn := by
  by_contra hle
  rw [hwf.fresh i (Nat.le_of_not_lt hle)] at hx
  cases hx

theorem renew_begins (th : Nat) (hwf : e.WellFormed) (hx : e.txns i = some x)
    : ((e.renew th i x).1 = .success ∧ Begins e i (e.renew th i x).2) ∨
        ((e.renew th i x).1 ≠ .success ∧ (e.renew th i x).2 = e) := by
  have hlt := lt_nextTxn hwf hx
  unfold renew
  split
  . next hreset =>
    split
    . exact .inr ⟨nofun, rfl⟩
    . refine .inl ⟨rfl, rfl, ⟨_, rfl, rfl, rfl⟩, ?_, Nat.le_refl _, hlt⟩
      intro y hy
      rw [hx] at hy
      cases hy
      rw [hreset.2]
      nofun
  . exact .inr ⟨nofun, rfl⟩

theorem keeps_of_update {x' : Txn} (hx : e.txns i = some x) (htxns : e'.txns = update e.txns i (some x'))
    (hnext : e'.nextTxn = e.nextTxn) (hdbis : e.dbis ⊆ e'.dbis) (hx' : x'.dbis = x.dbis)
    (hopened : x.state = .active → ∀ h ∈ x.opened, h ∈ e'.dbis ∨ (x'.state = .active ∧ h ∈ x'.opened))
    : Keeps e e' := by
  intro hwf
  refine ⟨⟨?_, ?_⟩, ?_⟩
  . intro j hj
    rw [hnext] at hj
    rw [htxns, update_of_ne (by have := lt_nextTxn hwf hx; omega)]
    exact hwf.fresh j hj
  . intro j y hy
    rw [htxns, update_apply] at hy
    split at hy
    . cases hy
      rw [hx']
      exact List.Subset.trans (hwf.dbis i x hx) hdbis
    . exact List.Subset.trans (hwf.dbis j y hy) hdbis
  . rintro d (hd | ⟨j, y, hy, hactive, hd⟩)
    . exact .inl (hdbis hd)
    . by_cases hj : j = i
      . subst hj
        rw [hx] at hy
        cases hy
        rcases hopened hactive d hd with hpublic | ⟨hactive', hprivate⟩
        . exact .inl hpublic
        . exact .inr ⟨j, x', by rw [htxns, update_self], hactive', hprivate⟩
      . exact .inr ⟨j, y, by rw [htxns, update_of_ne hj, hy], hactive, hd⟩

@[simp]
theorem finish_txns (e : Env) (i : Nat) (x : Txn) (st : TxnState)
    : (e.finish i x st).txns = update e.txns i (some { x with state := st, opened := [] }) := by
  unfold finish
  dsimp only
  repeat' split
  all_goals rfl

@[simp]
theorem finish_nextTxn (e : Env) (i : Nat) (x : Txn) (st : TxnState)
    : (e.finish i x st).nextTxn = e.nextTxn := by
  unfold finish
  dsimp only
  repeat' split
  all_goals rfl

@[simp]
theorem finish_dbis (e : Env) (i : Nat) (x : Txn) (st : TxnState) : (e.finish i x st).dbis = e.dbis := by
  unfold finish
  dsimp only
  repeat' split
  all_goals rfl

@[simp]
theorem finish_data (e : Env) (i : Nat) (x : Txn) (st : TxnState) : (e.finish i x st).data = e.data := by
  unfold finish
  dsimp only
  repeat' split
  all_goals rfl

theorem finish_slots (st : TxnState) (hx : x.state = .active)
    : (e.finish i x st).slots = if x.rdonly then update e.slots x.thread none else e.slots := by
  unfold finish
  dsimp only
  rw [if_neg (by simp [hx])]
  split <;> rfl

theorem finish_keeps (st : TxnState) (hx : e.txns i = some x) (hopened : x.opened = [])
    : Keeps e (e.finish i x st) := by
  refine keeps_of_update hx (finish_txns e i x st) (finish_nextTxn e i x st) ?_ rfl ?_
  . rw [finish_dbis]
    exact List.Subset.refl _
  . rw [hopened]
    nofun

@[simp]
theorem commit_txns (e : Env) (i : Nat) (x : Txn)
    : (e.commit i x).2.txns = update e.txns i (some { x with state := .ended, opened := [] }) := by
  unfold commit
  repeat' split
  all_goals exact finish_txns e i x .ended

@[simp]
theorem commit_nextTxn (e : Env) (i : Nat) (x : Txn) : (e.commit i x).2.nextTxn = e.nextTxn := by
  unfold commit
  repeat' split
  all_goals exact finish_nextTxn e i x .ended

theorem commit_cases (e : Env) (i : Nat) (x : Txn)
    : ((e.commit i x).1 ≠ .success ∧ (e.commit i x).2 = e.finish i x .ended) ∨
      (x.failed = false ∧ e.commit i x = (.success, {
        e.finish i x .ended with
        data := if x.rdonly then e.data else x.view
        dbis := e.dbis ++ x.opened })) := by
  unfold commit
  split
  . exact .inl ⟨nofun, rfl⟩
  . next hfailed =>
    split
    . exact .inl ⟨nofun, rfl⟩
    . exact .inr ⟨by simpa using hfailed, rfl⟩

theorem commit_slots (hx : x.state = .active)
    : (e.commit i x).2.slots = if x.rdonly then update e.slots x.thread none else e.slots := by
  rcases commit_cases e i x with ⟨-, heq⟩ | ⟨-, heq⟩
  . rw [heq]
    exact finish_slots .ended hx
  . rw [heq]
    exact finish_slots .ended hx

theorem commit_dbis (e : Env) (i : Nat) (x : Txn) : e.dbis ⊆ (e.commit i x).2.dbis := by
  rcases commit_cases e i x with ⟨-, heq⟩ | ⟨-, heq⟩
  . rw [heq, finish_dbis]
    exact List.Subset.refl _
  . rw [heq]
    exact List.subset_append_left _ _

theorem commit_keeps (hx : e.txns i = some x) (hrc : (e.commit i x).1 = .success)
    : Keeps e (e.commit i x).2 := by
  rcases commit_cases e i x with ⟨hne, -⟩ | ⟨-, heq⟩
  . exact absurd hrc hne
  . rw [heq]
    refine keeps_of_update hx (finish_txns e i x .ended) (finish_nextTxn e i x .ended) ?_ rfl ?_
    . exact List.subset_append_left _ _
    . exact fun _ h hh => .inl (List.mem_append_right _ hh)

theorem dbiOpen_known {name : Bytes} {flags : BitVec 32} {next id : Nat} {x' : Txn}
    (h : x.dbiOpen name flags next = .ok (id, x'))
    : x'.state = .active ∧ x'.dbis = x.dbis ∧ x.opened ⊆ x'.opened ∧ ⟨id, name⟩ ∈ x'.known := by
  have hnew : ⟨next, name⟩ ∈ x.dbis ++ (x.opened ++ [(⟨next, name⟩ : Dbi)]) := by simp
  unfold Txn.dbiOpen at h
  split at h
  . cases h
  . split at h
    . cases h
    . next husable =>
      have hactive : x.state = .active := by
        rw [Bool.not_eq_true, Bool.not_eq_false'] at husable
        exact (Txn.usable_iff.mp husable).1
      split at h
      . next d hd =>
        cases h
        have hname : d.name = name := by simpa using List.find?_some hd
        refine ⟨hactive, rfl, List.Subset.refl _, ?_⟩
        rw [← hname]
        exact List.mem_of_find?_eq_some hd
      . dsimp only at h
        repeat' split at h
        all_goals cases h
        all_goals exact ⟨hactive, rfl, List.subset_append_left _ _, hnew⟩

theorem dbiOpen_keeps {name : Bytes} {flags : BitVec 32} {id : Nat} {x' : Txn} (hx : e.txns i = some x)
    (hopen : x.dbiOpen name flags e.nextDbi = .ok (id, x'))
    : Keeps e { e.setTxn i x' with nextDbi := e.nextDbi + 1 } ∧
        (e.WellFormed → Open { e.setTxn i x' with nextDbi := e.nextDbi + 1 } ⟨id, name⟩) := by
  obtain ⟨hactive, hdbis, hopened, hmem⟩ := dbiOpen_known hopen
  constructor
  . exact keeps_of_update hx rfl rfl (List.Subset.refl _) hdbis fun _ h hh => .inr ⟨hactive, hopened hh⟩
  . intro hwf
    rcases List.mem_append.mp hmem with hpublic | hprivate
    . rw [hdbis] at hpublic
      exact .inl (hwf.dbis i x hx hpublic)
    . exact .inr ⟨i, x', update_self _ _ _, hactive, hprivate⟩

end Env

/--
There is room for `n` databases and for all that is written.
-/
structure Limits.Suffice (l : Limits) (n : Nat) : Prop where
  numdbs : ∀ m, l.numdbs = some m → n ≤ m
  full : ∀ k, l.full k = false
  commits : ∀ i, l.commitFails i = false

theorem Limits.unlimited_suffice (n : Nat) : unlimited.Suffice n := ⟨nofun, fun _ => rfl, fun _ => rfl⟩

theorem Limits.Suffice.mono {l : Limits} {n m : Nat} (h : l.Suffice n) (hle : m ≤ n) : l.Suffice m :=
  ⟨fun k hk => Nat.le_trans hle (h.numdbs k hk), h.full, h.commits⟩

theorem Limits.Suffice.answer {l : Limits} {n : Nat} (h : l.Suffice n) (k : Nat) : l.answer k = .plain := by
  simp [Limits.answer, h.full k]

theorem Env.refusal_eq_none {e : Env} {n : Nat} {x x' : Txn} (h : e.limits.Suffice n) (hlt : x.known.length < n)
    (k : Nat)
    : e.refusal k x x' = none := by
  have hnumdbs : (e.limits.numdbs.any fun m => m ≤ x.known.length) = false := by
    cases hm : e.limits.numdbs with
    | none => rfl
    | some m =>
      have := h.numdbs m hm
      simp
      omega
  simp [Env.refusal, hnumdbs, h.full k]

theorem Env.refusal_unlimited {e : Env} (h : e.limits = .unlimited) (k : Nat) (x x' : Txn)
    : e.refusal k x x' = none := by
  simp [Env.refusal, h, Limits.unlimited]

theorem Env.refusal_self (e : Env) (k : Nat) (x : Txn) : e.refusal k x x = none := by
  simp [Env.refusal]

theorem Txn.dbiOpen_length {x x' : Txn} {name : Bytes} {flags : BitVec 32} {next id : Nat}
    (h : x.dbiOpen name flags next = .ok (id, x'))
    : x'.known.length ≤ x.known.length + 1 := by
  unfold dbiOpen at h
  repeat' split at h
  all_goals cases h
  all_goals simp [known] <;> omega

theorem Txn.dbiOpen_create {x : Txn} (name : Bytes) (flags : BitVec 32) (next : Nat) (hactive : x.state = .active)
    (hfailed : x.failed = false) (hrdonly : x.rdonly = false) (hvalid : flags &&& ~~~validFlags = 0)
    (hcreate : flags &&& mdbCreate ≠ 0) (hknown : ∀ d ∈ x.known, d.name ≠ name) (hname : name ≠ [])
    (hlen : name.length ≤ 511)
    : x.dbiOpen name flags next = .ok (next, {
        x with
        opened := x.opened ++ [⟨next, name⟩]
        view := if (x.view.lookup name).isSome then x.view else Assoc.put name [] x.view
      }) := by
  have husable : x.usable = true := usable_iff.mpr ⟨hactive, hfailed⟩
  have hfind : (x.known.find? fun d => d.name == name) = none := by simpa using hknown
  unfold dbiOpen
  rw [if_neg (by simp [hvalid]), husable, hfind]
  dsimp only
  rw [if_neg (by simp), if_neg hname]
  split
  . rfl
  . rw [hrdonly, if_neg (by simp), if_neg (by omega)]

/--
LMDB finds no record under the empty key, and does not say that there is none.
-/
theorem Txn.get_nil (x : Txn) (dbi : Nat) : ∃ rc, x.get dbi [] = .error rc ∧ rc ≠ .notFound := by
  unfold get
  split
  . exact ⟨_, rfl, nofun⟩
  . split
    . exact ⟨_, rfl, nofun⟩
    . exact ⟨_, rfl, nofun⟩

end Lmdb
