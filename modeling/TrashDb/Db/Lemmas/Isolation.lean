import TrashDb.Db.Lemmas.Closed

/-!
This module contains what a transaction keeps while it is not used: the other calls do not touch it, and
the data that was committed stays as it is while it writes. While no transaction writes, the data stays
as it is until one begins.
-/

namespace Db

open Prog Function

/--
The transaction `tt` is the transaction `x` of LMDB, which is number `i` and no other transaction points to.
If it writes then `d` is committed, and it is the only one that writes.
-/
structure Isolated (tt i : Nat) (t : TrashTxn) (x : Lmdb.Txn) (d : Lmdb.Data) (s : Sys) : Prop where
  tts : s.tts tt = some t
  txn : t.txn = some i
  txns : s.env.txns i = some x
  owner : ∀ tt' t', s.tts tt' = some t' → t'.txn = some i → tt' = tt
  ttLt : tt < s.nextTt
  txnLt : i < s.env.nextTxn
  pool : ∀ th rdrs, s.rdrPool th = some rdrs → tt ∉ rdrs.txns
  writer : x.rdonly = false → s.env.writer = some i
  data : x.rdonly = false → s.env.data = d
  others : x.rdonly = false → ∀ j y, j ≠ i → s.env.txns j = some y → y.rdonly = false → y.state = .ended

namespace Isolated

variable {tt tt' th i j : Nat} {t t' : TrashTxn} {x y y' : Lmdb.Txn} {d : Lmdb.Data} {s s' : Sys}

theorem congr (h : Isolated tt i t x d s) (htts : s'.tts = s.tts) (hnext : s'.nextTt = s.nextTt)
    (henv : s'.env = s.env) (hpool : s'.rdrPool = s.rdrPool)
    : Isolated tt i t x d s' := by
  refine ⟨?_, h.txn, ?_, ?_, ?_, ?_, ?_, ?_, ?_, ?_⟩
  . rw [htts]
    exact h.tts
  . rw [henv]
    exact h.txns
  . rw [htts]
    exact h.owner
  . rw [hnext]
    exact h.ttLt
  . rw [henv]
    exact h.txnLt
  . rw [hpool]
    exact h.pool
  . rw [henv]
    exact h.writer
  . rw [henv]
    exact h.data
  . rw [henv]
    exact h.others

theorem setTts {u : Option TrashTxn} {n : Nat} (h : Isolated tt i t x d s) (hne : tt' ≠ tt)
    (hu : ∀ t', u = some t' → t'.txn ≠ some i) (hn : s.nextTt ≤ n)
    : Isolated tt i t x d { s with tts := update s.tts tt' u, nextTt := n } := by
  refine { h with tts := ?_, owner := ?_, ttLt := Nat.lt_of_lt_of_le h.ttLt hn }
  . dsimp only
    rw [update_of_ne hne.symm]
    exact h.tts
  . intro tt₁ t₁ ht₁ hi
    dsimp only at ht₁
    rw [update_apply] at ht₁
    split at ht₁
    . exact absurd hi (hu t₁ ht₁)
    . exact h.owner tt₁ t₁ ht₁ hi

theorem setPool {rdrs : Readers} (h : Isolated tt i t x d s) (hnot : tt ∉ rdrs.txns)
    : Isolated tt i t x d { s with rdrPool := update s.rdrPool th (some rdrs) } := by
  refine { h with pool := ?_ }
  intro th' rdrs' hpool
  dsimp only at hpool
  rw [update_apply] at hpool
  split at hpool
  . cases hpool
    exact hnot
  . exact h.pool th' rdrs' hpool

theorem txn_ne (h : Isolated tt i t x d s) (hne : tt' ≠ tt) (ht' : s.tts tt' = some t') : t'.txn ≠ some i :=
  fun hi => hne (h.owner tt' t' ht' hi)

/--
Another transaction of LMDB is changed. While `tt` writes the others that write have ended, or do nothing
to the data.
-/
theorem setEnv {e : Lmdb.Env} (h : Isolated tt i t x d s) (hj : j ≠ i) (htxns : e.txns = update s.env.txns j (some y'))
    (hnext : s.env.nextTxn ≤ e.nextTxn)
    (hwrite : x.rdonly = false → e.writer = s.env.writer ∧ e.data = s.env.data ∧
      (y'.rdonly = false → y'.state = .ended))
    : Isolated tt i t x d { s with env := e } := by
  refine { h with txns := ?_, txnLt := Nat.lt_of_lt_of_le h.txnLt hnext, writer := ?_, data := ?_, others := ?_ }
  . dsimp only
    rw [htxns, update_of_ne hj.symm]
    exact h.txns
  . intro hrd
    exact (hwrite hrd).1.trans (h.writer hrd)
  . intro hrd
    exact (hwrite hrd).2.1.trans (h.data hrd)
  . intro hrd k z hk hz
    dsimp only at hz
    rw [htxns, update_apply] at hz
    split at hz
    . cases hz
      exact (hwrite hrd).2.2
    . exact h.others hrd k z hk hz

theorem rdonly (h : Isolated tt i t x d s) (hj : j ≠ i) (hy : s.env.txns j = some y) (hended : y.state ≠ .ended)
    (hrd : x.rdonly = false)
    : y.rdonly = true := by
  by_contra hyrd
  exact hended (h.others hrd j y hj hy (by simpa using hyrd))

theorem finish (h : Isolated tt i t x d s) (hj : j ≠ i) (hy : s.env.txns j = some y) (st : Lmdb.TxnState)
    (hst : st = .ended ∨ y.state ≠ .ended)
    : Isolated tt i t x d { s with env := s.env.finish j y st } := by
  refine h.setEnv hj (Lmdb.Env.finish_txns _ _ _ _) (Nat.le_of_eq (Lmdb.Env.finish_nextTxn _ _ _ _).symm) ?_
  intro hrd
  refine ⟨?_, Lmdb.Env.finish_data _ _ _ _, ?_⟩
  . unfold Lmdb.Env.finish
    dsimp only
    split
    . rfl
    . next hactive =>
      rw [h.rdonly hj hy (by simp_all) hrd, if_pos rfl]
      rfl
  . intro hyrd
    rcases hst with hst | hst
    . exact hst
    . rw [h.rdonly hj hy hst hrd] at hyrd
      cases hyrd

theorem commit (h : Isolated tt i t x d s) (hj : j ≠ i) (hy : s.env.txns j = some y) (hended : y.state ≠ .ended)
    : Isolated tt i t x d { s with env := (s.env.commit j y).2 } := by
  have hfinish := h.finish hj hy .ended (.inl rfl)
  rcases Lmdb.Env.commit_cases s.env j y with ⟨-, heq⟩ | ⟨-, heq⟩
  . rw [heq]
    exact hfinish
  . rw [heq]
    refine { hfinish with data := ?_ }
    intro hrd
    dsimp only
    rw [h.rdonly hj hy hended hrd, if_pos rfl]
    exact h.data hrd

section

variable {e : Lmdb.Env} {rd : Bool} {k : Nat}

theorem begin (h : Isolated tt i t x d s) (hbegin : s.env.begin th rd = some (k, e))
    : k ≠ i ∧ Isolated tt i t x d { s with env := e } := by
  have hstarted := Lmdb.Env.begin_started hbegin
  have hne : k ≠ i := by
    have := h.txnLt
    rw [hstarted.index]
    omega
  refine ⟨hne, h.setEnv hne hstarted.txns (by rw [hstarted.nextTxn]; omega) ?_⟩
  intro hrd
  cases rd with
  | true => exact ⟨hstarted.read rfl, hstarted.data, by simp [Lmdb.Env.newTxn]⟩
  | false =>
    have hwriter := h.writer hrd
    rw [(hstarted.write rfl).1] at hwriter
    cases hwriter

theorem renew (h : Isolated tt i t x d s) (hj : j ≠ i)
    : Isolated tt i t x d { s with env := (s.env.renew th j y).2 } := by
  unfold Lmdb.Env.renew
  split
  . split
    . exact h.congr rfl rfl rfl rfl
    . refine h.setEnv hj rfl (Nat.le_refl _) fun _ => ⟨rfl, rfl, ?_⟩
      simp [Lmdb.Env.newTxn]
  . exact h.congr rfl rfl rfl rfl

end

theorem setTxn (h : Isolated tt i t x d s) (hj : j ≠ i) (hy : s.env.txns j = some y) (hended : y.state ≠ .ended)
    (hrole : y'.role = y.role) (n : Nat)
    : Isolated tt i t x d { s with env := { s.env.setTxn j y' with nextDbi := n } } := by
  simp only [Lmdb.Txn.role, Prod.mk.injEq] at hrole
  refine h.setEnv hj rfl (Nat.le_refl _) fun hrd => ⟨rfl, rfl, ?_⟩
  intro hy'
  rw [hrole.1, h.rdonly hj hy hended hrd] at hy'
  cases hy'

theorem closed : Closed (Isolated tt i t x d) (· ≠ tt) (· ≠ i) True where
  congr := congr
  setTts h hne hu hn := h.setTts hne (fun t' ht' hi => hu t' ht' i hi rfl) hn
  setPool h hall := h.setPool fun hmem => hall tt hmem rfl
  fresh h := Nat.ne_of_gt h.ttLt
  pool h hpool _ hmem heq := h.pool _ _ hpool (heq ▸ hmem)
  txn h hne ht' _ hj hji := h.txn_ne hne ht' (hji ▸ hj)
  begin h _ hbegin := h.begin hbegin
  renew h hj _ _ := h.renew hj
  finish h hj hy st hst := h.finish hj hy st hst
  commit h hj hy hended := h.commit hj hy hended
  setTxn h hj hy hended hrole n := h.setTxn hj hy hended hrole n

theorem step {a : Action} (h : Isolated tt i t x d s) (huses : tt ∉ a.uses s) (hstep : s.step a = some s')
    : Isolated tt i t x d s' :=
  closed.step h (fun _ hmem heq => huses (heq ▸ hmem)) (fun _ => trivial) hstep

end Isolated

structure Resting (d : Lmdb.Data) (s : Sys) : Prop where
  data : s.env.data = d
  ended : ∀ i x, s.env.txns i = some x → x.rdonly = false → x.state = .ended

namespace Resting

variable {i : Nat} {x x' : Lmdb.Txn} {d : Lmdb.Data} {e : Lmdb.Env} {s s' : Sys}

theorem setEnv (h : Resting d s) (htxns : e.txns = update s.env.txns i (some x')) (hdata : e.data = s.env.data)
    (hended : x'.rdonly = false → x'.state = .ended)
    : Resting d { s with env := e } := by
  refine ⟨hdata.trans h.data, ?_⟩
  intro j y hy
  dsimp only at hy
  rw [htxns, update_apply] at hy
  split at hy
  . cases hy
    exact hended
  . exact h.ended j y hy

theorem rdonly (h : Resting d s) (hx : s.env.txns i = some x) (hended : x.state ≠ .ended) : x.rdonly = true := by
  by_contra hrd
  exact hended (h.ended i x hx (by simpa using hrd))

theorem finish (h : Resting d s) (hx : s.env.txns i = some x) (st : Lmdb.TxnState) (hst : st = .ended ∨ x.state ≠ .ended)
    : Resting d { s with env := s.env.finish i x st } := by
  refine h.setEnv (Lmdb.Env.finish_txns _ _ _ _) (Lmdb.Env.finish_data _ _ _ _) ?_
  intro hrd
  rcases hst with hst | hst
  . exact hst
  . rw [h.rdonly hx hst] at hrd
    cases hrd

theorem closed : Closed (Resting d) (fun _ => True) (fun _ => True) False where
  congr h _ _ henv _ := ⟨henv ▸ h.data, henv ▸ h.ended⟩
  setTts h _ _ _ := ⟨h.data, h.ended⟩
  setPool h _ := ⟨h.data, h.ended⟩
  fresh _ := trivial
  pool _ _ _ _ := trivial
  txn _ _ _ _ _ := trivial
  begin {s th rd i e} h hwrites hbegin := by
    have hstarted := Lmdb.Env.begin_started hbegin
    cases rd with
    | true =>
      refine ⟨trivial, h.setEnv hstarted.txns hstarted.data ?_⟩
      simp [Lmdb.Env.newTxn]
    | false => exact (hwrites rfl).elim
  renew {s i x} h _ hx th := by
    obtain heq | ⟨-, -, slots, heq⟩ := Lmdb.Env.renew_cases s.env th i x
    . rw [heq]
      exact h
    . rw [heq]
      exact h.setEnv rfl rfl (by simp [Lmdb.Env.newTxn])
  finish h _ hx st hst := h.finish hx st hst
  commit {s i x} h _ hx hended := by
    have hfinish := h.finish hx .ended (.inl rfl)
    rcases Lmdb.Env.commit_cases s.env i x with ⟨-, heq⟩ | ⟨-, heq⟩
    . rw [heq]
      exact hfinish
    . rw [heq]
      refine { hfinish with data := ?_ }
      dsimp only
      rw [h.rdonly hx hended, if_pos rfl]
      exact h.data
  setTxn {s i x x'} h _ hx hended hrole n := by
    simp only [Lmdb.Txn.role, Prod.mk.injEq] at hrole
    refine h.setEnv rfl rfl ?_
    intro hrd
    rw [hrole.1, h.rdonly hx hended] at hrd
    cases hrd

theorem step {a : Action} (h : Resting d s) (hwrites : a.writes s = false) (hstep : s.step a = some s')
    : Resting d s' :=
  closed.step h (fun _ _ => trivial) (by simp [hwrites]) hstep

end Resting

end Db
