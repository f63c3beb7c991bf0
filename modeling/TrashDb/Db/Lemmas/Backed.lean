import TrashDb.Db.Lemmas.Sound

/-!
This module contains that a handle stands for a database that exists: databases are never removed, and a
transaction gets no handle of a database that it does not have.
-/

namespace Lmdb

open Db Function

def Data.Has (data : Data) (name : Bytes) : Prop := (data.lookup name).isSome

namespace Data

variable {data : Data} {name : Bytes}

instance : Decidable (data.Has name) := inferInstanceAs (Decidable (_ = true))

theorem has_put {name' : Bytes} {c : Contents}
    : Data.Has (Assoc.put name c data) name' ↔ name' = name ∨ data.Has name' := by
  unfold Has
  by_cases heq : name' = name
  . rw [heq, Assoc.lookup_put_self]
    simp
  . rw [Assoc.lookup_put_of_ne heq]
    simp [heq]

theorem Has.store (h : data.Has name) (name' key val : Bytes) : (data.store name' key val).Has name :=
  has_put.mpr (.inr h)

theorem Has.put (h : data.Has name) (name' key val : Bytes) (answer : Answer) : (data.put name' key val answer).Has name := by
  cases answer <;> exact has_put.mpr (.inr h)

theorem has_of_put {name' key val : Bytes} {answer : Answer} (h : (data.put name key val answer).Has name')
    : name' = name ∨ data.Has name' := by
  cases answer <;> exact has_put.mp h

end Data

namespace Txn

variable {x x' : Txn} {name : Bytes} {flags : BitVec 32} {next id : Nat}

theorem dbiOpen_adds (h : x.dbiOpen name flags next = .ok (id, x'))
    : (x' = x ∧ ∃ d ∈ x.known, d.name = name) ∨
      (x' = { x with opened := x.opened ++ [⟨next, name⟩] } ∧ x.view.Has name) ∨
      (x' = { x with opened := x.opened ++ [⟨next, name⟩], view := Assoc.put name [] x.view } ∧
        ¬ x.view.Has name ∧ x.rdonly = false ∧ flags &&& mdbCreate ≠ 0) := by
  unfold dbiOpen at h
  repeat' split at h
  all_goals try cases h
  . next d hd =>
    exact .inl ⟨rfl, d, List.mem_of_find?_eq_some hd, by simpa using List.find?_some hd⟩
  . next hhas => exact .inr (.inl ⟨rfl, hhas⟩)
  . next hhas hcreate hrd _ =>
    exact .inr (.inr ⟨rfl, hhas, by simpa using hrd, hcreate⟩)

theorem dbiOpen_has (h : x.dbiOpen name flags next = .ok (id, x')) (hknown : ∀ d ∈ x.known, x.view.Has d.name)
    : ∀ d ∈ x'.known, x'.view.Has d.name := by
  have hadded : ∀ {view : Data}, (∀ d ∈ x.known, view.Has d.name) → view.Has name →
      ∀ d ∈ x.dbis ++ (x.opened ++ [⟨next, name⟩]), view.Has d.name := by
    intro view hknown hname d hd
    rw [← List.append_assoc, List.mem_append, List.mem_singleton] at hd
    rcases hd with hd | rfl
    . exact hknown d hd
    . exact hname
  obtain ⟨rfl, -⟩ | ⟨rfl, hname⟩ | ⟨rfl, -⟩ := dbiOpen_adds h
  . exact hknown
  . exact hadded hknown hname
  . exact hadded (fun d hd => Data.has_put.mpr (.inr (hknown d hd))) (Data.has_put.mpr (.inl rfl))

end Txn

namespace Env

variable {e e' : Env} {i : Nat} {x x' : Txn}

structure Backed (e : Env) : Prop where
  dbis : ∀ h ∈ e.dbis, e.data.Has h.name
  known : ∀ i x, e.txns i = some x → ∀ h ∈ x.known, x.view.Has h.name
  reader : ∀ i x, e.txns i = some x → x.rdonly = true → ∀ name, x.view.Has name → e.data.Has name
  writer : ∀ i x, e.txns i = some x → x.rdonly = false → x.state = .active → ∀ name, e.data.Has name → x.view.Has name

namespace Backed

theorem update (h : e.Backed) (htxns : e'.txns = update e.txns i (some x')) (hdata : e'.data = e.data)
    (hdbis : e'.dbis = e.dbis) (hknown : ∀ d ∈ x'.known, x'.view.Has d.name)
    (hreader : x'.rdonly = true → ∀ name, x'.view.Has name → e.data.Has name)
    (hwriter : x'.rdonly = false → x'.state = .active → ∀ name, e.data.Has name → x'.view.Has name)
    : e'.Backed := by
  have hcases : ∀ {j y}, e'.txns j = some y → y = x' ∨ e.txns j = some y := by
    intro j y hy
    rw [htxns, update_apply] at hy
    split at hy
    . cases hy
      exact .inl rfl
    . exact .inr hy
  constructor
  . rw [hdata, hdbis]
    exact h.dbis
  . intro j y hy
    rcases hcases hy with rfl | hy
    . exact hknown
    . exact h.known j y hy
  . intro j y hy
    rw [hdata]
    rcases hcases hy with rfl | hy
    . exact hreader
    . exact h.reader j y hy
  . intro j y hy
    rw [hdata]
    rcases hcases hy with rfl | hy
    . exact hwriter
    . exact h.writer j y hy

theorem newTxn (h : e.Backed) (th : Nat) (rd : Bool) (htxns : e'.txns = Function.update e.txns i (some (e.newTxn th rd)))
    (hdata : e'.data = e.data) (hdbis : e'.dbis = e.dbis)
    : e'.Backed := by
  refine h.update htxns hdata hdbis ?_ (fun _ _ => id) (fun _ _ _ => id)
  intro d hd
  rw [Txn.known, Env.newTxn, List.append_nil] at hd
  exact h.dbis d hd

theorem finish (h : e.Backed) (hx : e.txns i = some x) {st : TxnState} (hst : st ≠ .active)
    : (e.finish i x st).Backed := by
  refine h.update (finish_txns e i x st) (finish_data e i x st) (finish_dbis e i x st) ?_ ?_ ?_
  . intro d hd
    rw [Txn.known, List.append_nil] at hd
    exact h.known i x hx d (List.mem_append_left _ hd)
  . exact h.reader i x hx
  . exact fun _ hactive => absurd hactive hst

theorem commit (h : e.Backed) (hs : e.Sound) (hx : e.txns i = some x) (hended : x.state ≠ .ended)
    (hrc : (e.commit i x).1 = .success)
    : (e.commit i x).2.Backed := by
  have hfinish : (e.finish i x .ended).Backed := h.finish hx nofun
  rw [commit_success hrc]
  cases hrd : x.rdonly with
  | true =>
    refine { hfinish with dbis := ?_, reader := ?_, writer := ?_ }
    . intro d hd
      rcases List.mem_append.mp hd with hd | hd
      . exact h.dbis d hd
      . exact h.reader i x hx hrd d.name (h.known i x hx d (List.mem_append_right _ hd))
    . intro j y hy hyrd name hname
      rw [if_pos rfl, ← finish_data e i x .ended]
      exact hfinish.reader j y hy hyrd name hname
    . intro j y hy hyrd hactive name hname
      rw [if_pos rfl, ← finish_data e i x .ended] at hname
      exact hfinish.writer j y hy hyrd hactive name hname
  | false =>
    have hactive : x.state = .active := by
      cases hstate : x.state with
      | active => rfl
      | reset => exact absurd hstate (hs.noReset i x hx hrd)
      | ended => exact absurd hstate hended
    have hgrows := h.writer i x hx hrd hactive
    refine { hfinish with dbis := ?_, reader := ?_, writer := ?_ }
    . intro d hd
      rw [if_neg (by simp)]
      rcases List.mem_append.mp hd with hd | hd
      . exact hgrows d.name (h.dbis d hd)
      . exact h.known i x hx d (List.mem_append_right _ hd)
    . intro j y hy hyrd name hname
      rw [if_neg (by simp)]
      apply hgrows
      rw [← finish_data e i x .ended]
      exact hfinish.reader j y hy hyrd name hname
    . -- there is no other transaction that writes
      intro j y hy hyrd hyactive
      rw [finish_txns, update_apply] at hy
      split at hy
      . cases hy
        cases hyactive
      . next hne =>
        have hi := hs.writer i x hx hrd hactive
        rw [hs.writer j y hy hyrd hyactive] at hi
        exact absurd (Option.some.inj hi) hne

end Backed

end Env

end Lmdb

namespace Db

open Function

theorem Effect.backed {puts : Bytes → Bytes → Prop} {s s' : Sys} (heffect : Effect puts s s') (hs : s.Sound)
    (h : s.env.Backed)
    : s'.env.Backed := by
  cases heffect with
  | quiet hq => exact hq.env ▸ h
  | @begin i e th tt rd hbegin =>
    have hstarted := Lmdb.Env.begin_started hbegin
    exact h.newTxn th rd hstarted.txns hstarted.data hstarted.dbis
  | @renew i x th hx =>
    obtain heq | ⟨-, -, slots, heq⟩ := Lmdb.Env.renew_cases s.env th i x
    . rw [heq]
      exact h
    . rw [heq]
      exact h.newTxn th true rfl rfl rfl
  | @commit tt i t x ht hcommit hi hx hended hrc => exact h.commit hs.env hx hended hrc
  | @finish tt i t x st ht hcommit hi hx hst =>
    refine h.finish hx ?_
    rcases hst with rfl | ⟨rfl, -⟩ <;> nofun
  | @put tt i dbi t x x' key val flags answer rc ht hrd hi hx hput hkey =>
    obtain ⟨y, hy, hyrd⟩ := hs.owned.txn tt t i ht hi
    cases hx.symm.trans hy
    have hrdonly := hyrd.trans hrd
    obtain ⟨-, -, rfl⟩ | ⟨-, -, rfl⟩ | ⟨-, -, rfl⟩ := Lmdb.Txn.put_cases hput
    . refine h.update rfl rfl rfl (fun d hd => (h.known i x hx d hd).put _ _ _ _) ?_ ?_
      . intro hrd
        rw [hrdonly] at hrd
        cases hrd
      . exact fun hrd hactive name hname => (h.writer i x hx hrd hactive name hname).put _ _ _ _
    . exact h.update rfl rfl rfl (h.known i x hx) (h.reader i x hx) (h.writer i x hx)
    . exact h.update rfl rfl rfl (h.known i x' hx) (h.reader i x' hx) (h.writer i x' hx)
  | @dbiOpen i id x x' name flags hx hopen =>
    have hknown := Lmdb.Txn.dbiOpen_has hopen (h.known i x hx)
    obtain ⟨rfl, -⟩ | ⟨rfl, -⟩ | ⟨rfl, -, hrd, -⟩ := Lmdb.Txn.dbiOpen_adds hopen
    . exact h.update rfl rfl rfl hknown (h.reader i x' hx) (h.writer i x' hx)
    . exact h.update rfl rfl rfl hknown (h.reader i x hx) (h.writer i x hx)
    . refine h.update rfl rfl rfl hknown ?_ ?_
      . intro hrd'
        rw [hrd] at hrd'
        cases hrd'
      . exact fun hrd' hactive name hname => Lmdb.Data.has_put.mpr (.inr (h.writer i x hx hrd' hactive name hname))
  | _ => exact h

theorem Reaches.backed {puts : Bytes → Bytes → Prop} {s s' : Sys} (h : Reaches puts s s') (hs : s.Sound)
    (hbacked : s.env.Backed)
    : s'.env.Backed := by
  induction h with
  | refl => exact hbacked
  | tail hreaches heffect ih => exact heffect.backed (Reaches.sound hreaches hs) ih

theorem backed_init (limits : Lmdb.Limits) (data : Lmdb.Data) : (Sys.initWith limits data).env.Backed :=
  ⟨nofun, fun _ _ => nofun, fun _ _ => nofun, fun _ _ => nofun⟩

end Db
