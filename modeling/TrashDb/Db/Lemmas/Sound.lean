import TrashDb.Db.Lemmas.Effects
import TrashDb.Db.Lemmas.Similar

/-!
This module contains what holds in every state that is reached: LMDB has one write transaction at a time,
every transaction of `db.c` has one of its own, and a number stands for one handle only.
-/

namespace Lmdb

open Db Function

namespace Env

variable {e e' : Env} {th i : Nat} {x x' : Txn}

structure Sound (e : Env) : Prop where
  wellFormed : e.WellFormed
  writer : ∀ i x, e.txns i = some x → x.rdonly = false → x.state = .active → e.writer = some i
  noReset : ∀ i x, e.txns i = some x → x.rdonly = false → x.state ≠ .reset

theorem Sound.update (h : e.Sound) (htxns : e'.txns = update e.txns i (some x')) (hlt : i < e'.nextTxn)
    (hnext : e.nextTxn ≤ e'.nextTxn) (hdbis : e.dbis ⊆ e'.dbis) (hknown : x'.dbis ⊆ e'.dbis)
    (hactive : x'.rdonly = false → x'.state = .active → e'.writer = some i)
    (hwriter : ∀ j, j ≠ i → e.writer = some j → e'.writer = some j)
    (hreset : x'.rdonly = false → x'.state ≠ .reset)
    : e'.Sound := by
  refine ⟨⟨?_, ?_⟩, ?_, ?_⟩
  . intro j hj
    rw [htxns, update_of_ne (by omega)]
    exact h.wellFormed.fresh j (by omega)
  . intro j y hy
    rw [htxns, update_apply] at hy
    split at hy
    . cases hy
      exact hknown
    . exact List.Subset.trans (h.wellFormed.dbis j y hy) hdbis
  . intro j y hy hrd hstate
    rw [htxns, update_apply] at hy
    split at hy
    . next heq =>
      cases hy
      rw [heq]
      exact hactive hrd hstate
    . next hne => exact hwriter j hne (h.writer j y hy hrd hstate)
  . intro j y hy hrd
    rw [htxns, update_apply] at hy
    split at hy
    . cases hy
      exact hreset hrd
    . exact h.noReset j y hy hrd

theorem renew_cases (e : Env) (th i : Nat) (x : Txn)
    : (e.renew th i x).2 = e ∨ x.rdonly = true ∧ x.state = .reset ∧
        ∃ slots, (e.renew th i x).2 = { e with slots := slots, txns := update e.txns i (some (e.newTxn th true)) } := by
  unfold renew
  split
  . next h =>
    split
    . exact .inl rfl
    . exact .inr ⟨h.1, h.2, _, rfl⟩
  . exact .inl rfl

theorem finish_nextDbi (e : Env) (i : Nat) (x : Txn) (st : TxnState) : (e.finish i x st).nextDbi = e.nextDbi := by
  unfold finish
  dsimp only
  repeat' split
  all_goals rfl

theorem Sound.finish_writer (h : e.Sound) (hx : e.txns i = some x) (st : TxnState) {j : Nat} (hj : j ≠ i)
    (hwriter : e.writer = some j)
    : (e.finish i x st).writer = some j := by
  unfold finish
  dsimp only
  split
  . exact hwriter
  . next hactive =>
    split
    . exact hwriter
    . next hrd =>
      have hi := h.writer i x hx (by simpa using hrd) (by simpa using hactive)
      rw [hwriter] at hi
      cases hi
      exact absurd rfl hj

theorem commit_success (h : (e.commit i x).1 = .success)
    : (e.commit i x).2 = {
        e.finish i x .ended with
        data := if x.rdonly then e.data else x.view
        dbis := e.dbis ++ x.opened
      } := by
  rcases commit_cases e i x with ⟨hne, -⟩ | ⟨-, heq⟩
  . exact absurd h hne
  . rw [heq]

theorem Started.sound (hstarted : e.Started th i rd e') (h : e.Sound) : e'.Sound := by
  refine h.update hstarted.txns ?_ ?_ ?_ ?_ ?_ ?_ ?_
  . rw [hstarted.nextTxn, hstarted.index]
    exact Nat.lt_succ_self _
  . rw [hstarted.nextTxn]
    exact Nat.le_succ _
  . rw [hstarted.dbis]
    exact List.Subset.refl _
  . rw [hstarted.dbis]
    exact List.Subset.refl _
  . exact fun hrd _ => (hstarted.write hrd).2
  . intro j _ hwriter
    cases rd with
    | true => rw [hstarted.read rfl, hwriter]
    | false =>
      rw [(hstarted.write rfl).1] at hwriter
      cases hwriter
  . exact fun _ => nofun

theorem Sound.renew (h : e.Sound) (th : Nat) (hx : e.txns i = some x) : (e.renew th i x).2.Sound := by
  obtain heq | ⟨-, -, slots, heq⟩ := renew_cases e th i x
  . rw [heq]
    exact h
  . rw [heq]
    have hlt := lt_nextTxn h.wellFormed hx
    refine h.update rfl hlt (Nat.le_refl _) (List.Subset.refl _) (List.Subset.refl _) ?_ ?_ ?_
    . nofun
    . exact fun _ _ hwriter => hwriter
    . nofun

theorem Sound.finish (h : e.Sound) (hx : e.txns i = some x) {st : TxnState} (hst : st ≠ .active)
    (hreset : x.rdonly = false → st ≠ .reset)
    : (e.finish i x st).Sound := by
  refine h.update (finish_txns e i x st) ?_ ?_ ?_ ?_ ?_ (fun j hj => h.finish_writer hx st hj) hreset
  . rw [finish_nextTxn]
    exact lt_nextTxn h.wellFormed hx
  . rw [finish_nextTxn]
  . rw [finish_dbis]
    exact List.Subset.refl _
  . rw [finish_dbis]
    exact h.wellFormed.dbis i x hx
  . exact fun _ hactive => absurd hactive hst

theorem Sound.commit (h : e.Sound) (hx : e.txns i = some x) (hrc : (e.commit i x).1 = .success)
    : (e.commit i x).2.Sound := by
  rw [commit_success hrc]
  refine h.update (finish_txns e i x .ended) ?_ ?_ ?_ ?_ ?_ (fun j hj => h.finish_writer hx .ended hj) ?_
  . rw [finish_nextTxn]
    exact lt_nextTxn h.wellFormed hx
  . rw [finish_nextTxn]
  . exact List.subset_append_left _ _
  . exact List.Subset.trans (h.wellFormed.dbis i x hx) (List.subset_append_left _ _)
  . exact fun _ => nofun
  . exact fun _ => nofun

theorem Sound.setTxn (h : e.Sound) (hx : e.txns i = some x) (hrole : x'.role = x.role) (hdbis : x'.dbis = x.dbis)
    (n : Nat)
    : Sound { e.setTxn i x' with nextDbi := n } := by
  simp only [Txn.role, Prod.mk.injEq] at hrole
  obtain ⟨hrd, -, hstate⟩ := hrole
  have hlt := lt_nextTxn h.wellFormed hx
  refine h.update rfl hlt (Nat.le_refl _) (List.Subset.refl _) ?_ ?_ ?_ ?_
  . rw [hdbis]
    exact h.wellFormed.dbis i x hx
  . rw [hrd, hstate]
    exact h.writer i x hx
  . exact fun _ _ hwriter => hwriter
  . rw [hrd, hstate]
    exact h.noReset i x hx

end Env

theorem Txn.put_role {x x' : Txn} {dbi : Nat} {key val : Bytes} {flags : BitVec 32} {answer : Lmdb.Answer} {rc : Rc}
    (hput : x.put dbi key val flags answer = (rc, x'))
    : x'.role = x.role ∧ x'.dbis = x.dbis ∧ x'.opened = x.opened := by
  have hcore := Alike.put_core x dbi key val flags answer
  rw [hput] at hcore
  simp only [Txn.core, Prod.mk.injEq] at hcore
  obtain ⟨hrd, hthread, hstate, hdbis, hopened⟩ := hcore
  exact ⟨by rw [Txn.role, hrd, hthread, hstate]; rfl, hdbis, hopened⟩

theorem Txn.known_of_dbiOpen {x x' : Txn} {name : Bytes} {flags : BitVec 32} {next id : Nat} {d : Dbi}
    (hopen : x.dbiOpen name flags next = .ok (id, x')) (hd : d ∈ x'.known)
    : d ∈ x.known ∨ d = ⟨next, name⟩ := by
  have happend : d ∈ x.dbis ++ (x.opened ++ [⟨next, name⟩]) → d ∈ x.known ∨ d = ⟨next, name⟩ := by
    simp only [Txn.known, List.mem_append, List.mem_singleton, or_assoc]
    exact fun h => h
  unfold dbiOpen at hopen
  dsimp only at hopen
  repeat' split at hopen
  all_goals cases hopen
  . exact .inl hd
  . exact happend hd
  . exact happend hd

end Lmdb

namespace Db

open Prog Function

/--
Every transaction of LMDB that is pointed to is there, and no two point to the same one.
-/
structure Owned (s : Sys) : Prop where
  txn : ∀ tt t i, s.tts tt = some t → t.txn = some i → ∃ x, s.env.txns i = some x ∧ x.rdonly = t.rd
  owner : ∀ tt tt' t t' i, s.tts tt = some t → s.tts tt' = some t' → t.txn = some i → t'.txn = some i → tt = tt'

namespace Owned

variable {s s' : Sys} {tt i : Nat} {t : TrashTxn}

theorem of_role (h : Owned s) (htts : s'.tts = s.tts)
    (htxns : ∀ i x, s.env.txns i = some x → ∃ x', s'.env.txns i = some x' ∧ x'.rdonly = x.rdonly)
    : Owned s' := by
  refine ⟨?_, ?_⟩
  . intro tt t i ht hi
    rw [htts] at ht
    obtain ⟨x, hx, hrd⟩ := h.txn tt t i ht hi
    obtain ⟨x', hx', hrd'⟩ := htxns i x hx
    exact ⟨x', hx', hrd'.trans hrd⟩
  . rw [htts]
    exact h.owner

theorem of_update {x x' : Lmdb.Txn} (h : Owned s) (htts : s'.tts = s.tts) (hx : s.env.txns i = some x)
    (htxns : s'.env.txns = update s.env.txns i (some x')) (hrd : x'.rdonly = x.rdonly)
    : Owned s' := by
  refine h.of_role htts fun j y hy => ?_
  rw [htxns]
  by_cases hj : j = i
  . subst hj
    rw [hx] at hy
    cases hy
    exact ⟨x', update_self _ _ _, hrd⟩
  . exact ⟨y, by rw [update_of_ne hj, hy], rfl⟩

theorem setTt {t' : TrashTxn} (h : Owned s)
    (hnew : ∀ i, t'.txn = some i → ∃ x, s.env.txns i = some x ∧ x.rdonly = t'.rd)
    (hold : ∀ tt' t i, tt' ≠ tt → s.tts tt' = some t → t.txn = some i → t'.txn ≠ some i)
    : Owned { s with tts := update s.tts tt (some t') } := by
  refine ⟨?_, ?_⟩
  . intro tt' t i ht hi
    dsimp only at ht
    rw [update_apply] at ht
    split at ht
    . cases ht
      exact hnew i hi
    . exact h.txn tt' t i ht hi
  . intro tt₁ tt₂ t₁ t₂ i ht₁ ht₂ hi₁ hi₂
    dsimp only at ht₁ ht₂
    rw [update_apply] at ht₁ ht₂
    split at ht₁
    . next heq₁ =>
      cases ht₁
      split at ht₂
      . next heq₂ => rw [heq₁, heq₂]
      . next hne₂ => exact absurd hi₁ (hold tt₂ t₂ i hne₂ ht₂ hi₂)
    . next hne₁ =>
      split at ht₂
      . cases ht₂
        exact absurd hi₂ (hold tt₁ t₁ i hne₁ ht₁ hi₁)
      . exact h.owner tt₁ tt₂ t₁ t₂ i ht₁ ht₂ hi₁ hi₂

theorem touch {u : TrashTxn} (h : Owned s) (ht : s.tts tt = some t) (htxn : u.txn = t.txn) (hrd : u.rd = t.rd)
    : Owned { s with tts := update s.tts tt (some u) } := by
  refine h.setTt ?_ ?_
  . intro i hi
    rw [htxn] at hi
    rw [hrd]
    exact h.txn tt t i ht hi
  . intro tt' t' i hne ht' hi hu
    rw [htxn] at hu
    exact hne (h.owner tt' tt t' t i ht' ht hi hu)

theorem free (h : Owned s) (tt : Nat) : Owned { s with tts := update s.tts tt none } := by
  have hold : ∀ {tt' t}, update s.tts tt none tt' = some t → s.tts tt' = some t := by
    intro tt' t ht
    rw [update_apply] at ht
    split at ht
    . cases ht
    . exact ht
  refine ⟨fun tt' t i ht => h.txn tt' t i (hold ht), ?_⟩
  exact fun tt₁ tt₂ t₁ t₂ i ht₁ ht₂ => h.owner tt₁ tt₂ t₁ t₂ i (hold ht₁) (hold ht₂)

theorem begin {e : Lmdb.Env} {th : Nat} {rd : Bool} (h : Owned s) (hwf : s.env.WellFormed)
    (hstarted : s.env.Started th i rd e) (tt : Nat)
    : Owned { s with env := e, tts := update s.tts tt (some ⟨some i, rd, !rd, false, false, none⟩) } := by
  have hfresh : s.env.txns i = none := hwf.fresh i (Nat.le_of_eq hstarted.index.symm)
  have henv : Owned { s with env := e } := by
    refine h.of_role rfl fun j y hy => ⟨y, ?_, rfl⟩
    dsimp only
    rw [hstarted.txns, update_of_ne, hy]
    rintro rfl
    rw [hfresh] at hy
    cases hy
  refine henv.setTt ?_ ?_
  . rintro _ ⟨⟩
    exact ⟨s.env.newTxn th rd, by rw [hstarted.txns, update_self], rfl⟩
  . rintro tt' t _ - ht hi ⟨⟩
    obtain ⟨x, hx, -⟩ := h.txn tt' t i ht hi
    rw [hfresh] at hx
    cases hx

end Owned

/--
A number stands for one handle, whether that is still open or not.
-/
structure Named (s : Sys) : Prop where
  eq : ∀ d d', s.Mentions d → s.Mentions d' → d.id = d'.id → d = d'
  lt : ∀ d, s.Mentions d → d.id < s.env.nextDbi

namespace Named

variable {s s' : Sys}

theorem of_mentions (h : Named s) (hnext : s.env.nextDbi ≤ s'.env.nextDbi)
    (hmentions : ∀ d, s'.Mentions d → s.Mentions d)
    : Named s' :=
  ⟨fun d d' hd hd' => h.eq d d' (hmentions d hd) (hmentions d' hd'),
    fun d hd => Nat.lt_of_lt_of_le (h.lt d (hmentions d hd)) hnext⟩

theorem of_new {name : Bytes} (h : Named s) (hnext : s'.env.nextDbi = s.env.nextDbi + 1)
    (hmentions : ∀ d, s'.Mentions d → s.Mentions d ∨ d = ⟨s.env.nextDbi, name⟩)
    : Named s' := by
  refine ⟨?_, ?_⟩
  . intro d d' hd hd' heq
    obtain hold | rfl := hmentions d hd
    . obtain hold' | rfl := hmentions d' hd'
      . exact h.eq d d' hold hold' heq
      . exact absurd heq (Nat.ne_of_lt (h.lt d hold))
    . obtain hold' | rfl := hmentions d' hd'
      . exact absurd heq.symm (Nat.ne_of_lt (h.lt d' hold'))
      . rfl
  . intro d hd
    rw [hnext]
    obtain hold | rfl := hmentions d hd
    . exact Nat.lt_succ_of_lt (h.lt d hold)
    . exact Nat.lt_succ_self _

theorem of_update {i : Nat} {x' : Lmdb.Txn} (h : Named s) (hdbs : s'.dbs = s.dbs) (hpc : s'.pc = s.pc)
    (hnext : s'.env.nextDbi = s.env.nextDbi) (htxns : s'.env.txns = update s.env.txns i (some x'))
    (hdbis : ∀ d ∈ s'.env.dbis, s.Mentions d) (hknown : ∀ d ∈ x'.known, s.Mentions d)
    : Named s' := by
  refine h.of_mentions (Nat.le_of_eq hnext.symm) ?_
  rintro d (hpublic | ⟨j, y, hy, hd⟩ | hdb | ⟨th, hth⟩)
  . exact hdbis d hpublic
  . rw [htxns, update_apply] at hy
    split at hy
    . cases hy
      exact hknown d hd
    . exact .inr (.inl ⟨j, y, hy, hd⟩)
  . exact .inr (.inr (.inl (hdbs ▸ hdb)))
  . exact .inr (.inr (.inr ⟨th, hpc ▸ hth⟩))

end Named

structure Sys.Sound (s : Sys) : Prop where
  env : s.env.Sound
  owned : Owned s
  named : Named s

/--
The handle that a number stands for in a transaction has the name of the registry.
-/
theorem Sys.Sound.handle_name {s : Sys} {i : Nat} {x : Lmdb.Txn} {db : OpenDb} {d : Lmdb.Dbi} (h : s.Sound)
    (hx : s.env.txns i = some x) (hdb : db ∈ s.dbs) (hd : x.handle db.id = some d)
    : d.name = db.name := by
  have hknown : s.Mentions d := .inr (.inl ⟨i, x, hx, List.mem_of_find?_eq_some hd⟩)
  have hlisted : s.Mentions ⟨db.id, db.name⟩ :=
    .inr (.inr (.inl (List.mem_map_of_mem (f := fun db => (db.name, db.id)) hdb)))
  have hid : d.id = db.id := by simpa using List.find?_some hd
  rw [h.named.eq d _ hknown hlisted hid]

theorem Effect.sound {puts : Bytes → Bytes → Prop} {s s' : Sys} (heffect : Effect puts s s') (h : s.Sound)
    : s'.Sound := by
  obtain ⟨henv, howned, hnamed⟩ := h
  have hpublic : ∀ d ∈ s.env.dbis, s.Mentions d := fun d hd => .inl hd
  have hknown : ∀ {i x d}, s.env.txns i = some x → d ∈ x.known → s.Mentions d :=
    fun hx hd => .inr (.inl ⟨_, _, hx, hd⟩)
  have hsame : ∀ {s'}, s'.env = s.env → s'.dbs = s.dbs → s'.pc = s.pc → Named s' := by
    intro s' he hdbs hpc
    refine hnamed.of_mentions (by rw [he]) ?_
    unfold Sys.Mentions
    rw [he, hdbs, hpc]
    exact fun _ hd => hd
  cases heffect with
  | quiet h =>
    refine ⟨h.env ▸ henv, howned.of_role h.tts ?_, hnamed.of_mentions (by rw [h.env]) ?_⟩
    . rw [h.env]
      exact fun i x hx => ⟨x, hx, rfl⟩
    . unfold Sys.Mentions
      rw [h.env, h.dbs, h.pc]
      exact fun _ hd => hd
  | begin th tt rd hbegin =>
    have hstarted := Lmdb.Env.begin_started hbegin
    refine ⟨hstarted.sound henv, howned.begin henv.wellFormed hstarted tt, ?_⟩
    refine hnamed.of_update rfl rfl hstarted.nextDbi hstarted.txns ?_ ?_
    . rw [hstarted.dbis]
      exact hpublic
    . intro d hd
      exact hpublic d (by simpa [Lmdb.Txn.known, Lmdb.Env.newTxn] using hd)
  | wild tt => exact ⟨henv, howned.setTt (by simp) (by simp), hsame rfl rfl rfl⟩
  | touch ht htxn hrd hcommit => exact ⟨henv, howned.touch ht htxn hrd, hsame rfl rfl rfl⟩
  | free tt => exact ⟨henv, howned.free tt, hsame rfl rfl rfl⟩
  | @renew i x th hx =>
    obtain heq | ⟨hrdonly, -, slots, heq⟩ := Lmdb.Env.renew_cases s.env th i x
    . rw [heq]
      exact ⟨henv, howned, hnamed⟩
    . refine ⟨henv.renew th hx, ?_, ?_⟩
      . exact howned.of_update rfl hx (by rw [heq]) hrdonly.symm
      . refine hnamed.of_update rfl rfl (by rw [heq]) (by rw [heq]) ?_ ?_
        . rw [heq]
          exact hpublic
        . intro d hd
          exact hpublic d (by simpa [Lmdb.Txn.known, Lmdb.Env.newTxn] using hd)
  | @commit tt i t x ht hcommit hi hx hended hrc =>
    refine ⟨henv.commit hx hrc, ?_, ?_⟩
    . have hown : Owned { s with env := (s.env.commit i x).2 } :=
        howned.of_update rfl hx (Lmdb.Env.commit_txns _ _ _) rfl
      exact hown.touch ht rfl rfl
    . refine hnamed.of_update rfl rfl ?_ (Lmdb.Env.commit_txns _ _ _) ?_ ?_
      . rw [Lmdb.Env.commit_success hrc]
        exact Lmdb.Env.finish_nextDbi _ _ _ _
      . rw [Lmdb.Env.commit_success hrc]
        intro d hd
        rcases List.mem_append.mp hd with hd | hd
        . exact hpublic d hd
        . exact hknown hx (List.mem_append_right _ hd)
      . intro d hd
        exact hknown hx (List.mem_append_left _ (by simpa [Lmdb.Txn.known] using hd))
  | @finish tt i t x st ht hcommit hi hx hst =>
    obtain ⟨y, hy, hrd⟩ := howned.txn tt t i ht hi
    rw [hx] at hy
    cases hy
    refine ⟨henv.finish hx ?_ ?_, howned.of_update rfl hx (Lmdb.Env.finish_txns _ _ _ _) rfl, ?_⟩
    . rintro rfl
      simp at hst
    . intro hwrite hreset
      rw [hrd] at hwrite
      simp [hwrite, hreset] at hst
    . refine hnamed.of_update rfl rfl (Lmdb.Env.finish_nextDbi _ _ _ _) (Lmdb.Env.finish_txns _ _ _ _) ?_ ?_
      . rw [Lmdb.Env.finish_dbis]
        exact hpublic
      . intro d hd
        exact hknown hx (List.mem_append_left _ (by simpa [Lmdb.Txn.known] using hd))
  | put ht hrd hi hx hput hkey =>
    obtain ⟨hrole, hdbis, hopened⟩ := Lmdb.Txn.put_role hput
    refine ⟨henv.setTxn hx hrole hdbis s.env.nextDbi, ?_, ?_⟩
    . exact howned.of_update rfl hx rfl (congrArg (fun r => r.1) hrole)
    . refine hnamed.of_update rfl rfl rfl rfl hpublic ?_
      rw [Lmdb.Txn.known, hdbis, hopened]
      exact fun d hd => hknown hx hd
  | @dbiOpen i id x x' name flags hx hopen =>
    have hrole := Lmdb.Txn.dbiOpen_role hopen
    refine ⟨henv.setTxn hx hrole (Lmdb.Env.dbiOpen_known hopen).2.1 _, ?_, ?_⟩
    . exact howned.of_update rfl hx rfl (congrArg (fun r => r.1) hrole)
    . refine Named.of_new hnamed rfl (?_ : ∀ d, _ → s.Mentions d ∨ d = ⟨s.env.nextDbi, name⟩)
      rintro d (hd | ⟨j, y, hy, hd⟩ | hdb | hpc)
      . exact .inl (.inl hd)
      . change update s.env.txns i (some x') j = some y at hy
        rw [update_apply] at hy
        split at hy
        . cases hy
          obtain hold | hnew := Lmdb.Txn.known_of_dbiOpen hopen hd
          . exact .inl (hknown hx hold)
          . exact .inr hnew
        . exact .inl (hknown hy hd)
      . exact .inl (.inr (.inr (.inl hdb)))
      . exact .inl (.inr (.inr (.inr hpc)))
  | add flags h =>
    refine ⟨henv, ⟨howned.txn, howned.owner⟩, hnamed.of_mentions (Nat.le_refl _) ?_⟩
    rintro d (hd | hd | hdb | hpc)
    . exact .inl hd
    . exact .inr (.inl hd)
    . rw [List.map_append] at hdb
      rcases List.mem_append.mp hdb with hdb | hdb
      . exact .inr (.inr (.inl hdb))
      . cases d
        simp only [List.map_cons, List.map_nil, List.mem_singleton, Prod.mk.injEq] at hdb
        rw [hdb.1, hdb.2]
        exact h
    . exact .inr (.inr (.inr hpc))
  | pc th h =>
    refine ⟨henv, ⟨howned.txn, howned.owner⟩, hnamed.of_mentions (Nat.le_refl _) ?_⟩
    rintro d (hd | hd | hdb | ⟨th', hth'⟩)
    . exact .inl hd
    . exact .inr (.inl hd)
    . exact .inr (.inr (.inl hdb))
    . dsimp only at hth'
      rw [update_apply] at hth'
      split at hth'
      . exact h d hth'
      . exact .inr (.inr (.inr ⟨th', hth'⟩))

theorem Reaches.sound {puts : Bytes → Bytes → Prop} {s s' : Sys} (h : Reaches puts s s') (hs : s.Sound)
    : s'.Sound := by
  induction h with
  | refl => exact hs
  | tail _ heffect ih => exact heffect.sound ih

namespace Sys.Sound

theorem init (limits : Lmdb.Limits) (data : Lmdb.Data) : (Sys.initWith limits data).Sound := by
  refine ⟨⟨⟨fun _ _ => rfl, fun _ _ => nofun⟩, fun _ _ => nofun, fun _ _ => nofun⟩, ⟨fun _ _ _ => nofun, ?_⟩, ?_⟩
  . exact fun _ _ _ _ _ => nofun
  . have hnone : ∀ d, ¬ (Sys.initWith limits data).Mentions d := by
      rintro d (hd | ⟨i, x, hx, -⟩ | hdb | ⟨th, hth⟩)
      . cases hd
      . cases hx
      . cases hdb
      . cases hth
    exact ⟨fun d _ hd => absurd hd (hnone d), fun d hd => absurd hd (hnone d)⟩

theorem of_run {s s' : Sys} {as : List Action} (h : s.Sound) (hrun : Lts.run Sys.step s as = some s') : s'.Sound :=
  Lts.invariant_run (fun _ _ _ hs hstep => (reaches_of_step hstep).sound hs) h hrun

end Sys.Sound

end Db
