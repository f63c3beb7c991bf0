import TrashDb.Lib.Lend
import TrashDb.Lib.Lts
import TrashDb.Db.Lemmas.Begin
import TrashDb.Db.Lemmas.Frame
import TrashDb.Db.Lemmas.Similar

/-!
This module contains the pool of read transactions of a thread. A read transaction is in the pool and reset, or
handed out; `open_db` may reset it for a while, and renews it before it returns.
-/

namespace Db

open Prog Function

def Sys.reads (s : Sys) (th : Nat) : List Nat :=
  (s.out.filter fun p => p.1 == th && (s.tts p.2).any TrashTxn.rd).map Prod.snd

def Sys.txnOf (s : Sys) (tt : Nat) : Option Nat := (s.tts tt).bind TrashTxn.txn

def Pc.reader : Pc → Option Nat
  | .idle => none
  | .begin tt _ _ | .commit tt _ _ _ _ | .renew tt _ _ _ | .publish tt _ _ _ => some tt

def Pc.temp : Pc → Option Nat
  | .commit _ temp _ _ _ => some temp
  | _ => none

/--
The `n` transactions of the thread are in the pool or handed out. There is no other one but the write
transaction `temp` of `open_db`.
-/
structure Kept (th n : Nat) (rdrs : Readers) (temp : Option Nat) (s : Sys) : Prop where
  pool : s.rdrPool th = some rdrs
  capacity : s.capacity = n
  lend : Lend.Conserved n rdrs.txns (s.reads th)
  free : ∀ tt ∈ rdrs.txns, ∃ i, Owns true th tt i .reset s
  lent : ∀ tt ∈ s.reads th, ∃ i st, Owns true th tt i st s ∧ st ≠ .ended
  apart : ∀ tt ∈ rdrs.txns ++ s.reads th, ∀ tt' ∈ rdrs.txns ++ s.reads th, s.txnOf tt = s.txnOf tt' → tt = tt'
  writer : ∀ tt, temp = some tt → ∃ j, Owns false th tt j .active s
  only : ∀ tt, (th, tt) ∈ s.out → tt ∈ s.reads th ∨ temp = some tt

def Lent (th n : Nat) (rdrs : Readers) (temp : Option Nat) (tt : Nat) (s : Sys) : Prop :=
  Kept th n rdrs temp s ∧ tt ∈ s.reads th

theorem mem_reads {s : Sys} {th tt : Nat}
    : tt ∈ s.reads th ↔ (th, tt) ∈ s.out ∧ ∃ t, s.tts tt = some t ∧ t.rd = true := by
  simp only [Sys.reads, List.mem_map, List.mem_filter, Bool.and_eq_true, beq_iff_eq, Option.any_eq_true]
  constructor
  . rintro ⟨⟨th', tt'⟩, ⟨hmem, rfl, ht⟩, rfl⟩
    exact ⟨hmem, ht⟩
  . rintro ⟨hmem, ht⟩
    exact ⟨(th, tt), ⟨hmem, rfl, ht⟩, rfl⟩

theorem Owns.txnOf {s : Sys} {rd : Bool} {th tt i : Nat} {st : Lmdb.TxnState} (h : Owns rd th tt i st s)
    : s.txnOf tt = some i := by
  obtain ⟨t, ht, hcore⟩ := h.core
  simp only [TrashTxn.core, Prod.mk.injEq] at hcore
  rw [Sys.txnOf, ht, Option.bind_some, hcore.1]

theorem Owns.states {s : Sys} {th tt i : Nat} {st : Lmdb.TxnState} (h : Owns true th tt i st s)
    : ∃ t x, s.tts tt = some t ∧
        (t.txn = some i ∧ t.rd = true ∧ t.wr = false ∧ t.dontFin = false ∧ t.commit = false) ∧
        s.env.txns i = some x ∧ x.rdonly = true ∧ x.thread = th ∧ x.state = st := by
  obtain ⟨t, ht, hcore⟩ := h.core
  obtain ⟨x, hx, hrole⟩ := h.role
  simp only [TrashTxn.core, Prod.mk.injEq] at hcore
  simp only [Lmdb.Txn.role, Prod.mk.injEq] at hrole
  obtain ⟨htxn, hrd, hwr, hdontFin, hcommit⟩ := hcore
  rw [hrd, Bool.true_and] at hcommit
  exact ⟨t, x, ht, ⟨htxn, hrd, hwr, hdontFin, hcommit⟩, hx, hrole⟩

theorem internalBeginTxn_pooled {s s' : Sys} {th tt : Nat} {rdrs : Readers} (hpool : s.rdrPool th = some rdrs)
    (hfree : ∀ tt ∈ rdrs.txns, ∃ i, Owns true th tt i .reset s)
    (hrun : (internalBeginTxn th true).run s = .ok tt s')
    : ∃ txns i, rdrs = ⟨rdrs.iCurr, tt :: txns⟩ ∧ Owns true th tt i .reset s ∧
        s' = s.taken th i ⟨rdrs.iCurr, txns⟩ := by
  change (internalGetReadTxn th).run s = _ at hrun
  obtain ⟨c, txns⟩ := rdrs
  cases txns with
  | nil =>
    rw [internalGetReadTxn, bind_of_ok (EStateM.run_get s), hpool] at hrun
    cases hrun
  | cons tt' txns =>
    obtain ⟨i, hi⟩ := hfree tt' List.mem_cons_self
    obtain ⟨t, x, ht, ⟨htxn, hrd, -⟩, hx, hrdonly, -, hreset⟩ := hi.states
    cases hslot : s.env.slots th with
    | some j =>
      obtain ⟨s₀, hbusy⟩ := internalGetReadTxn_busy hpool ht htxn hx hslot
      cases hbusy.symm.trans hrun
    | none =>
      have htaken := internalGetReadTxn_pool hpool ht htxn hx hrdonly hreset hslot
      cases htaken.symm.trans hrun
      exact ⟨txns, i, rfl, hi, rfl⟩

theorem beginTxn_pooled {s s' : Sys} {th : Nat} {rdrs : Readers} {dbname : Bytes} {r : TrashRc × Nat}
    (hpool : s.rdrPool th = some rdrs) (hfree : ∀ tt ∈ rdrs.txns, ∃ i, Owns true th tt i .reset s)
    (hrun : (beginTxn th dbname true).run s = .ok r s')
    : ∃ txns i, rdrs = ⟨rdrs.iCurr, r.2 :: txns⟩ ∧ Owns true th r.2 i .reset s ∧
        (changeTxnDb r.2 dbname).run ((s.taken th i ⟨rdrs.iCurr, txns⟩).handOut th r.2) = .ok r.1 s' := by
  obtain ⟨tt, s₁, hbegin, hrest⟩ := bind_eq_ok.mp hrun
  obtain ⟨_, s₂, hout, hrest⟩ := bind_eq_ok.mp hrest
  obtain ⟨rc, s₃, hchange, hpure⟩ := bind_eq_ok.mp hrest
  cases hpure
  cases hout
  obtain ⟨txns, i, hrdrs, hi, rfl⟩ := internalBeginTxn_pooled hpool hfree hbegin
  exact ⟨txns, i, hrdrs, hi, hchange⟩

theorem reads_congr {s s' : Sys} {th : Nat} (hout : s'.out = s.out)
    (hrd : ∀ tt, (th, tt) ∈ s.out → (s'.tts tt).map TrashTxn.rd = (s.tts tt).map TrashTxn.rd)
    : s'.reads th = s.reads th := by
  rw [Sys.reads, Sys.reads, hout]
  congr 1
  apply List.filter_congr
  rintro ⟨th', tt⟩ hmem
  by_cases hth : th' = th
  . subst hth
    have hany : ∀ o : Option TrashTxn, o.any TrashTxn.rd = (o.map TrashTxn.rd == some true) := by
      intro o
      cases o with
      | none => rfl
      | some t => cases hrd : t.rd <;> simp [hrd]
    rw [hany, hany, hrd tt hmem]
  . simp [beq_eq_false_iff_ne.mpr hth]

namespace Kept

variable {th n tt i : Nat} {rdrs : Readers} {temp : Option Nat} {s : Sys} {st : Lmdb.TxnState}

theorem similar_reads {s' : Sys} (hs : Similar s s') : s'.reads th = s.reads th := by
  refine reads_congr hs.out fun tt _ => ?_
  have hrd := congrArg (Option.map fun c => c.2.1) (hs.tts tt)
  rw [Option.map_map, Option.map_map] at hrd
  exact hrd

theorem mono {s' : Sys} {temp' : Option Nat} (h : Kept th n rdrs temp s) (hpool : s'.rdrPool th = s.rdrPool th)
    (hcapacity : s'.capacity = s.capacity) (hreads : s'.reads th = s.reads th)
    (howns : ∀ {tt i st}, Owns true th tt i st s → Owns true th tt i st s')
    (hwriter : ∀ tt, temp' = some tt → ∃ j, Owns false th tt j .active s')
    (honly : ∀ tt, (th, tt) ∈ s'.out → tt ∈ s.reads th ∨ temp' = some tt)
    : Kept th n rdrs temp' s' := by
  have htxn : ∀ tt ∈ rdrs.txns ++ s.reads th, s'.txnOf tt = s.txnOf tt := by
    intro tt htt
    rcases List.mem_append.mp htt with hmem | hmem
    . obtain ⟨i, hi⟩ := h.free tt hmem
      rw [hi.txnOf, (howns hi).txnOf]
    . obtain ⟨i, st, hi, -⟩ := h.lent tt hmem
      rw [hi.txnOf, (howns hi).txnOf]
  refine ⟨hpool.trans h.pool, hcapacity.trans h.capacity, ?_, ?_, ?_, ?_, hwriter, ?_⟩
  . rw [hreads]
    exact h.lend
  . intro tt htt
    obtain ⟨i, hi⟩ := h.free tt htt
    exact ⟨i, howns hi⟩
  . rw [hreads]
    intro tt htt
    obtain ⟨i, st, hi, hst⟩ := h.lent tt htt
    exact ⟨i, st, howns hi, hst⟩
  . rw [hreads]
    intro tt htt tt' htt' heq
    rw [htxn tt htt, htxn tt' htt'] at heq
    exact h.apart tt htt tt' htt' heq
  . rw [hreads]
    exact honly

theorem robust : Robust (Kept th n rdrs temp) := by
  intro s s' h hs
  refine h.mono (by rw [hs.rdrPool]) hs.capacity (similar_reads hs) (fun hi => Owns.robust s s' hi hs) ?_ ?_
  . intro tt htt
    obtain ⟨j, hj⟩ := h.writer tt htt
    exact ⟨j, Owns.robust s s' hj hs⟩
  . rw [hs.out]
    exact h.only

theorem setPc (h : Kept th n rdrs temp s) (pc : Nat → Pc) : Kept th n rdrs temp { s with pc := pc } := by
  have howns : ∀ {rd tt i st}, Owns rd th tt i st s → Owns rd th tt i st { s with pc := pc } :=
    fun hi => hi.mono rfl rfl (Nat.le_refl _) (Nat.le_refl _)
  refine h.mono rfl rfl rfl howns ?_ h.only
  intro tt htt
  obtain ⟨j, hj⟩ := h.writer tt htt
  exact ⟨j, howns hj⟩

theorem setTxn {e : Lmdb.Env} {y : Lmdb.Txn} {st' : Lmdb.TxnState} (h : Kept th n rdrs temp s)
    (htt : tt ∈ s.reads th) (hi : Owns true th tt i st s) (htxns : e.txns = update s.env.txns i (some y))
    (hrole : y.role = (true, th, st')) (hst : st' ≠ .ended) (hnext : s.env.nextTxn ≤ e.nextTxn)
    : Kept th n rdrs temp { s with env := e } := by
  have hother : ∀ tt' i' st, tt' ≠ tt → tt' ∈ rdrs.txns ++ s.reads th → Owns true th tt' i' st s →
      Owns true th tt' i' st { s with env := e } := by
    intro tt' i' st hne hmem hi'
    refine hi'.setTxn ?_ htxns hnext
    rintro rfl
    exact hne (h.apart tt' hmem tt (List.mem_append_right _ htt) (hi'.txnOf.trans hi.txnOf.symm))
  refine ⟨h.pool, h.capacity, h.lend, ?_, ?_, h.apart, ?_, h.only⟩
  . intro tt' htt'
    obtain ⟨i', hi'⟩ := h.free tt' htt'
    refine ⟨i', hother tt' i' _ ?_ (List.mem_append_left _ htt') hi'⟩
    rintro rfl
    exact h.lend.not_mem_lent htt' htt
  . intro tt' htt'
    by_cases heq : tt' = tt
    . subst heq
      exact ⟨i, st', hi.setState htxns hrole hnext, hst⟩
    . obtain ⟨i', st, hi', hst⟩ := h.lent tt' htt'
      exact ⟨i', st, hother tt' i' st heq (List.mem_append_right _ htt') hi', hst⟩
  . intro tt' htt'
    obtain ⟨j, hj⟩ := h.writer tt' htt'
    exact ⟨j, hj.setTxn (hi.txn_ne hj).symm htxns hnext⟩

theorem relend {rdrs' : Readers} {out : List (Nat × Nat)} {tts : List Nat} (h : Kept th n rdrs temp s)
    (hreads : Sys.reads { s with out := out } th = tts) (hperm : (rdrs'.txns ++ tts).Perm (rdrs.txns ++ s.reads th))
    (hfree : ∀ tt ∈ rdrs'.txns, ∃ i, Owns true th tt i .reset s)
    (honly : ∀ tt, (th, tt) ∈ out → tt ∈ tts ∨ temp = some tt)
    : Kept th n rdrs' temp { s with rdrPool := update s.rdrPool th (some rdrs'), out := out } := by
  have hkeep : ∀ {rd tt i st}, Owns rd th tt i st s →
      Owns rd th tt i st { s with rdrPool := update s.rdrPool th (some rdrs'), out := out } := by
    intro rd tt i st hi
    exact hi.mono rfl rfl (Nat.le_refl _) (Nat.le_refl _)
  have hreads' : Sys.reads { s with rdrPool := update s.rdrPool th (some rdrs'), out := out } th = tts := hreads
  refine ⟨update_self _ _ _, h.capacity, ?_, ?_, ?_, ?_, ?_, ?_⟩
  . rw [hreads']
    exact h.lend.perm hperm
  . intro tt htt
    obtain ⟨i, hi⟩ := hfree tt htt
    exact ⟨i, hkeep hi⟩
  . rw [hreads']
    intro tt htt
    rcases List.mem_append.mp (hperm.mem_iff.mp (List.mem_append_right _ htt)) with hmem | hmem
    . obtain ⟨i, hi⟩ := h.free tt hmem
      exact ⟨i, .reset, hkeep hi, nofun⟩
    . obtain ⟨i, st, hi, hst⟩ := h.lent tt hmem
      exact ⟨i, st, hkeep hi, hst⟩
  . rw [hreads']
    intro tt htt tt' htt' heq
    exact h.apart tt (hperm.mem_iff.mp htt) tt' (hperm.mem_iff.mp htt') heq
  . intro tt htt
    obtain ⟨j, hj⟩ := h.writer tt htt
    exact ⟨j, hkeep hj⟩
  . rw [hreads']
    exact honly

theorem take {c : Nat} {txns : List Nat} (h : Kept th n ⟨c, tt :: txns⟩ temp s)
    : Kept th n ⟨c, txns⟩ temp
        { s with rdrPool := update s.rdrPool th (some ⟨c, txns⟩), out := (th, tt) :: s.out } := by
  obtain ⟨i, hi⟩ := h.free tt List.mem_cons_self
  obtain ⟨t, x, ht, ⟨-, hrd, -⟩, -⟩ := hi.states
  have hreads : Sys.reads { s with out := (th, tt) :: s.out } th = tt :: s.reads th := by
    simp [Sys.reads, ht, hrd]
  refine h.relend hreads List.perm_middle ?_ ?_
  . exact fun tt' htt' => h.free tt' (List.mem_cons_of_mem _ htt')
  . intro tt' htt'
    rcases List.mem_cons.mp htt' with heq | htt'
    . cases heq
      exact .inl List.mem_cons_self
    . exact (h.only tt' htt').imp_left (List.mem_cons_of_mem _)

theorem reads_filter (s : Sys) (th tt : Nat)
    : Sys.reads { s with out := s.out.filter (· != (th, tt)) } th = (s.reads th).filter (· != tt) := by
  rw [Sys.reads, Sys.reads, List.filter_map, List.filter_filter, List.filter_filter]
  congr 1
  apply List.filter_congr
  rintro ⟨th', tt'⟩ -
  by_cases hth : th' = th
  . subst hth
    have hpair : ((th', tt') != (th', tt)) = (tt' != tt) := by
      rw [Bool.eq_iff_iff]
      simp
    simp [hpair, Bool.and_comm]
  . simp [beq_eq_false_iff_ne.mpr hth]

theorem giveBack (h : Kept th n rdrs temp s) (htt : tt ∈ s.reads th) (hi : Owns true th tt i .reset s)
    : Kept th n { rdrs with txns := tt :: rdrs.txns } temp {
        s with
        rdrPool := update s.rdrPool th (some { rdrs with txns := tt :: rdrs.txns })
        out := s.out.filter (· != (th, tt)) } := by
  refine h.relend (reads_filter s th tt) ?_ ?_ ?_
  . exact (Lend.perm_giveBack (List.nodup_append.mp h.lend.nodup).2.1 htt).symm
  . intro tt' htt'
    rcases List.mem_cons.mp htt' with rfl | htt'
    . exact ⟨i, hi⟩
    . exact h.free tt' htt'
  . intro tt' htt'
    obtain ⟨hmem, hne⟩ := List.mem_filter.mp htt'
    refine (h.only tt' hmem).imp_left fun hreads => ?_
    refine List.mem_filter.mpr ⟨hreads, ?_⟩
    simpa using hne

theorem begun (h : Kept th n rdrs none s) (htt : tt ∈ s.reads th)
    : Lent th n rdrs (some s.nextTt) tt ((s.begun th).handOut th s.nextTt) := by
  have hlt : ∀ tt, (th, tt) ∈ s.out → tt < s.nextTt := by
    intro tt htt
    obtain ⟨i, st, hi, -⟩ := h.lent tt ((h.only tt htt).resolve_right nofun)
    exact hi.ttLt
  have hreads : ((s.begun th).handOut th s.nextTt).reads th = s.reads th := by
    calc ((s.begun th).handOut th s.nextTt).reads th
      _ = Sys.reads { s.begun th with out := s.out } th := by simp [Sys.reads, Sys.handOut, Sys.begun]
      _ = s.reads th := by
        refine reads_congr rfl fun tt htt => ?_
        dsimp only [Sys.begun]
        rw [update_of_ne (Nat.ne_of_lt (hlt tt htt))]
  refine ⟨h.mono rfl rfl hreads ?_ ?_ ?_, hreads ▸ htt⟩
  . intro tt i st hi
    refine hi.mono ?_ ?_ (Nat.le_succ _) (Nat.le_succ _)
    . exact update_of_ne (Nat.ne_of_lt hi.ttLt) _ _
    . exact update_of_ne (Nat.ne_of_lt hi.txnLt) _ _
  . rintro _ ⟨⟩
    exact ⟨s.env.nextTxn, ⟨_, begun_tts s th, rfl⟩, ⟨_, update_self _ _ _, rfl⟩, Nat.lt_succ_self _,
      Nat.lt_succ_self _⟩
  . intro tt htt
    rcases List.mem_cons.mp htt with heq | htt
    . cases heq
      exact .inr rfl
    . exact .inl ((h.only tt htt).resolve_right nofun)

theorem ended {j temp : Nat} {e : Lmdb.Env} {y : Lmdb.Txn} {dbs : List OpenDb} {log : List Call}
    (h : Kept th n rdrs (some temp) s) (hj : Owns false th temp j .active s)
    (htxns : e.txns = update s.env.txns j (some y)) (hnext : e.nextTxn = s.env.nextTxn) (htt : tt ∈ s.reads th)
    : Lent th n rdrs none tt {
        s with
        env := e
        dbs := dbs
        tts := update s.tts temp none
        out := s.out.filter (· != (th, temp))
        log := log } := by
  have hnot : temp ∉ s.reads th := by
    intro hmem
    obtain ⟨i, st, hi, -⟩ := h.lent temp hmem
    exact hi.tt_ne hj rfl
  have hreads : Sys.reads {
      s with
      env := e
      dbs := dbs
      tts := update s.tts temp none
      out := s.out.filter (· != (th, temp))
      log := log } th = s.reads th := by
    calc Sys.reads { s with tts := update s.tts temp none, out := s.out.filter (· != (th, temp)) } th
      _ = Sys.reads { s with out := s.out.filter (· != (th, temp)) } th := by
        refine reads_congr rfl fun tt htt => ?_
        obtain ⟨-, hne⟩ := List.mem_filter.mp htt
        dsimp only
        rw [update_of_ne (by simpa using hne)]
      _ = (s.reads th).filter (· != temp) := reads_filter s th temp
      _ = s.reads th := by
        refine List.filter_eq_self.mpr fun tt htt => ?_
        rw [bne_iff_ne]
        rintro rfl
        exact hnot htt
  refine ⟨h.mono rfl rfl hreads ?_ nofun ?_, hreads ▸ htt⟩
  . intro tt i st hi
    refine hi.mono ?_ ?_ (Nat.le_refl _) (Nat.le_of_eq hnext.symm)
    . exact update_of_ne (hi.tt_ne hj) _ _
    . dsimp only
      rw [htxns, update_of_ne (hi.txn_ne hj)]
  . intro tt htt
    obtain ⟨hmem, hne⟩ := List.mem_filter.mp htt
    refine .inl ((h.only tt hmem).resolve_right ?_)
    rintro ⟨⟩
    simp at hne

theorem alike {s' : Sys} (h : Kept th n rdrs temp s) (hs : Alike s s') : Kept th n rdrs temp s' :=
  robust s s' h (.of_alike hs)

theorem reader {t : TrashTxn} (h : Kept th n rdrs temp s) (htt : tt ∈ s.reads th) (ht : s.tts tt = some t)
    : ∃ i x, (t.txn = some i ∧ t.rd = true ∧ t.wr = false ∧ t.dontFin = false ∧ t.commit = false) ∧
        s.env.txns i = some x ∧ x.rdonly = true ∧ x.thread = th ∧ x.state ≠ .ended ∧
        Owns true th tt i x.state s := by
  obtain ⟨i, st, hi, hst⟩ := h.lent tt htt
  obtain ⟨t', x, ht', hfields, hx, hrdonly, hthread, rfl⟩ := hi.states
  cases ht.symm.trans ht'
  exact ⟨i, x, hfields, hx, hrdonly, hthread, hst, hi⟩

theorem taken {c : Nat} {txns : List Nat} (h : Kept th n ⟨c, tt :: txns⟩ temp s) (hi : Owns true th tt i .reset s)
    : Kept th n ⟨c, txns⟩ temp ((s.taken th i ⟨c, txns⟩).handOut th tt) := by
  obtain ⟨t, x, ht, ⟨-, hrd, -⟩, -⟩ := hi.states
  have hmem : tt ∈ Sys.reads
      { s with rdrPool := update s.rdrPool th (some ⟨c, txns⟩), out := (th, tt) :: s.out } th :=
    mem_reads.mpr ⟨List.mem_cons_self, t, ht, hrd⟩
  have hrole : (s.env.newTxn th true).role = (true, th, .active) := rfl
  have htaken := h.take.setTxn (e := (s.taken th i ⟨c, txns⟩).env) hmem
    (hi.mono rfl rfl (Nat.le_refl _) (Nat.le_refl _)) rfl hrole nofun (Nat.le_refl _)
  exact robust _ _ htaken (.log _ (.txnRenew false))

theorem beginTxn {dbname : Bytes} {r : TrashRc × Nat} {s' : Sys} (h : Kept th n rdrs temp s)
    (hrun : (beginTxn th dbname true).run s = .ok r s')
    : ∃ rdrs', Kept th n rdrs' temp s' := by
  obtain ⟨txns, i, hrdrs, hi, hchange⟩ := beginTxn_pooled h.pool h.free hrun
  rw [hrdrs] at h
  exact ⟨⟨rdrs.iCurr, txns⟩, (h.taken hi).alike ((Alike.changeTxnDb r.2 dbname).of_run hchange)⟩

theorem internalBeginTxn {s' : Sys} (h : Kept th n rdrs temp s)
    (hrun : (internalBeginTxn th true).run s = .ok tt s')
    : ∃ rdrs', Kept th n rdrs' temp (s'.handOut th tt) := by
  obtain ⟨txns, i, hrdrs, hi, rfl⟩ := internalBeginTxn_pooled h.pool h.free hrun
  rw [hrdrs] at h
  exact ⟨_, h.taken hi⟩

theorem finish {x : Lmdb.Txn} (h : Kept th n rdrs temp s) (htt : tt ∈ s.reads th) (hi : Owns true th tt i st s)
    (hrdonly : x.rdonly = true) (hthread : x.thread = th)
    : Kept th n rdrs temp { s with env := s.env.finish i x .reset } ∧
        Owns true th tt i .reset { s with env := s.env.finish i x .reset } := by
  have htxns := Lmdb.Env.finish_txns s.env i x .reset
  have hrole : Lmdb.Txn.role { x with state := .reset, opened := [] } = (true, th, .reset) := by
    rw [Lmdb.Txn.role, hrdonly, hthread]
  have hnext := Nat.le_of_eq (Lmdb.Env.finish_nextTxn s.env i x .reset).symm
  exact ⟨h.setTxn htt hi htxns hrole (by simp) hnext, hi.setState htxns hrole hnext⟩

theorem returnTxn {u : Unit} {s' : Sys} (h : Kept th n rdrs temp s) (htt : tt ∈ s.reads th)
    (hrun : (returnTxn th tt).run s = .ok u s')
    : ∃ rdrs', Kept th n rdrs' temp s' := by
  obtain ⟨-, t, ht, -⟩ := mem_reads.mp htt
  obtain ⟨i, x, ⟨htxn, hrd, hwr, hdontFin, hcommit⟩, hx, hrdonly, hthread, hended, hi⟩ := h.reader htt ht
  have hroom : rdrs.txns.length < s.capacity := by
    rw [h.capacity]
    exact h.lend.length_lt htt
  rw [returnTxn_pooled th ht hrd hwr hcommit htxn hx hended hdontFin h.pool hroom] at hrun
  obtain ⟨-, rfl⟩ := releaseDb_cases hrun
  rw [hwr, if_neg (by simp)]
  obtain ⟨hreset, hi'⟩ := h.finish htt hi hrdonly hthread
  have hback := hreset.giveBack htt hi'
  have hlogged := robust _ _ hback (.log _ (.access (x.state == .active)))
  exact ⟨_, hlogged.alike (Alike.setCount _ (t.db.getD 0) fun db => Word.sub32 db.count 1)⟩

end Kept

def Conserving (th n : Nat) (s : Sys) : Prop :=
  ∃ rdrs, Kept th n rdrs (s.pc th).temp s ∧ ∀ tt, (s.pc th).reader = some tt → tt ∈ s.reads th

namespace Lent

variable {th n tt : Nat} {rdrs : Readers} {temp : Option Nat} {dbname : Bytes}

theorem robust : Robust (Lent th n rdrs temp tt) := by
  rintro s s' ⟨h, htt⟩ hs
  refine ⟨Kept.robust s s' h hs, ?_⟩
  rw [Kept.similar_reads hs]
  exact htt

theorem setPc {pc : Pc} (hreader : pc.reader = some tt) (htemp : pc.temp = temp)
    : Returns (Lent th n rdrs temp tt) (setPc th pc) (fun _ => Conserving th n) := by
  refine spec_modify _ fun s ⟨h, htt⟩ => ⟨rdrs, ?_, ?_⟩
  . dsimp only
    rw [update_self, htemp]
    exact h.setPc _
  . dsimp only
    rw [update_self, hreader]
    rintro _ ⟨⟩
    exact htt

theorem openDbi_found (flags dbMeta : BitVec 32)
    : Returns (Lent th n rdrs none tt) (openDbi th tt tt dbname flags dbMeta) (fun _ => Conserving th n) := by
  refine spec_bind (robust.of_alike (Alike.derefTt tt)) fun t => ?_
  refine spec_bind (robust.mdbDbiOpen t.txn dbname flags) fun res => ?_
  split
  . exact spec_throw _ fun _ _ => trivial
  . split
    . refine spec_bind (Q := fun rc s => Lent th n rdrs none tt s ∧ rc = none) (putRecord_spec fun answer => ?_)
        fun rc => ?_
      . refine spec_bind (derefTt_spec tt fun _ _ => trivial) fun t' => ?_
        split
        . exact spec_pure _ fun s hs => ⟨hs.1, rfl⟩
        . next hrd =>
          intro s ⟨⟨h, htt⟩, ht⟩
          obtain ⟨_, _, ⟨-, hrd', -⟩, -⟩ := h.reader htt ht
          exact absurd hrd' hrd
      . refine spec_assume ?_
        rintro rfl
        exact spec_bind (Q := fun _ _ => False) (spec_ensure _ _ (fun _ _ => nofun) fun _ _ _ => trivial)
          fun _ => spec_false
    . exact setPc rfl rfl

theorem reset {t : TrashTxn} (flags : BitVec 32)
    : Returns (fun s => Lent th n rdrs none tt s ∧ s.tts tt = some t)
        (do setTt tt { t with dontFin := true }; returnTxn th tt; Db.setPc th (.begin tt dbname flags))
        (fun _ => Conserving th n) := by
  apply returns_iff.mpr
  intro s u s' ⟨⟨h, htt⟩, ht⟩ hrun
  obtain ⟨i, x, ⟨htxn, hrd, hwr, hdontFin, hcommit⟩, hx, hrdonly, hthread, hended, hi⟩ := h.reader htt ht
  have hkept := returnTxn_kept (s := { s with tts := update s.tts tt (some { t with dontFin := true }) }) th
    (update_self _ _ _) hrd hwr hcommit htxn hx hended rfl
  rw [setTt, bind_of_ok (EStateM.run_modify _ _), bind_of_ok hkept] at hrun
  have hset : Returns (Lent th n rdrs none tt) (Db.setPc th (.begin tt dbname flags)) (fun _ => Conserving th n) :=
    setPc rfl rfl
  refine hset.of_run ?_ hrun
  have htts : update (update s.tts tt (some { t with dontFin := true })) tt (some { t with dontFin := false }) =
      s.tts := by
    rw [update_idem, ← hdontFin]
    exact (congrArg (update s.tts tt) ht.symm).trans (update_eq_self tt s.tts)
  dsimp only
  rw [htts]
  have hlent : Lent th n rdrs none tt { s with env := s.env.finish i x .reset } :=
    ⟨(h.finish htt hi hrdonly hthread).1, htt⟩
  exact robust _ _ hlent (.log _ (.access (x.state == .active)))

theorem openDb (flags : BitVec 32)
    : Returns (Lent th n rdrs none tt) (openDb th tt dbname flags) (fun _ => Conserving th n) := by
  refine spec_bind (robust.of_alike (Alike.changeTxnDb tt metadata)) fun _ => ?_
  refine spec_bind (robust.of_alike (Alike.trashGet tt dbname)) fun res => ?_
  split
  . split
    . exact spec_throw _ fun _ _ => trivial
    . exact openDbi_found _ _
  . refine spec_bind (derefTt_spec tt fun _ _ => trivial) fun t => ?_
    split
    . exact reset _
    . next hrd =>
      intro s ⟨⟨h, htt⟩, ht⟩
      obtain ⟨_, _, ⟨-, hrd', -⟩, -⟩ := h.reader htt ht
      exact absurd hrd' hrd
  . exact spec_throw _ fun _ _ => trivial

theorem returnTemp {temp : Nat}
    : Returns (Lent th n rdrs (some temp) tt) (returnTxn th temp) (fun _ => Lent th n rdrs none tt) := by
  apply returns_iff.mpr
  intro s u s' ⟨h, htt⟩ hrun
  obtain ⟨j, hj⟩ := h.writer temp rfl
  obtain ⟨t, ht, hcore⟩ := hj.core
  obtain ⟨y, hy, hrole⟩ := hj.role
  simp only [TrashTxn.core, Prod.mk.injEq] at hcore
  simp only [Lmdb.Txn.role, Prod.mk.injEq] at hrole
  obtain ⟨e, l, hend, -, rfl⟩ := returnTxn_write ht hcore.2.1 hcore.2.2.1 hcore.1 hy hrole.2.2 hrun
  have henv : e.txns = update s.env.txns j (some { y with state := .ended, opened := [] }) ∧
      e.nextTxn = s.env.nextTxn := by
    rcases hend with ⟨_, _, rfl⟩ | ⟨_, rfl⟩
    . exact ⟨Lmdb.Env.commit_txns _ _ _, Lmdb.Env.commit_nextTxn _ _ _⟩
    . exact ⟨Lmdb.Env.finish_txns _ _ _ _, Lmdb.Env.finish_nextTxn _ _ _ _⟩
  exact h.ended hj henv.1 henv.2 htt

theorem mdbTxnRenew {t : TrashTxn}
    : Returns (fun s => Lent th n rdrs none tt s ∧ s.tts tt = some t) (mdbTxnRenew th t.txn)
        (fun _ => Lent th n rdrs none tt) := by
  apply returns_iff.mpr
  intro s rc s' ⟨⟨h, htt⟩, ht⟩ hrun
  obtain ⟨i, x, ⟨htxn, -⟩, hx, -, -, -, hi⟩ := h.reader htt ht
  have hrenew : (Db.mdbTxnRenew th (some i)).run s = .ok (s.env.renew th i x).1
      { s with env := (s.env.renew th i x).2, log := s.log ++ [.txnRenew (s.env.slots th).isSome] } := by
    simp [Db.mdbTxnRenew, hx, call, setEnv]
  rw [htxn, hrenew] at hrun
  cases hrun
  have hlent : Lent th n rdrs none tt { s with env := (s.env.renew th i x).2 } := by
    unfold Lmdb.Env.renew
    split
    . split
      . exact ⟨h, htt⟩
      . exact ⟨h.setTxn htt hi rfl rfl (by simp [Lmdb.Env.newTxn]) (Nat.le_refl _), htt⟩
    . exact ⟨h, htt⟩
  exact robust _ _ hlent (.log _ (.txnRenew (s.env.slots th).isSome))

theorem beginTemp
    : Returns (Lent th n rdrs none tt) (beginTxn th dbname false) (fun r => Lent th n rdrs (some r.2) tt) := by
  apply returns_iff.mpr
  intro s r s' ⟨h, htt⟩ hrun
  cases hwriter : s.env.writer with
  | some j =>
    rw [beginTxn, bind_of_error (internalBeginTxn_busy hwriter)] at hrun
    cases hrun
  | none =>
    rw [beginTxn, bind_of_ok (internalBeginTxn_write hwriter), bind_of_ok (EStateM.run_modify _ _)] at hrun
    obtain ⟨rc, s₁, hchange, hpure⟩ := bind_eq_ok.mp hrun
    cases hpure
    exact robust _ _ (h.begun htt) (.of_alike ((Alike.changeTxnDb _ dbname).of_run hchange))

theorem openDbi_create {temp : Nat} (flags dbMeta : BitVec 32)
    : Returns (Lent th n rdrs (some temp) tt) (openDbi th tt temp dbname (flags ||| mdbCreate) dbMeta)
        (fun _ => Conserving th n) := by
  refine spec_bind (robust.of_alike (Alike.derefTt temp)) fun t => ?_
  refine spec_bind (robust.mdbDbiOpen t.txn dbname _) fun res => ?_
  split
  . exact spec_throw _ fun _ _ => trivial
  . rw [if_pos (or_mdbCreate flags)]
    refine spec_bind (robust.of_alike (Alike.putRecord temp _ _ _)) fun rc => ?_
    refine spec_bind (robust.of_alike (extends_ensure _ _)) fun _ => ?_
    intro s hs
    obtain ⟨j, hj⟩ := hs.1.writer temp rfl
    obtain ⟨i, st, hi, -⟩ := hs.1.lent tt hs.2
    dsimp only
    rw [if_pos (hi.tt_ne hj).symm]
    exact setPc rfl rfl s hs

theorem publish (id : Nat) (flags : BitVec 32)
    : Returns (Lent th n rdrs none tt)
        (do
          let db ← internalAddDb dbname id flags
          let t ← derefTt tt
          setTt tt { t with db := some db }
          Db.setPc th .idle)
        (fun _ => Conserving th n) := by
  refine spec_bind (Q := fun _ => Lent th n rdrs none tt) ?_ fun db => ?_
  . refine returns_iff.mpr fun s _ s' hs hrun => ?_
    cases hrun
    exact robust s _ hs (.addDb s _)
  refine spec_bind (derefTt_spec tt fun _ _ => trivial) fun t => ?_
  refine spec_bind (Q := fun _ => Lent th n rdrs none tt) (spec_modify _ ?_) fun _ => ?_
  . rintro s ⟨hs, ht⟩
    exact robust s _ hs (.of_alike (Alike.setTt ht rfl))
  . refine spec_modify _ fun s ⟨h, _⟩ => ⟨rdrs, ?_, ?_⟩
    . dsimp only
      rw [update_self]
      exact h.setPc _
    . dsimp only
      rw [update_self]
      nofun

end Lent

/--
A call of the thread that the law is about.
-/
def Action.usesReaders (th : Nat) : Action → Bool
  | .beginTxn th' _ rd | .internalBeginTxn th' rd => th' == th && rd
  | .changeTxnDb th' _ _ | .openDb th' _ _ _ | .resume th' | .trashGet th' _ _ | .trashPut th' _ _ _ _ _
  | .returnTxn th' _ => th' == th
  | _ => false

namespace Conserving

variable {th n : Nat} {s s' : Sys}

theorem openDbResume {u : Unit} (h : Conserving th n s) (hrun : (openDbResume th).run s = .ok u s')
    : Conserving th n s' := by
  obtain ⟨rdrs, hkept, hreader⟩ := h
  rw [Db.openDbResume, bind_of_ok (EStateM.run_get s)] at hrun
  cases hpc : s.pc th with
  | idle =>
    rw [hpc] at hrun
    cases hrun
  | begin tt dbname flags =>
    rw [hpc] at hrun hkept hreader
    refine Returns.of_run (P := Lent th n rdrs none tt) (Q := fun _ => Conserving th n) ?_
      ⟨hkept, hreader tt rfl⟩ hrun
    exact spec_bind Lent.beginTemp fun r => Lent.openDbi_create _ _
  | commit tt temp dbname id dbMeta =>
    rw [hpc] at hrun hkept hreader
    refine Returns.of_run (P := Lent th n rdrs (some temp) tt) (Q := fun _ => Conserving th n) ?_
      ⟨hkept, hreader tt rfl⟩ hrun
    exact spec_bind Lent.returnTemp fun _ => Lent.setPc rfl rfl
  | renew tt dbname id dbMeta =>
    rw [hpc] at hrun hkept hreader
    refine Returns.of_run (P := Lent th n rdrs none tt) (Q := fun _ => Conserving th n) ?_
      ⟨hkept, hreader tt rfl⟩ hrun
    refine spec_bind (derefTt_spec tt fun _ _ => trivial) fun t => ?_
    exact spec_bind Lent.mdbTxnRenew fun _ => Lent.setPc rfl rfl
  | publish tt dbname id dbMeta =>
    rw [hpc] at hrun hkept hreader
    exact (Lent.publish id dbMeta).of_run ⟨hkept, hreader tt rfl⟩ hrun

theorem lent {tt : Nat} (h : Conserving th n s) (hidle : s.pc th = .idle) (hout : (th, tt) ∈ s.out)
    : ∃ rdrs, Lent th n rdrs none tt s := by
  obtain ⟨rdrs, hkept, -⟩ := h
  rw [hidle] at hkept
  exact ⟨rdrs, hkept, (hkept.only tt hout).resolve_right nofun⟩

theorem of_idle {rdrs : Readers} (h : Kept th n rdrs none s) (hidle : s.pc th = .idle) : Conserving th n s := by
  refine ⟨rdrs, ?_, ?_⟩
  . rw [hidle]
    exact h
  . rw [hidle]
    nofun

theorem alike (h : Conserving th n s) (hs : Alike s s') : Conserving th n s' := by
  obtain ⟨rdrs, hkept, hreader⟩ := h
  refine ⟨rdrs, ?_, ?_⟩
  . rw [hs.pc]
    exact hkept.alike hs
  . rw [hs.pc, Kept.similar_reads (.of_alike hs)]
    exact hreader

theorem step {a : Action} (h : Conserving th n s) (ha : a.usesReaders th = true) (hstep : s.step a = some s')
    : Conserving th n s' := by
  obtain ⟨r, hrun⟩ := exec_of_step hstep
  cases a with
  | beginTxn th' dbname rd =>
    obtain ⟨rfl, rfl⟩ : th' = th ∧ rd = true := by simpa [Action.usesReaders] using ha
    have hpc := ((CursorFrame.exec (R := Framed) rfl).of_run hrun).pc
    obtain ⟨hidle, hrest⟩ := ready_bind_eq_ok.mp hrun
    obtain ⟨p, s₁, hbegin, hpure⟩ := bind_eq_ok.mp hrest
    cases hpure
    obtain ⟨rdrs, hkept, -⟩ := h
    rw [hidle] at hkept
    obtain ⟨rdrs', hkept'⟩ := hkept.beginTxn hbegin
    exact of_idle hkept' (by rw [hpc, hidle])
  | internalBeginTxn th' rd =>
    obtain ⟨rfl, rfl⟩ : th' = th ∧ rd = true := by simpa [Action.usesReaders] using ha
    have hpc := ((CursorFrame.exec (R := Framed) rfl).of_run hrun).pc
    obtain ⟨hidle, hrest⟩ := ready_bind_eq_ok.mp hrun
    obtain ⟨tt, s₁, hbegin, hrest⟩ := bind_eq_ok.mp hrest
    obtain ⟨_, s₂, hout, hpure⟩ := bind_eq_ok.mp hrest
    cases hpure
    cases hout
    obtain ⟨rdrs, hkept, -⟩ := h
    rw [hidle] at hkept
    obtain ⟨rdrs', hkept'⟩ := hkept.internalBeginTxn hbegin
    exact of_idle hkept' (by rw [← hidle, ← hpc])
  | returnTxn th' tt =>
    obtain rfl : th' = th := by simpa [Action.usesReaders] using ha
    have hpc := ((CursorFrame.exec (R := Framed) rfl).of_run hrun).pc
    obtain ⟨hidle, hout, hrest⟩ := holds_bind_eq_ok.mp hrun
    obtain ⟨_, s₁, hreturn, hpure⟩ := bind_eq_ok.mp hrest
    cases hpure
    obtain ⟨rdrs, hkept, htt⟩ := h.lent hidle hout
    obtain ⟨rdrs', hkept'⟩ := hkept.returnTxn htt hreturn
    exact of_idle hkept' (by rw [hpc, hidle])
  | openDb th' tt dbname flags =>
    obtain rfl : th' = th := by simpa [Action.usesReaders] using ha
    obtain ⟨hidle, hout, hrest⟩ := holds_bind_eq_ok.mp hrun
    obtain ⟨_, s₁, hopen, hpure⟩ := bind_eq_ok.mp hrest
    cases hpure
    obtain ⟨rdrs, hlent⟩ := h.lent hidle hout
    exact (Lent.openDb flags).of_run hlent hopen
  | resume th' =>
    obtain rfl : th' = th := by simpa [Action.usesReaders] using ha
    obtain ⟨_, s₁, hresume, hpure⟩ := bind_eq_ok.mp hrun
    cases hpure
    exact h.openDbResume hresume
  | changeTxnDb th' tt dbname =>
    refine h.alike (Extends.of_run (R := Alike) ?_ hrun)
    exact extends_bind (Alike.holds th' tt) fun _ =>
      extends_bind (Alike.changeTxnDb tt dbname) fun _ => extends_pure _
  | trashGet th' tt key =>
    refine h.alike (Extends.of_run (R := Alike) ?_ hrun)
    exact extends_bind (Alike.holds th' tt) fun _ => extends_bind (Alike.trashGet tt key) fun _ => extends_pure _
  | trashPut th' tt key val flags answer =>
    refine h.alike (Extends.of_run (R := Alike) ?_ hrun)
    refine extends_bind (Alike.holds th' tt) fun _ => ?_
    exact extends_bind (Alike.trashPut tt key val flags answer) fun _ => extends_pure _
  | _ => cases ha

end Conserving

/--
The thread has a pool of `n` distinct read transactions that are reset, and no transaction.
-/
structure FullPool (th n : Nat) (rdrs : Readers) (s : Sys) : Prop where
  pool : s.rdrPool th = some rdrs
  capacity : s.capacity = n
  length : rdrs.txns.length = n
  nodup : rdrs.txns.Nodup
  reset : ∀ tt ∈ rdrs.txns, ∃ i, Owns true th tt i .reset s
  apart : ∀ tt ∈ rdrs.txns, ∀ tt' ∈ rdrs.txns, s.txnOf tt = s.txnOf tt' → tt = tt'
  out : ∀ tt, (th, tt) ∉ s.out
  idle : s.pc th = .idle

theorem FullPool.conserving {th n : Nat} {rdrs : Readers} {s : Sys} (h : FullPool th n rdrs s)
    : Conserving th n s := by
  have hreads : s.reads th = [] := by
    rw [List.eq_nil_iff_forall_not_mem]
    intro tt htt
    exact h.out tt (mem_reads.mp htt).1
  suffices hkept : Kept th n rdrs none s from Conserving.of_idle hkept h.idle
  refine ⟨h.pool, h.capacity, ?_, h.reset, ?_, ?_, nofun, ?_⟩
  . rw [hreads, ← h.length]
    exact ⟨by simpa using h.nodup, by simp⟩
  . rw [hreads]
    nofun
  . rw [hreads, List.append_nil]
    exact h.apart
  . exact fun tt htt => absurd htt (h.out tt)

/--
The transactions in the pool are distinct, reset and not handed out, and with those that are handed out there
are `n`. None is marked for a commit or has ended, and there is room in the pool for each one to come back.
-/
structure ReadersConserved (th n : Nat) (rdrs : Readers) (s : Sys) : Prop where
  pool : s.rdrPool th = some rdrs
  nodup : rdrs.txns.Nodup
  reset : ∀ tt ∈ rdrs.txns, ∃ t i x, s.tts tt = some t ∧ t.txn = some i ∧ s.env.txns i = some x ∧ x.state = .reset
  notOut : ∀ tt ∈ rdrs.txns, (th, tt) ∉ s.out
  count : rdrs.txns.length + (s.reads th).length = n
  uncommitted : ∀ tt ∈ rdrs.txns ++ s.reads th, ∃ t i x, s.tts tt = some t ∧ t.rd = true ∧ t.commit = false ∧
    t.txn = some i ∧ s.env.txns i = some x ∧ x.state ≠ .ended
  room : ∀ tt ∈ s.reads th, rdrs.txns.length < s.capacity

theorem Kept.readersConserved {th n : Nat} {rdrs : Readers} {temp : Option Nat} {s : Sys}
    (h : Kept th n rdrs temp s)
    : ReadersConserved th n rdrs s := by
  refine ⟨h.pool, (List.nodup_append.mp h.lend.nodup).1, ?_, ?_, ?_, ?_, ?_⟩
  . intro tt htt
    obtain ⟨i, hi⟩ := h.free tt htt
    obtain ⟨t, x, ht, ⟨htxn, -⟩, hx, -, -, hreset⟩ := hi.states
    exact ⟨t, i, x, ht, htxn, hx, hreset⟩
  . intro tt htt hout
    rcases h.only tt hout with hmem | htemp
    . exact h.lend.not_mem_lent htt hmem
    . obtain ⟨i, hi⟩ := h.free tt htt
      obtain ⟨j, hj⟩ := h.writer tt htemp
      exact hi.tt_ne hj rfl
  . rw [← List.length_append]
    exact h.lend.length
  . intro tt htt
    rcases List.mem_append.mp htt with hmem | hmem
    . obtain ⟨i, hi⟩ := h.free tt hmem
      obtain ⟨t, x, ht, ⟨htxn, hrd, -, -, hcommit⟩, hx, -, -, hreset⟩ := hi.states
      exact ⟨t, i, x, ht, hrd, hcommit, htxn, hx, by rw [hreset]; nofun⟩
    . obtain ⟨i, st, hi, hst⟩ := h.lent tt hmem
      obtain ⟨t, x, ht, ⟨htxn, hrd, -, -, hcommit⟩, hx, -, -, rfl⟩ := hi.states
      exact ⟨t, i, x, ht, hrd, hcommit, htxn, hx, hst⟩
  . intro tt htt
    rw [h.capacity]
    exact h.lend.length_lt htt

theorem readersConserved_of_run {th n : Nat} {rdrs : Readers} {s s' : Sys} {as : List Action}
    (h : FullPool th n rdrs s) (has : ∀ a ∈ as, a.usesReaders th = true) (hrun : Lts.run Sys.step s as = some s')
    : ∃ rdrs', ReadersConserved th n rdrs' s' := by
  have hstep : ∀ s a s', Conserving th n s → a.usesReaders th = true → Sys.step s a = some s' → Conserving th n s' :=
    fun _ _ _ => Conserving.step
  obtain ⟨rdrs', hkept, -⟩ := Lts.invariant_along hstep h.conserving (Lts.along_of_forall has) hrun
  exact ⟨rdrs', hkept.readersConserved⟩

def twoReaders : Sys :=
  {
    Sys.init [(metadata, [])] with
    env := {
      (Sys.init [(metadata, [])]).env with
      dbis := [⟨0, metadata⟩]
      nextDbi := 1
      nextTxn := 2
      txns := update (update (fun _ => none)
        0 (some ⟨true, 0, .reset, false, [], [], []⟩)) 1 (some ⟨true, 0, .reset, false, [], [], []⟩)
    }
    dbs := [⟨metadata, metadataFlags, 0, 0⟩]
    tts := update (update (fun _ => none)
      0 (some ⟨some 0, true, false, false, false, none⟩)) 1 (some ⟨some 1, true, false, false, false, none⟩)
    nextTt := 2
    rdrPool := update (fun _ => none) 0 (some ⟨0, [0, 1]⟩)
    capacity := 2
  }

def openingFromPool : List Action :=
  [.beginTxn 0 metadata true, .openDb 0 0 [0x61] 0, .resume 0, .resume 0, .resume 0, .resume 0, .returnTxn 0 0]

theorem twoReaders_full : FullPool 0 2 ⟨0, [0, 1]⟩ twoReaders := by
  refine ⟨rfl, rfl, rfl, by decide, ?_, by decide, nofun, rfl⟩
  intro tt htt
  simp only [List.mem_cons, List.not_mem_nil, or_false] at htt
  rcases htt with rfl | rfl
  . exact ⟨0, ⟨_, rfl, rfl⟩, ⟨_, rfl, rfl⟩, by decide, by decide⟩
  . exact ⟨1, ⟨_, rfl, rfl⟩, ⟨_, rfl, rfl⟩, by decide, by decide⟩

theorem readersConserved_open_db
    : FullPool 0 2 ⟨0, [0, 1]⟩ twoReaders ∧
        ∃ s' rdrs, Lts.run Sys.step twoReaders openingFromPool = some s' ∧ ReadersConserved 0 2 rdrs s' := by
  have hsome : (Lts.run Sys.step twoReaders openingFromPool).isSome = true := by decide +kernel
  obtain ⟨s', hrun⟩ := Option.isSome_iff_exists.mp hsome
  obtain ⟨rdrs, hs'⟩ := readersConserved_of_run twoReaders_full (by decide) hrun
  exact ⟨twoReaders_full, s', rdrs, hrun, hs'⟩

end Db
