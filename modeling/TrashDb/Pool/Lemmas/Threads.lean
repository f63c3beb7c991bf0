import TrashDb.Pool.Lemmas.Groups

/-!
This module contains how the state, the task and the place of a thread go with the two lists of its
group. A thread is idle from the section in which it joins the list of idle threads until somebody
wakes it up. In between it is in that list, or a `do_work` has taken it out and is about to hand it a
work. Nobody else writes to its task, which is `NULL` then.
-/

namespace Pool

open Function

def Keeps {α : Type} (f : TGroup → α) (s s' : Sys) : Prop :=
  ∀ g tg', s'.groups g = some tg' → ∃ tg, s.groups g = some tg ∧ f tg' = f tg

section

variable {α : Type} {f : TGroup → α} {s s' : Sys} {g : Nat}

theorem keeps_of_eq (hgroups : s'.groups = s.groups) : Keeps f s s' := by
  intro i tg hi
  rw [hgroups] at hi
  exact ⟨tg, hi, rfl⟩

theorem keeps_setGroup {tg tg' : TGroup} (hgroups : s'.groups = update s.groups g (some tg'))
    (hg : s.groups g = some tg) (hf : f tg' = f tg)
    : Keeps f s s' := by
  intro i tgi hi
  rw [hgroups, update_apply] at hi
  split at hi
  . next heq =>
    cases hi
    exact ⟨tg, heq ▸ hg, hf⟩
  . exact ⟨tgi, hi, rfl⟩

theorem keeps_freeGroup (hgroups : s'.groups = update s.groups g none) : Keeps f s s' := by
  intro i tgi hi
  rw [hgroups, update_apply] at hi
  split at hi
  . cases hi
  . exact ⟨tgi, hi, rfl⟩

end

theorem setGroup_cases {s s' : Sys} {g : Nat} {tg' : TGroup} (hgroups : s'.groups = update s.groups g (some tg'))
    {i : Nat} {tgi : TGroup} (hi : s'.groups i = some tgi)
    : (i = g ∧ tgi = tg') ∨ (i ≠ g ∧ s.groups i = some tgi) := by
  rw [hgroups, update_apply] at hi
  split at hi
  . next heq =>
    cases hi
    exact .inl ⟨heq, rfl⟩
  . next hne => exact .inr ⟨hne, hi⟩

theorem setThrd_cases {s s' : Sys} {t : Nat} {o : Option TThread} (hthrds : s'.thrds = update s.thrds t o)
    {i : Nat} {tti : TThread} (hi : s'.thrds i = some tti)
    : (i = t ∧ o = some tti) ∨ (i ≠ t ∧ s.thrds i = some tti) := by
  rw [hthrds, update_apply] at hi
  split at hi
  . next heq => exact .inl ⟨heq, hi⟩
  . next hne => exact .inr ⟨hne, hi⟩

def TGroup.lists (tg : TGroup) : LL Nat × LL Nat := (tg.idleThrds, tg.activeThrds)

def TThread.Ok (tt : TThread) : Prop :=
  match tt.pc with
  | .top => tt.state = .running
  | .call w | .inFunc w | .ret w => tt.state = .running ∧ tt.currTask = some w
  | .grp | .leave => tt.state = .running ∧ tt.currTask = none
  | .decr | .sleep => tt.state = .idle ∧ tt.currTask = none
  | .blocked => tt.state = .running ∨ (tt.state = .idle ∧ tt.currTask = none)

theorem TThread.Ok.currTask_of_idle {tt : TThread} (h : tt.Ok) (hidle : tt.state = .idle)
    : tt.currTask = none := by
  unfold TThread.Ok at h
  split at h <;> simp_all

theorem TThread.Ok.running_of_currTask {tt : TThread} {w : Nat} (h : tt.Ok)
    (hw : tt.currTask = some w)
    : tt.state = .running := by
  unfold TThread.Ok at h
  split at h <;> simp_all

theorem TThread.Ok.blocked_of_idle {tt : TThread} (h : tt.Ok) (hidle : tt.state = .idle)
    (hlock : tt.pc.locked = false)
    : tt.pc = .blocked := by
  unfold TThread.Ok at h
  split at h <;> simp_all [WorkerPc.locked]

def Parked (s : Sys) (g t : Nat) : Prop := ∃ tt, s.thrds t = some tt ∧ tt.tg = g ∧ tt.state = .idle

namespace Parked

variable {s s' : Sys} {g t : Nat}

theorem of_eq (h : Parked s g t) (hthrds : s'.thrds = s.thrds) : Parked s' g t := by
  unfold Parked
  rw [hthrds]
  exact h

theorem of_ne {i : Nat} {o : Option TThread} (h : Parked s g t) (hne : t ≠ i)
    (hthrds : s'.thrds = update s.thrds i o)
    : Parked s' g t := by
  unfold Parked
  rw [hthrds, update_of_ne hne]
  exact h

theorem setThrd {i : Nat} {tt tt' : TThread} (h : Parked s g t) (hi : s.thrds i = some tt)
    (hthrds : s'.thrds = update s.thrds i (some tt')) (htg : tt'.tg = tt.tg)
    (hstate : tt'.state = tt.state)
    : Parked s' g t := by
  by_cases hti : t = i
  . subst hti
    obtain ⟨tt₀, ht, htg₀, hidle⟩ := h
    rw [hi] at ht
    cases ht
    refine ⟨tt', ?_, htg.trans htg₀, hstate.trans hidle⟩
    rw [hthrds, update_self]
  . apply h.of_ne hti hthrds

theorem ne_of_running {i : Nat} {tt : TThread} (h : Parked s g t) (hi : s.thrds i = some tt)
    (hrun : tt.state = .running)
    : t ≠ i := by
  rintro rfl
  obtain ⟨tt₀, ht, _, hidle⟩ := h
  rw [hi] at ht
  cases ht
  rw [hrun] at hidle
  cases hidle

theorem group_unique {g' : Nat} (h : Parked s g t) (h' : Parked s g' t) : g = g' := by
  obtain ⟨tt, ht, htg, _⟩ := h
  obtain ⟨tt', ht', htg', _⟩ := h'
  rw [ht] at ht'
  cases ht'
  rw [← htg, htg']

theorem lt_nextThrd (h : Parked s g t) (hf : Fresh s) : t < s.nextThrd := by
  obtain ⟨tt, ht, _⟩ := h
  apply hf.thrds t
  rw [ht]
  nofun

end Parked

structure ThreadInv (s : Sys) : Prop where
  ok : ∀ t tt, s.thrds t = some tt → tt.Ok
  tg : ∀ t tt, s.thrds t = some tt → tt.tg < s.nextGroup
  idle : ∀ g tg t, s.groups g = some tg → t ∈ tg.idleThrds.items → Parked s g t
  nodup : ∀ g tg, s.groups g = some tg → tg.idleThrds.items.Nodup
  coherent : ∀ g tg, s.groups g = some tg → tg.idleThrds.Coherent ∧ tg.activeThrds.Coherent
  hand : ∀ k g t w, s.calls k = .hand g t w → Parked s g t
  apart : ∀ k g t w tg, s.calls k = .hand g t w → s.groups g = some tg →
    t ∉ tg.idleThrds.items ∧ t ∈ tg.activeThrds.items
  unique : ∀ k k' g g' t w w', s.calls k = .hand g t w → s.calls k' = .hand g' t w' → k = k'
  active : ∀ t tt tg, s.thrds t = some tt → tt.state = .running → s.groups tt.tg = some tg →
    t ∈ tg.activeThrds.items

namespace ThreadInv

variable {s s' : Sys} {k g t : Nat}

theorem init (tp : TPool) : ThreadInv (.init tp) := by
  constructor <;> simp [Sys.init]

theorem lists_eq {tg tg' : TGroup} (h : tg'.lists = tg.lists)
    : tg'.idleThrds = tg.idleThrds ∧ tg'.activeThrds = tg.activeThrds := by
  unfold TGroup.lists at h
  simpa using h

theorem transfer (h : ThreadInv s)
    (hok : ∀ t tt', s'.thrds t = some tt' →
      tt'.Ok ∧ ∃ tt, s.thrds t = some tt ∧ tt'.tg = tt.tg ∧ tt'.state = tt.state)
    (hparked : ∀ g t, Parked s g t → Parked s' g t) (hkeeps : Keeps TGroup.lists s s')
    (hcalls : ∀ k g t w, s'.calls k = .hand g t w → s.calls k = .hand g t w)
    (hnext : s'.nextGroup = s.nextGroup)
    : ThreadInv s' := by
  constructor
  . intro t tt' ht'
    apply (hok t tt' ht').1
  . intro t tt' ht'
    obtain ⟨_, tt, ht, htg, _⟩ := hok t tt' ht'
    rw [htg, hnext]
    apply h.tg t tt ht
  . intro g tg' t hg' hmem
    obtain ⟨tg, hg, hlists⟩ := hkeeps g tg' hg'
    rw [(lists_eq hlists).1] at hmem
    apply hparked g t (h.idle g tg t hg hmem)
  . intro g tg' hg'
    obtain ⟨tg, hg, hlists⟩ := hkeeps g tg' hg'
    rw [(lists_eq hlists).1]
    apply h.nodup g tg hg
  . intro g tg' hg'
    obtain ⟨tg, hg, hlists⟩ := hkeeps g tg' hg'
    rw [(lists_eq hlists).1, (lists_eq hlists).2]
    apply h.coherent g tg hg
  . intro k g t w hk
    apply hparked g t (h.hand k g t w (hcalls k g t w hk))
  . intro k g t w tg' hk hg'
    obtain ⟨tg, hg, hlists⟩ := hkeeps g tg' hg'
    rw [(lists_eq hlists).1, (lists_eq hlists).2]
    apply h.apart k g t w tg (hcalls k g t w hk) hg
  . intro k k' g g' t w w' hk hk'
    apply h.unique k k' g g' t w w' (hcalls k g t w hk) (hcalls k' g' t w' hk')
  . intro t tt' tg' ht' hrun hg'
    obtain ⟨_, tt, ht, htg, hstate⟩ := hok t tt' ht'
    obtain ⟨tg, hg, hlists⟩ := hkeeps tt'.tg tg' hg'
    rw [(lists_eq hlists).2]
    rw [htg] at hg
    rw [hstate] at hrun
    apply h.active t tt tg ht hrun hg

theorem frame (h : ThreadInv s) (hthrds : s'.thrds = s.thrds) (hkeeps : Keeps TGroup.lists s s')
    (hcalls : ∀ k g t w, s'.calls k = .hand g t w → s.calls k = .hand g t w)
    (hnext : s'.nextGroup = s.nextGroup)
    : ThreadInv s' := by
  refine h.transfer ?_ (fun g t hp => hp.of_eq hthrds) hkeeps hcalls hnext
  intro t tt ht
  rw [hthrds] at ht
  exact ⟨h.ok t tt ht, tt, ht, rfl, rfl⟩

theorem setCall {p : CallPc} (h : ThreadInv s) (hcalls : s'.calls = update s.calls k p)
    (hp : ∀ g t w, p ≠ .hand g t w) (hthrds : s'.thrds = s.thrds)
    (hkeeps : Keeps TGroup.lists s s') (hnext : s'.nextGroup = s.nextGroup)
    : ThreadInv s' := by
  refine h.frame hthrds hkeeps ?_ hnext
  intro i g t w hi
  rw [hcalls, update_apply] at hi
  split at hi
  . exact absurd hi (hp g t w)
  . exact hi

theorem setThrd {tt tt' : TThread} (h : ThreadInv s) (ht : s.thrds t = some tt)
    (hthrds : s'.thrds = update s.thrds t (some tt')) (hok : tt'.Ok) (htg : tt'.tg = tt.tg)
    (hstate : tt'.state = tt.state) (hkeeps : Keeps TGroup.lists s s') (hcalls : s'.calls = s.calls)
    (hnext : s'.nextGroup = s.nextGroup)
    : ThreadInv s' := by
  refine h.transfer ?_ (fun g t hp => hp.setThrd ht hthrds htg hstate) hkeeps ?_ hnext
  . intro i tti hi
    rw [hthrds, update_apply] at hi
    split at hi
    . next heq =>
      cases hi
      rw [heq]
      exact ⟨hok, tt, ht, htg, hstate⟩
    . exact ⟨h.ok i tti hi, tti, hi, rfl, rfl⟩
  . intro k g t w hk
    rw [hcalls] at hk
    exact hk

theorem build {tg : TGroup} {p : CallPc} (h : ThreadInv s)
    (hgroups : s'.groups = update s.groups s.nextGroup (some tg))
    (hidle : tg.idleThrds = .initList) (hactive : tg.activeThrds = .initList)
    (hcalls : s'.calls = update s.calls k p) (hp : ∀ g t w, p ≠ .hand g t w)
    (hthrds : s'.thrds = s.thrds) (hnext : s'.nextGroup = s.nextGroup + 1)
    : ThreadInv s' := by
  have hold : ∀ g tg', s'.groups g = some tg' →
      (g = s.nextGroup ∧ tg' = tg) ∨ s.groups g = some tg' := by
    intro g tg' hg'
    rw [hgroups, update_apply] at hg'
    split at hg'
    . next heq =>
      cases hg'
      exact .inl ⟨heq, rfl⟩
    . exact .inr hg'
  have hhand : ∀ k g t w, s'.calls k = .hand g t w → s.calls k = .hand g t w := by
    intro i g t w hi
    rw [hcalls, update_apply] at hi
    split at hi
    . exact absurd hi (hp g t w)
    . exact hi
  constructor
  . rw [hthrds]
    apply h.ok
  . intro t tt ht
    rw [hthrds] at ht
    have := h.tg t tt ht
    omega
  . intro g tg' t hg' hmem
    rcases hold g tg' hg' with ⟨_, rfl⟩ | hg
    . rw [hidle] at hmem
      cases hmem
    . apply (h.idle g tg' t hg hmem).of_eq hthrds
  . intro g tg' hg'
    rcases hold g tg' hg' with ⟨_, rfl⟩ | hg
    . rw [hidle]
      apply List.nodup_nil
    . apply h.nodup g tg' hg
  . intro g tg' hg'
    rcases hold g tg' hg' with ⟨_, rfl⟩ | hg
    . rw [hidle, hactive]
      exact ⟨rfl, rfl⟩
    . apply h.coherent g tg' hg
  . intro i g t w hi
    apply (h.hand i g t w (hhand i g t w hi)).of_eq hthrds
  . intro i g t w tg' hi hg'
    rcases hold g tg' hg' with ⟨rfl, _⟩ | hg
    . obtain ⟨tt, ht, htg, _⟩ := h.hand i _ t w (hhand i _ t w hi)
      have := h.tg t tt ht
      omega
    . apply h.apart i g t w tg' (hhand i g t w hi) hg
  . intro i i' g g' t w w' hi hi'
    apply h.unique i i' g g' t w w' (hhand i g t w hi) (hhand i' g' t w' hi')
  . intro t tt tg' ht hrun hg'
    rw [hthrds] at ht
    rcases hold tt.tg tg' hg' with ⟨heq, _⟩ | hg
    . have := h.tg t tt ht
      omega
    . apply h.active t tt tg' ht hrun hg

theorem spawn {tg : TGroup} (tg' : TGroup) {work : Option Nat} (h : ThreadInv s) (hf : Fresh s)
    (hg : s.groups g = some tg) (hlists : tg'.lists = tg.lists)
    (hgroups : s'.groups = (s.spawn g tg' work).groups)
    (hthrds : s'.thrds = (s.spawn g tg' work).thrds)
    (hcalls : ∀ k g t w, s'.calls k = .hand g t w → s.calls k = .hand g t w)
    (hnext : s'.nextGroup = s.nextGroup)
    : ThreadInv s' := by
  simp only [Sys.spawn, Sys.setGroup, Sys.setThrd] at hgroups hthrds
  have hne : ∀ g t, Parked s g t → t ≠ s.nextThrd := by
    intro g t hp
    have := hp.lt_nextThrd hf
    omega
  have hthrd : ∀ t tt, s'.thrds t = some tt →
      (t = s.nextThrd ∧ tt = { state := .running, currTask := work, tg := g, pc := .top }) ∨
      s.thrds t = some tt := by
    intro t tt ht
    rw [hthrds, update_apply] at ht
    split at ht
    . next heq =>
      cases ht
      exact .inl ⟨heq, rfl⟩
    . exact .inr ht
  have hgroup : ∀ i tgi, s'.groups i = some tgi →
      ∃ tg₀, s.groups i = some tg₀ ∧ tgi.idleThrds = tg₀.idleThrds ∧
        ((i ≠ g ∧ tgi.activeThrds = tg₀.activeThrds) ∨
          (i = g ∧ tgi.activeThrds = tg₀.activeThrds.listAppend s.nextThrd)) := by
    intro i tgi hi
    rw [hgroups, update_apply] at hi
    split at hi
    . next heq =>
      cases hi
      refine ⟨tg, heq ▸ hg, (lists_eq hlists).1, .inr ⟨heq, ?_⟩⟩
      show tg'.activeThrds.listAppend s.nextThrd = _
      rw [(lists_eq hlists).2]
    . next hne => exact ⟨tgi, hi, rfl, .inl ⟨hne, rfl⟩⟩
  constructor
  . intro t tt ht
    rcases hthrd t tt ht with ⟨_, rfl⟩ | ht
    . rfl
    . apply h.ok t tt ht
  . intro t tt ht
    rw [hnext]
    rcases hthrd t tt ht with ⟨_, rfl⟩ | ht
    . apply hf.groups g
      rw [hg]
      nofun
    . apply h.tg t tt ht
  . intro i tgi t hi hmem
    obtain ⟨tg₀, hi₀, hidle, _⟩ := hgroup i tgi hi
    rw [hidle] at hmem
    have hp := h.idle i tg₀ t hi₀ hmem
    apply hp.of_ne (hne i t hp) hthrds
  . intro i tgi hi
    obtain ⟨tg₀, hi₀, hidle, _⟩ := hgroup i tgi hi
    rw [hidle]
    apply h.nodup i tg₀ hi₀
  . intro i tgi hi
    obtain ⟨tg₀, hi₀, hidle, hactive⟩ := hgroup i tgi hi
    have hcoherent := h.coherent i tg₀ hi₀
    rw [hidle]
    refine ⟨hcoherent.1, ?_⟩
    rcases hactive with ⟨_, hactive⟩ | ⟨_, hactive⟩
    . rw [hactive]
      exact hcoherent.2
    . rw [hactive]
      apply hcoherent.2.listAppend
  . intro k i t w hk
    have hp := h.hand k i t w (hcalls k i t w hk)
    apply hp.of_ne (hne i t hp) hthrds
  . intro k i t w tgi hk hi
    obtain ⟨tg₀, hi₀, hidle, hactive⟩ := hgroup i tgi hi
    have hapart := h.apart k i t w tg₀ (hcalls k i t w hk) hi₀
    rw [hidle]
    refine ⟨hapart.1, ?_⟩
    rcases hactive with ⟨_, hactive⟩ | ⟨_, hactive⟩
    . rw [hactive]
      exact hapart.2
    . rw [hactive, LL.listAppend_items]
      apply List.mem_append_left _ hapart.2
  . intro k k' i i' t w w' hk hk'
    apply h.unique k k' i i' t w w' (hcalls k i t w hk) (hcalls k' i' t w' hk')
  . intro t tt tgi ht hrun hi
    obtain ⟨tg₀, hi₀, _, hactive⟩ := hgroup tt.tg tgi hi
    rcases hthrd t tt ht with ⟨rfl, rfl⟩ | ht
    . rcases hactive with ⟨hne, _⟩ | ⟨_, hactive⟩
      . exact absurd rfl hne
      . rw [hactive, LL.listAppend_items]
        simp
    . have hmem := h.active t tt tg₀ ht hrun hi₀
      rcases hactive with ⟨_, hactive⟩ | ⟨_, hactive⟩
      . rw [hactive]
        exact hmem
      . rw [hactive, LL.listAppend_items]
        apply List.mem_append_left _ hmem

theorem ne_of_hand {i i' w : Nat} {tg : TGroup} (h : ThreadInv s) (hg : s.groups g = some tg)
    (ht : t ∈ tg.idleThrds.items) (hk : s.calls k = .hand i i' w)
    : i' ≠ t := by
  rintro rfl
  have hgi := (h.idle g tg i' hg ht).group_unique (h.hand k i i' w hk)
  subst hgi
  apply (h.apart k g i' w tg hk hg).1 ht

theorem wake {tg : TGroup} {tt : TThread} {rest : List Nat} (h : ThreadInv s)
    (hg : s.groups g = some tg) (hitems : tg.idleThrds.items = t :: rest) (ht : s.thrds t = some tt)
    (hlock : tt.pc.locked = false)
    (hgroups : s'.groups = update s.groups g (some { tg with
      idleThrds := ⟨rest, tg.idleThrds.len - 1⟩
      activeThrds := tg.activeThrds.listAppend t }))
    (hthrds : s'.thrds = update s.thrds t (some { tt with state := .running }))
    (hcalls : s'.calls = s.calls) (hnext : s'.nextGroup = s.nextGroup)
    : ThreadInv s' := by
  have hmem : t ∈ tg.idleThrds.items := by simp [hitems]
  have hnodup := h.nodup g tg hg
  rw [hitems, List.nodup_cons] at hnodup
  have hparked := h.idle g tg t hg hmem
  obtain ⟨tt₀, ht₀, htg, hidle⟩ := hparked
  rw [ht] at ht₀
  cases ht₀
  have hcoherent := h.coherent g tg hg
  have hlen : tg.idleThrds.len = rest.length + 1 := by
    rw [hcoherent.1, hitems]
    rfl
  constructor
  . intro i tti hi
    rcases setThrd_cases hthrds hi with ⟨_, ho⟩ | ⟨_, hi⟩
    . cases ho
      have hpc := (h.ok t tt ht).blocked_of_idle hidle hlock
      simp [TThread.Ok, hpc]
    . apply h.ok i tti hi
  . intro i tti hi
    rw [hnext]
    rcases setThrd_cases hthrds hi with ⟨_, ho⟩ | ⟨_, hi⟩
    . cases ho
      apply h.tg t tt ht
    . apply h.tg i tti hi
  . intro i tgi t' hi hmem'
    rcases setGroup_cases hgroups hi with ⟨rfl, rfl⟩ | ⟨hne, hi⟩
    . have hp := h.idle i tg t' hg (by rw [hitems]; exact List.mem_cons_of_mem t hmem')
      apply hp.of_ne _ hthrds
      rintro rfl
      apply hnodup.1 hmem'
    . have hp := h.idle i tgi t' hi hmem'
      apply hp.of_ne _ hthrds
      rintro rfl
      apply hne (hp.group_unique (h.idle g tg t' hg hmem))
  . intro i tgi hi
    rcases setGroup_cases hgroups hi with ⟨rfl, rfl⟩ | ⟨_, hi⟩
    . apply hnodup.2
    . apply h.nodup i tgi hi
  . intro i tgi hi
    rcases setGroup_cases hgroups hi with ⟨rfl, rfl⟩ | ⟨_, hi⟩
    . refine ⟨?_, hcoherent.2.listAppend t⟩
      show tg.idleThrds.len - 1 = rest.length
      omega
    . apply h.coherent i tgi hi
  . intro i g' t' w hi
    rw [hcalls] at hi
    apply (h.hand i g' t' w hi).of_ne (h.ne_of_hand hg hmem hi) hthrds
  . intro i g' t' w tg' hi hg'
    rw [hcalls] at hi
    rcases setGroup_cases hgroups hg' with ⟨rfl, rfl⟩ | ⟨_, hg'⟩
    . have hapart := h.apart i g' t' w tg hi hg
      rw [hitems] at hapart
      refine ⟨fun hmem' => hapart.1 (List.mem_cons_of_mem t hmem'), ?_⟩
      apply List.mem_append_left _ hapart.2
    . apply h.apart i g' t' w tg' hi hg'
  . rw [hcalls]
    apply h.unique
  . intro i tti tg' hi hrun hg'
    rcases setThrd_cases hthrds hi with ⟨rfl, ho⟩ | ⟨_, hi⟩
    . cases ho
      rcases setGroup_cases hgroups hg' with ⟨_, rfl⟩ | ⟨hne, _⟩
      . simp
      . exact absurd htg hne
    . rcases setGroup_cases hgroups hg' with ⟨heq, rfl⟩ | ⟨_, hg'⟩
      . apply List.mem_append_left
        apply h.active i tti tg hi hrun (heq ▸ hg)
      . apply h.active i tti tg' hi hrun hg'

theorem reserve {tg : TGroup} {rest : List Nat} {w : Nat} (h : ThreadInv s)
    (hg : s.groups g = some tg) (hitems : tg.idleThrds.items = t :: rest)
    (hgroups : s'.groups = update s.groups g (some { tg with
      idleThrds := ⟨rest, tg.idleThrds.len - 1⟩
      activeThrds := tg.activeThrds.listAppend t }))
    (hcalls : s'.calls = update s.calls k (.hand g t w)) (hthrds : s'.thrds = s.thrds)
    (hnext : s'.nextGroup = s.nextGroup)
    : ThreadInv s' := by
  have hmem : t ∈ tg.idleThrds.items := by simp [hitems]
  have hnodup := h.nodup g tg hg
  rw [hitems, List.nodup_cons] at hnodup
  have hparked := h.idle g tg t hg hmem
  have hcoherent := h.coherent g tg hg
  have hlen : tg.idleThrds.len = rest.length + 1 := by
    rw [hcoherent.1, hitems]
    rfl
  have hhand : ∀ i g' t' w', s'.calls i = .hand g' t' w' →
      (i = k ∧ g' = g ∧ t' = t) ∨ (i ≠ k ∧ s.calls i = .hand g' t' w') := by
    intro i g' t' w' hi
    rw [hcalls, update_apply] at hi
    split at hi
    . next heq =>
      cases hi
      exact .inl ⟨heq, rfl, rfl⟩
    . next hne => exact .inr ⟨hne, hi⟩
  constructor
  . rw [hthrds]
    apply h.ok
  . rw [hthrds, hnext]
    apply h.tg
  . intro i tgi t' hi hmem'
    rcases setGroup_cases hgroups hi with ⟨rfl, rfl⟩ | ⟨_, hi⟩
    . refine (h.idle i tg t' hg ?_).of_eq hthrds
      rw [hitems]
      apply List.mem_cons_of_mem t hmem'
    . apply (h.idle i tgi t' hi hmem').of_eq hthrds
  . intro i tgi hi
    rcases setGroup_cases hgroups hi with ⟨rfl, rfl⟩ | ⟨_, hi⟩
    . apply hnodup.2
    . apply h.nodup i tgi hi
  . intro i tgi hi
    rcases setGroup_cases hgroups hi with ⟨rfl, rfl⟩ | ⟨_, hi⟩
    . refine ⟨?_, hcoherent.2.listAppend t⟩
      show tg.idleThrds.len - 1 = rest.length
      omega
    . apply h.coherent i tgi hi
  . intro i g' t' w' hi
    rcases hhand i g' t' w' hi with ⟨_, rfl, rfl⟩ | ⟨_, hi⟩
    . apply hparked.of_eq hthrds
    . apply (h.hand i g' t' w' hi).of_eq hthrds
  . intro i g' t' w' tg' hi hg'
    rcases hhand i g' t' w' hi with ⟨_, rfl, rfl⟩ | ⟨_, hi⟩
    . rcases setGroup_cases hgroups hg' with ⟨_, rfl⟩ | ⟨hne, _⟩
      . exact ⟨hnodup.1, by simp⟩
      . exact absurd rfl hne
    . rcases setGroup_cases hgroups hg' with ⟨rfl, rfl⟩ | ⟨_, hg'⟩
      . have hapart := h.apart i g' t' w' tg hi hg
        rw [hitems] at hapart
        refine ⟨fun hmem' => hapart.1 (List.mem_cons_of_mem t hmem'), ?_⟩
        apply List.mem_append_left _ hapart.2
      . apply h.apart i g' t' w' tg' hi hg'
  . intro i i' g₁ g₂ t' w₁ w₂ hi hi'
    rcases hhand i g₁ t' w₁ hi with ⟨hik, _, ht⟩ | ⟨_, hi⟩
    . rcases hhand i' g₂ t' w₂ hi' with ⟨hik', _⟩ | ⟨_, hi'⟩
      . rw [hik, hik']
      . exact absurd ht (h.ne_of_hand hg hmem hi')
    . rcases hhand i' g₂ t' w₂ hi' with ⟨_, _, ht⟩ | ⟨_, hi'⟩
      . exact absurd ht (h.ne_of_hand hg hmem hi)
      . apply h.unique i i' g₁ g₂ t' w₁ w₂ hi hi'
  . intro i tti tg' hi hrun hg'
    rw [hthrds] at hi
    rcases setGroup_cases hgroups hg' with ⟨heq, rfl⟩ | ⟨_, hg'⟩
    . apply List.mem_append_left
      apply h.active i tti tg hi hrun (heq ▸ hg)
    . apply h.active i tti tg' hi hrun hg'

theorem handOver {tt : TThread} {w : Nat} {p : CallPc} (h : ThreadInv s)
    (hpc : s.calls k = .hand g t w) (ht : s.thrds t = some tt) (hlock : tt.pc.locked = false)
    (hthrds : s'.thrds = update s.thrds t (some { tt with currTask := some w, state := .running }))
    (hcalls : s'.calls = update s.calls k p) (hp : ∀ g t w, p ≠ .hand g t w)
    (hgroups : s'.groups = s.groups) (hnext : s'.nextGroup = s.nextGroup)
    : ThreadInv s' := by
  obtain ⟨tt₀, ht₀, htg, hidle⟩ := h.hand k g t w hpc
  rw [ht] at ht₀
  cases ht₀
  have hhand : ∀ i g' t' w', s'.calls i = .hand g' t' w' →
      i ≠ k ∧ s.calls i = .hand g' t' w' := by
    intro i g' t' w' hi
    rw [hcalls, update_apply] at hi
    split at hi
    . exact absurd hi (hp g' t' w')
    . next hne => exact ⟨hne, hi⟩
  constructor
  . intro i tti hi
    rcases setThrd_cases hthrds hi with ⟨_, ho⟩ | ⟨_, hi⟩
    . cases ho
      have hpc := (h.ok t tt ht).blocked_of_idle hidle hlock
      simp [TThread.Ok, hpc]
    . apply h.ok i tti hi
  . intro i tti hi
    rw [hnext]
    rcases setThrd_cases hthrds hi with ⟨_, ho⟩ | ⟨_, hi⟩
    . cases ho
      apply h.tg t tt ht
    . apply h.tg i tti hi
  . intro i tgi t' hi hmem
    rw [hgroups] at hi
    refine (h.idle i tgi t' hi hmem).of_ne ?_ hthrds
    exact (h.ne_of_hand hi hmem hpc).symm
  . rw [hgroups]
    apply h.nodup
  . rw [hgroups]
    apply h.coherent
  . intro i g' t' w' hi
    obtain ⟨hne, hi⟩ := hhand i g' t' w' hi
    refine (h.hand i g' t' w' hi).of_ne ?_ hthrds
    rintro rfl
    apply hne (h.unique i k g' g t' w' w hi hpc)
  . intro i g' t' w' tg' hi hg'
    rw [hgroups] at hg'
    apply h.apart i g' t' w' tg' (hhand i g' t' w' hi).2 hg'
  . intro i i' g₁ g₂ t' w₁ w₂ hi hi'
    apply h.unique i i' g₁ g₂ t' w₁ w₂ (hhand i g₁ t' w₁ hi).2 (hhand i' g₂ t' w₂ hi').2
  . intro i tti tg' hi hrun hg'
    rw [hgroups] at hg'
    rcases setThrd_cases hthrds hi with ⟨rfl, ho⟩ | ⟨_, hi⟩
    . cases ho
      have hg : s.groups g = some tg' := htg ▸ hg'
      apply (h.apart k g i w tg' hpc hg).2
    . apply h.active i tti tg' hi hrun hg'

theorem not_mem_idle {tt : TThread} {tg : TGroup} (h : ThreadInv s) (ht : s.thrds t = some tt)
    (hrun : tt.state = .running) (hg : s.groups g = some tg)
    : t ∉ tg.idleThrds.items := by
  intro hmem
  exact (h.idle g tg t hg hmem).ne_of_running ht hrun rfl

theorem erase_coherent {list : LL Nat} (h : list.Coherent) (ht : t ∈ list.items)
    : (⟨list.items.erase t, list.len - 1⟩ : LL Nat).Coherent := by
  show list.len - 1 = (list.items.erase t).length
  rw [List.length_erase_of_mem ht, h]

theorem goIdle {tt tt' : TThread} {tg tg' : TGroup} (h : ThreadInv s) (ht : s.thrds t = some tt)
    (hrun : tt.state = .running) (hg : s.groups tt.tg = some tg)
    (hgroups : s'.groups = update s.groups tt.tg (some tg'))
    (hactive : tg'.activeThrds = ⟨tg.activeThrds.items.erase t, tg.activeThrds.len - 1⟩)
    (hidle : tg'.idleThrds = (tg.idleThrds.itemRemove t).listAppend t)
    (hthrds : s'.thrds = update s.thrds t (some tt')) (hok : tt'.Ok) (htg : tt'.tg = tt.tg)
    (hstate : tt'.state = .idle) (hcalls : s'.calls = s.calls) (hnext : s'.nextGroup = s.nextGroup)
    : ThreadInv s' := by
  have hnot := h.not_mem_idle ht hrun hg
  have hmem := h.active t tt tg ht hrun hg
  have hcoherent := h.coherent tt.tg tg hg
  have hitems : tg'.idleThrds.items = tg.idleThrds.items ++ [t] := by
    rw [hidle, LL.listAppend_items, LL.itemRemove_items, List.erase_of_not_mem hnot]
  have hitems' : tg'.activeThrds.items = tg.activeThrds.items.erase t := by rw [hactive]
  constructor
  . intro i tti hi
    rcases setThrd_cases hthrds hi with ⟨_, ho⟩ | ⟨_, hi⟩
    . cases ho
      exact hok
    . apply h.ok i tti hi
  . intro i tti hi
    rw [hnext]
    rcases setThrd_cases hthrds hi with ⟨_, ho⟩ | ⟨_, hi⟩
    . cases ho
      rw [htg]
      apply h.tg t tt ht
    . apply h.tg i tti hi
  . intro i tgi t' hi hmem'
    by_cases hne : t' = t
    . subst hne
      rcases setGroup_cases hgroups hi with ⟨rfl, rfl⟩ | ⟨_, hi⟩
      . refine ⟨tt', ?_, htg, hstate⟩
        rw [hthrds, update_self]
      . exact absurd hmem' (h.not_mem_idle ht hrun hi)
    . rcases setGroup_cases hgroups hi with ⟨rfl, rfl⟩ | ⟨_, hi⟩
      . rw [hitems, List.mem_append, List.mem_singleton] at hmem'
        have hold := hmem'.resolve_right hne
        apply (h.idle tt.tg tg t' hg hold).of_ne hne hthrds
      . apply (h.idle i tgi t' hi hmem').of_ne hne hthrds
  . intro i tgi hi
    rcases setGroup_cases hgroups hi with ⟨rfl, rfl⟩ | ⟨_, hi⟩
    . rw [hitems, List.nodup_append]
      refine ⟨h.nodup tt.tg tg hg, List.nodup_singleton t, ?_⟩
      intro a ha b hb
      rw [List.mem_singleton] at hb
      subst hb
      rintro rfl
      apply hnot ha
    . apply h.nodup i tgi hi
  . intro i tgi hi
    rcases setGroup_cases hgroups hi with ⟨rfl, rfl⟩ | ⟨_, hi⟩
    . refine ⟨?_, hactive ▸ erase_coherent hcoherent.2 hmem⟩
      unfold LL.Coherent
      rw [hitems, hidle, LL.listAppend_len, LL.itemRemove_len, hcoherent.1]
      simp
    . apply h.coherent i tgi hi
  . intro k g t' w hk
    rw [hcalls] at hk
    have hp := h.hand k g t' w hk
    apply hp.of_ne (hp.ne_of_running ht hrun) hthrds
  . intro k g t' w tg₁ hk hg₁
    rw [hcalls] at hk
    have hne := (h.hand k g t' w hk).ne_of_running ht hrun
    rcases setGroup_cases hgroups hg₁ with ⟨rfl, rfl⟩ | ⟨_, hg₁⟩
    . have hapart := h.apart k tt.tg t' w tg hk hg
      rw [hitems, hitems', List.mem_append, List.mem_singleton]
      refine ⟨?_, (List.mem_erase_of_ne hne).mpr hapart.2⟩
      rintro (hold | hold)
      . apply hapart.1 hold
      . apply hne hold
    . apply h.apart k g t' w tg₁ hk hg₁
  . rw [hcalls]
    apply h.unique
  . intro i tti tg₁ hi hrun' hg₁
    rcases setThrd_cases hthrds hi with ⟨_, ho⟩ | ⟨hne, hi⟩
    . cases ho
      rw [hstate] at hrun'
      cases hrun'
    . rcases setGroup_cases hgroups hg₁ with ⟨heq, rfl⟩ | ⟨_, hg₁⟩
      . rw [hitems', List.mem_erase_of_ne hne]
        apply h.active i tti tg hi hrun' (heq ▸ hg)
      . apply h.active i tti tg₁ hi hrun' hg₁

theorem leave {tt : TThread} {tg tg' : TGroup} (h : ThreadInv s) (ht : s.thrds t = some tt)
    (hrun : tt.state = .running) (hg : s.groups tt.tg = some tg)
    (hgroups : s'.groups = update s.groups tt.tg (some tg'))
    (hactive : tg'.activeThrds = ⟨tg.activeThrds.items.erase t, tg.activeThrds.len - 1⟩)
    (hidle : tg'.idleThrds = tg.idleThrds.itemRemove t)
    (hthrds : s'.thrds = update s.thrds t none) (hcalls : s'.calls = s.calls)
    (hnext : s'.nextGroup = s.nextGroup)
    : ThreadInv s' := by
  have hmem := h.active t tt tg ht hrun hg
  have hcoherent := h.coherent tt.tg tg hg
  have hsame : tg'.idleThrds = tg.idleThrds := by
    rw [hidle]
    unfold LL.itemRemove
    rw [List.erase_of_not_mem (h.not_mem_idle ht hrun hg)]
  have hitems' : tg'.activeThrds.items = tg.activeThrds.items.erase t := by rw [hactive]
  have hthrd : ∀ i tti, s'.thrds i = some tti → i ≠ t ∧ s.thrds i = some tti := by
    intro i tti hi
    rcases setThrd_cases hthrds hi with ⟨_, ho⟩ | hi
    . cases ho
    . exact hi
  constructor
  . intro i tti hi
    apply h.ok i tti (hthrd i tti hi).2
  . intro i tti hi
    rw [hnext]
    apply h.tg i tti (hthrd i tti hi).2
  . intro i tgi t' hi hmem'
    rcases setGroup_cases hgroups hi with ⟨rfl, rfl⟩ | ⟨_, hi⟩
    . rw [hsame] at hmem'
      have hp := h.idle tt.tg tg t' hg hmem'
      apply hp.of_ne (hp.ne_of_running ht hrun) hthrds
    . have hp := h.idle i tgi t' hi hmem'
      apply hp.of_ne (hp.ne_of_running ht hrun) hthrds
  . intro i tgi hi
    rcases setGroup_cases hgroups hi with ⟨rfl, rfl⟩ | ⟨_, hi⟩
    . rw [hsame]
      apply h.nodup tt.tg tg hg
    . apply h.nodup i tgi hi
  . intro i tgi hi
    rcases setGroup_cases hgroups hi with ⟨rfl, rfl⟩ | ⟨_, hi⟩
    . rw [hsame]
      exact ⟨hcoherent.1, hactive ▸ erase_coherent hcoherent.2 hmem⟩
    . apply h.coherent i tgi hi
  . intro k g t' w hk
    rw [hcalls] at hk
    have hp := h.hand k g t' w hk
    apply hp.of_ne (hp.ne_of_running ht hrun) hthrds
  . intro k g t' w tg₁ hk hg₁
    rw [hcalls] at hk
    have hne := (h.hand k g t' w hk).ne_of_running ht hrun
    rcases setGroup_cases hgroups hg₁ with ⟨rfl, rfl⟩ | ⟨_, hg₁⟩
    . have hapart := h.apart k tt.tg t' w tg hk hg
      rw [hsame, hitems']
      exact ⟨hapart.1, (List.mem_erase_of_ne hne).mpr hapart.2⟩
    . apply h.apart k g t' w tg₁ hk hg₁
  . rw [hcalls]
    apply h.unique
  . intro i tti tg₁ hi hrun' hg₁
    obtain ⟨hne, hi⟩ := hthrd i tti hi
    rcases setGroup_cases hgroups hg₁ with ⟨heq, rfl⟩ | ⟨_, hg₁⟩
    . rw [hitems', List.mem_erase_of_ne hne]
      apply h.active i tti tg hi hrun' (heq ▸ hg)
    . apply h.active i tti tg₁ hi hrun' hg₁

theorem start {req : Req} (h : ThreadInv s) (hs : StartStep s req s') : ThreadInv s' := by
  cases hs <;> exact h.setCall rfl (by nofun) rfl (keeps_of_eq rfl) rfl

theorem caller (h : ThreadInv s) (hf : Fresh s) (hs : CallStep s k s') : ThreadInv s' := by
  cases hs with
  | build min max flags hpc => exact h.build rfl rfl rfl rfl (by nofun) rfl rfl
  | spawn g n max tg hpc hg =>
    refine h.spawn tg hf hg rfl rfl rfl ?_ rfl
    intro i g' t w hi
    simp only [Sys.setCall, update_apply] at hi
    split at hi
    . cases hi
    . exact hi
  | endSpawn g max tg hpc hg =>
    exact h.setCall rfl (by nofun) rfl (keeps_setGroup rfl hg rfl) rfl
  | close g by_ tg hpc hg => exact h.setCall rfl (by nofun) rfl (keeps_setGroup rfl hg rfl) rfl
  | wake g ts by_ tg t rest tt hpc hg hlen hitems ht hlock =>
    exact h.wake hg hitems ht hlock rfl rfl rfl rfl
  | endWake g ts by_ tg hpc hg => exact h.setCall rfl (by nofun) rfl (keeps_setGroup rfl hg rfl) rfl
  | endJoinPool g tg hpc hg => exact h.setCall rfl (by nofun) rfl (keeps_freeGroup rfl) rfl
  | refund g tg hpc hg => exact h.setCall rfl (by nofun) rfl (keeps_freeGroup rfl) rfl
  | queue g w tg pc hpc hg hlock hclose hidle hfull hnext =>
    refine h.setCall rfl ?_ rfl (keeps_setGroup rfl hg rfl) rfl
    rcases hnext with rfl | rfl <;> nofun
  | full g w tg pc hpc hg hlock hclose hidle hfull hnext =>
    refine h.setCall rfl ?_ rfl (keeps_of_eq rfl) rfl
    rcases hnext with rfl | rfl <;> nofun
  | reserve g w tg t rest hpc hg hlock hclose hlen hitems =>
    exact h.reserve hg hitems rfl rfl rfl rfl
  | hand g t w tt hpc ht hlock => exact h.handOver hpc ht hlock rfl rfl (by nofun) rfl rfl
  | flag g gs before tg hpc hg =>
    exact h.setCall rfl (by nofun) rfl (keeps_setGroup rfl hg rfl) rfl
  | _ => exact h.setCall rfl (by nofun) rfl (keeps_of_eq rfl) rfl

theorem worker (h : ThreadInv s) (hs : WorkerStep s t s') : ThreadInv s' := by
  cases hs with
  | topTask tt w ht hpc hw =>
    have hok := h.ok t tt ht
    refine h.setThrd ht rfl ?_ rfl rfl (keeps_of_eq rfl) rfl rfl
    exact ⟨hok.running_of_currTask hw, hw⟩
  | topNone tt ht hpc hw =>
    have hok := h.ok t tt ht
    refine h.setThrd ht rfl ?_ rfl rfl (keeps_of_eq rfl) rfl rfl
    simp only [TThread.Ok, hpc] at hok
    exact ⟨hok, hw⟩
  | call tt w ht hpc =>
    have hok := h.ok t tt ht
    refine h.setThrd ht rfl ?_ rfl rfl (keeps_of_eq rfl) rfl rfl
    simp only [TThread.Ok, hpc] at hok
    exact hok
  | inFunc tt w ht hpc =>
    have hok := h.ok t tt ht
    refine h.setThrd ht rfl ?_ rfl rfl (keeps_of_eq rfl) rfl rfl
    simp only [TThread.Ok, hpc] at hok
    exact hok
  | ret tt w ht hpc =>
    have hok := h.ok t tt ht
    refine h.setThrd ht rfl ?_ rfl rfl (keeps_of_eq rfl) rfl rfl
    simp only [TThread.Ok, hpc] at hok
    exact ⟨hok.1, rfl⟩
  | hardKill tt tg ht hpc =>
    have hok := h.ok t tt ht
    refine h.setThrd ht rfl ?_ rfl rfl (keeps_of_eq rfl) rfl rfl
    simp only [TThread.Ok, hpc] at hok
    exact hok
  | fetch tt tg w rest ht hpc hg =>
    have hok := h.ok t tt ht
    refine h.setThrd ht rfl ?_ rfl rfl (keeps_setGroup rfl hg rfl) rfl rfl
    simp only [TThread.Ok, hpc] at hok
    exact ⟨hok.1, rfl⟩
  | softKill tt tg ht hpc =>
    have hok := h.ok t tt ht
    refine h.setThrd ht rfl ?_ rfl rfl (keeps_of_eq rfl) rfl rfl
    simp only [TThread.Ok, hpc] at hok
    exact ⟨hok.1, rfl⟩
  | goIdle tt tg wait ht hpc hg hlock hlen hkill hrun =>
    refine h.goIdle ht hrun hg rfl rfl rfl rfl ?_ rfl rfl rfl rfl
    cases wait <;> exact ⟨rfl, rfl⟩
  | decr tt ht hpc =>
    have hok := h.ok t tt ht
    refine h.setThrd ht rfl ?_ rfl rfl (keeps_of_eq rfl) rfl rfl
    simp only [TThread.Ok, hpc] at hok
    exact hok
  | block tt ht hpc hstate =>
    have hok := h.ok t tt ht
    refine h.setThrd ht rfl ?_ rfl rfl (keeps_of_eq rfl) rfl rfl
    exact .inr ⟨hstate, hok.currTask_of_idle hstate⟩
  | awake tt ht hpc hstate =>
    have hok := h.ok t tt ht
    refine h.setThrd ht rfl ?_ rfl rfl (keeps_of_eq rfl) rfl rfl
    rcases hpc with hpc | hpc
    . simp only [TThread.Ok, hpc] at hok
      exact absurd hok.1 hstate
    . simp only [TThread.Ok, hpc] at hok
      exact hok.resolve_right fun hidle => hstate hidle.1
  | leave tt tg ht hpc hg =>
    have hok := h.ok t tt ht
    simp only [TThread.Ok, hpc] at hok
    exact h.leave ht hok.1 hg rfl rfl rfl rfl rfl rfl

theorem manager {m : Nat} (h : ThreadInv s) (hf : Fresh s) (hs : ManagerStep s m s')
    : ThreadInv s' := by
  cases hs with
  | look g gs tg hpc hg =>
    exact h.frame rfl (keeps_setGroup rfl hg rfl) (fun _ _ _ _ hk => hk) rfl
  | spawnTask g n gs tg w rest hpc hg =>
    exact h.spawn { tg with q := { tg.q with work := ⟨rest, tg.q.work.len - 1⟩ } } hf hg rfl rfl rfl
      (fun _ _ _ _ hk => hk) rfl
  | spawnNone g n gs tg hpc hg => exact h.spawn tg hf hg rfl rfl rfl (fun _ _ _ _ hk => hk) rfl
  | endSpawn g gs tg hpc hg =>
    exact h.frame rfl (keeps_setGroup rfl hg rfl) (fun _ _ _ _ hk => hk) rfl
  | _ => exact h.frame rfl (keeps_of_eq rfl) (fun _ _ _ _ hk => hk) rfl

theorem step {a : Action} (h : ThreadInv s) (hf : Fresh s) (hs : Step s a s') : ThreadInv s' := by
  cases hs with
  | start req s' hs => apply h.start hs
  | caller k s' hs => apply h.caller hf hs
  | worker t s' hs => apply h.worker hs
  | manager m timedOut s' hs => apply h.manager hf hs

end ThreadInv

end Pool
