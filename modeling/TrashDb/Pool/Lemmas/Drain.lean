import TrashDb.Pool.Lemmas.Locks
import TrashDb.Pool.Lemmas.Threads

/-!
This module contains why a group that is freed has no work left. The threads of a group leave it when
it is closed and its queue is empty, nothing is added to the queue of a group that is closed, and a
group is freed after all of its threads have been joined, of which there is at least one.

The manager does not get in the way. It only looks at groups that are in the list of the pool, and
holds the mutex of the pool all the time.
-/

namespace Pool

open Function

def ManagerPc.todo : ManagerPc → List Nat
  | .pass gs => gs
  | .spawn g _ gs => g :: gs
  | _ => []

theorem ManagerPc.holdsPool_of_todo {pc : ManagerPc} {g : Nat} (h : g ∈ pc.todo)
    : pc.holdsPool = true := by
  cases pc with
  | wait => cases h
  | exited => cases h
  | pass gs => rfl
  | spawn g n gs => rfl

def Managing (s : Sys) : Prop := ∀ m g, g ∈ (s.managers m).todo → g ∈ s.pool.groups.items

namespace Managing

variable {s s' : Sys}

theorem init (tp : TPool) : Managing (.init tp) := by
  intro m g hg
  cases hg

theorem grow (h : Managing s) (hmanagers : s'.managers = s.managers)
    (hitems : ∀ g, g ∈ s.pool.groups.items → g ∈ s'.pool.groups.items)
    : Managing s' := by
  intro m g hg
  rw [hmanagers] at hg
  apply hitems g (h m g hg)

theorem of_unlocked (hlock : PoolLock s) (hfree : ∀ m, s.pool.mutexPool ≠ some (.manager m))
    (hmanagers : s'.managers = s.managers)
    : Managing s' := by
  intro m g hg
  rw [hmanagers] at hg
  exact absurd (hlock.manager m (ManagerPc.holdsPool_of_todo hg)) (hfree m)

theorem caller {k : Nat} (h : Managing s) (hlock : PoolLock s) (hs : CallStep s k s')
    : Managing s' := by
  cases hs with
  | unlink g hpc hmutex =>
    refine of_unlocked hlock ?_ rfl
    rw [hmutex]
    nofun
  | popGroup g rest hpc =>
    refine of_unlocked hlock ?_ rfl
    rw [hlock.call k (by rw [hpc]; rfl)]
    nofun
  | chargeFirst g max hpc hmutex =>
    intro m i hi
    simp only [Sys.setCall, Sys.setManager, Sys.setPool, update_apply] at hi
    split at hi
    . cases hi
    . simp only [Sys.setCall, Sys.setManager, Sys.setPool, TPool.addGroupCharge_groups]
      apply List.mem_append_left _ (h m i hi)
  | charge g max hpc =>
    refine h.grow rfl ?_
    intro i hi
    simp only [Sys.setCall, Sys.setPool, TPool.addGroupCharge_groups]
    apply List.mem_append_left _ hi
  | _ => exact h.grow rfl (fun _ hi => hi)

theorem setManager {m : Nat} {pc : ManagerPc} (h : Managing s)
    (hmanagers : s'.managers = update s.managers m pc)
    (hitems : s'.pool.groups.items = s.pool.groups.items)
    (htodo : ∀ g, g ∈ pc.todo → g ∈ (s.managers m).todo ∨ g ∈ s.pool.groups.items)
    : Managing s' := by
  intro i g hg
  rw [hmanagers, update_apply] at hg
  rw [hitems]
  split at hg
  . rcases htodo g hg with hg | hg
    . apply h m g hg
    . exact hg
  . apply h i g hg

theorem manager {m : Nat} (h : Managing s) (hs : ManagerStep s m s') : Managing s' := by
  cases hs with
  | stay hpc => exact h
  | exit hpc => exact h.setManager rfl rfl (by nofun)
  | pass hpc => exact h.setManager rfl rfl (fun _ hg => .inr hg)
  | look g gs tg hpc =>
    refine h.setManager rfl rfl ?_
    rw [hpc]
    exact fun _ hg => .inl hg
  | endPass hpc => exact h.setManager rfl rfl (by nofun)
  | spawnTask g n gs tg w rest hpc =>
    refine h.setManager rfl rfl ?_
    rw [hpc]
    exact fun _ hg => .inl hg
  | spawnNone g n gs tg hpc =>
    refine h.setManager rfl rfl ?_
    rw [hpc]
    exact fun _ hg => .inl hg
  | endSpawn g gs tg hpc =>
    refine h.setManager rfl rfl ?_
    rw [hpc]
    exact fun _ hg => .inl (List.mem_cons_of_mem g hg)

theorem step {a : Action} (h : Managing s) (hlock : PoolLock s) (hs : Step s a s') : Managing s' := by
  cases hs with
  | start req s' hs => cases hs <;> exact h.grow rfl (fun _ hi => hi)
  | caller k s' hs => apply h.caller hlock hs
  | worker t s' hs => cases hs <;> exact h.grow rfl (fun _ hi => hi)
  | manager m timedOut s' hs => apply h.manager hs

end Managing

def TGroup.Drained (tg : TGroup) : Prop := tg.softKill = true ∧ tg.q.work.items = []

structure TGroup.Sound (tg : TGroup) : Prop where
  hardKill : tg.hardKill = false
  close : tg.softKill = true → tg.groupClose = true
  coherent : tg.q.work.Coherent

def CallPc.spawning : CallPc → Option Nat
  | .addSpawn g (_ + 1) _ => some g
  | _ => none

/--
The group that the call is destroying and the threads of it that it has not joined yet.
-/
def CallPc.unjoined : CallPc → Option (Nat × List Nat)
  | .wake g ts _ | .join g ts _ => some (g, ts)
  | .refund g => some (g, [])
  | _ => none

structure DrainInv (s : Sys) : Prop where
  sound : ∀ g tg, s.groups g = some tg → tg.Sound
  names : ∀ g tg t, s.groups g = some tg → t ∈ tg.thrds →
    t < s.nextThrd ∧ ∀ tt, s.thrds t = some tt → tt.tg = g
  leaving : ∀ t tt tg, s.thrds t = some tt → tt.pc = .leave → s.groups tt.tg = some tg → tg.Drained
  left : ∀ g tg t, s.groups g = some tg → t ∈ tg.thrds → s.thrds t = none → tg.Drained
  positive : ∀ k min max flags, s.calls k = .addBuild min max flags → 1 ≤ min
  staffed : ∀ g tg, s.groups g = some tg → tg.thrds = [] → ∃ k, (s.calls k).spawning = some g
  unjoined : ∀ k g ts tg t, (s.calls k).unjoined = some (g, ts) → s.groups g = some tg →
    t ∈ tg.thrds → t ∈ ts ∨ s.thrds t = none

namespace DrainInv

variable {s s' : Sys} {k g t : Nat}

theorem init (tp : TPool) : DrainInv (.init tp) := by
  constructor <;> simp [Sys.init, CallPc.unjoined]

/--
What a step can do to a group that it neither builds nor adds threads to.
-/
structure Follows (tg tg' : TGroup) : Prop where
  thrds : tg'.thrds = tg.thrds
  drained : tg.Drained → tg'.Drained
  sound : tg'.Sound

theorem follows_refl {tg : TGroup} (h : DrainInv s) (hg : s.groups g = some tg) : Follows tg tg :=
  ⟨rfl, id, h.sound g tg hg⟩

theorem follows_setGroup {tg tg' : TGroup} (h : DrainInv s) (hg : s.groups g = some tg)
    (hf : Follows tg tg') (hgroups : s'.groups = update s.groups g (some tg'))
    : ∀ i tgi', s'.groups i = some tgi' → ∃ tgi, s.groups i = some tgi ∧ Follows tgi tgi' := by
  intro i tgi' hi
  rw [hgroups, update_apply] at hi
  split at hi
  . next heq =>
    cases hi
    exact ⟨tg, heq ▸ hg, hf⟩
  . exact ⟨tgi', hi, h.follows_refl hi⟩

theorem follows_of_eq (h : DrainInv s) (hgroups : s'.groups = s.groups)
    : ∀ i tgi', s'.groups i = some tgi' → ∃ tgi, s.groups i = some tgi ∧ Follows tgi tgi' := by
  intro i tgi' hi
  rw [hgroups] at hi
  exact ⟨tgi', hi, h.follows_refl hi⟩

theorem follows_freeGroup (h : DrainInv s) (hgroups : s'.groups = update s.groups g none)
    : ∀ i tgi', s'.groups i = some tgi' → ∃ tgi, s.groups i = some tgi ∧ Follows tgi tgi' := by
  intro i tgi' hi
  rw [hgroups, update_apply] at hi
  split at hi
  . cases hi
  . exact ⟨tgi', hi, h.follows_refl hi⟩

theorem transfer (h : DrainInv s) (hnext : s'.nextThrd = s.nextThrd)
    (hgroups : ∀ i tgi', s'.groups i = some tgi' → ∃ tgi, s.groups i = some tgi ∧ Follows tgi tgi')
    (hthrds : ∀ t tt', s'.thrds t = some tt' → ∃ tt, s.thrds t = some tt ∧ tt'.tg = tt.tg ∧
      (tt'.pc = .leave → tt.pc = .leave ∨ ∀ tg, s.groups tt.tg = some tg → tg.Drained))
    (hnone : ∀ t, s'.thrds t = none →
      s.thrds t = none ∨ ∃ tt, s.thrds t = some tt ∧ tt.pc = .leave)
    (hpositive : ∀ k min max flags, s'.calls k = .addBuild min max flags → 1 ≤ min)
    (hspawning : ∀ k g, (s.calls k).spawning = some g →
      (s'.calls k).spawning = some g ∨ ∀ tg, s.groups g = some tg → tg.thrds ≠ [])
    (hunjoined : ∀ k g ts', (s'.calls k).unjoined = some (g, ts') →
      (∃ ts, (s.calls k).unjoined = some (g, ts) ∧ ∀ t ∈ ts, t ∈ ts' ∨ s'.thrds t = none) ∨
      ∀ tg, s.groups g = some tg → ∀ t ∈ tg.thrds, t ∈ ts')
    : DrainInv s' := by
  have hgone : ∀ t, s.thrds t = none → s'.thrds t = none := by
    intro t ht
    cases ht' : s'.thrds t with
    | none => rfl
    | some tt' =>
      obtain ⟨tt, htt, _⟩ := hthrds t tt' ht'
      rw [ht] at htt
      cases htt
  constructor
  . intro i tgi' hi
    obtain ⟨tgi, _, hf⟩ := hgroups i tgi' hi
    apply hf.sound
  . intro i tgi' t hi ht
    obtain ⟨tgi, hi, hf⟩ := hgroups i tgi' hi
    rw [hf.thrds] at ht
    have hnames := h.names i tgi t hi ht
    refine ⟨hnext ▸ hnames.1, ?_⟩
    intro tt' htt'
    obtain ⟨tt, htt, htg, _⟩ := hthrds t tt' htt'
    rw [htg]
    apply hnames.2 tt htt
  . intro t tt' tg' ht' hpc hg'
    obtain ⟨tt, ht, htg, hleave⟩ := hthrds t tt' ht'
    obtain ⟨tg, hg, hf⟩ := hgroups tt'.tg tg' hg'
    rw [htg] at hg
    apply hf.drained
    rcases hleave hpc with hpc | hdrained
    . apply h.leaving t tt tg ht hpc hg
    . apply hdrained tg hg
  . intro i tgi' t hi ht hnil
    obtain ⟨tgi, hi, hf⟩ := hgroups i tgi' hi
    rw [hf.thrds] at ht
    apply hf.drained
    rcases hnone t hnil with hnil | ⟨tt, htt, hpc⟩
    . apply h.left i tgi t hi ht hnil
    . have htg := (h.names i tgi t hi ht).2 tt htt
      apply h.leaving t tt tgi htt hpc (htg ▸ hi)
  . exact hpositive
  . intro i tgi' hi hnil
    obtain ⟨tgi, hi, hf⟩ := hgroups i tgi' hi
    rw [hf.thrds] at hnil
    obtain ⟨k, hk⟩ := h.staffed i tgi hi hnil
    rcases hspawning k i hk with hk | hne
    . exact ⟨k, hk⟩
    . exact absurd hnil (hne tgi hi)
  . intro k i ts' tgi' t hk hi ht
    obtain ⟨tgi, hi, hf⟩ := hgroups i tgi' hi
    rw [hf.thrds] at ht
    rcases hunjoined k i ts' hk with ⟨ts, hk, hts⟩ | hts
    . rcases h.unjoined k i ts tgi t hk hi ht with hmem | hnil
      . apply hts t hmem
      . exact .inr (hgone t hnil)
    . exact .inl (hts tgi hi t ht)

theorem setCall {p : CallPc} (h : DrainInv s) (hcalls : s'.calls = update s.calls k p)
    (hthrds : s'.thrds = s.thrds) (hnext : s'.nextThrd = s.nextThrd)
    (hgroups : ∀ i tgi', s'.groups i = some tgi' → ∃ tgi, s.groups i = some tgi ∧ Follows tgi tgi')
    (hpositive : ∀ min max flags, p = .addBuild min max flags → 1 ≤ min)
    (hspawning : ∀ g, (s.calls k).spawning = some g →
      p.spawning = some g ∨ ∀ tg, s.groups g = some tg → tg.thrds ≠ [])
    (hunjoined : ∀ g ts', p.unjoined = some (g, ts') →
      (∃ ts, (s.calls k).unjoined = some (g, ts) ∧ ∀ t ∈ ts, t ∈ ts' ∨ s.thrds t = none) ∨
      ∀ tg, s.groups g = some tg → ∀ t ∈ tg.thrds, t ∈ ts')
    : DrainInv s' := by
  refine h.transfer hnext hgroups ?_ ?_ ?_ ?_ ?_
  . intro t tt ht
    rw [hthrds] at ht
    exact ⟨tt, ht, rfl, .inl⟩
  . rw [hthrds]
    exact fun _ => .inl
  . intro i min max flags hi
    rw [hcalls, update_apply] at hi
    split at hi
    . apply hpositive min max flags hi
    . apply h.positive i min max flags hi
  . intro i g hi
    rw [hcalls, update_apply]
    split
    . next heq => apply hspawning g (heq ▸ hi)
    . exact .inl hi
  . intro i g ts' hi
    rw [hcalls, update_apply] at hi
    rw [hthrds]
    split at hi
    . next heq =>
      rw [heq]
      apply hunjoined g ts' hi
    . exact .inl ⟨ts', hi, fun _ => .inl⟩

theorem setCall_quiet {p : CallPc} (h : DrainInv s) (hcalls : s'.calls = update s.calls k p)
    (hthrds : s'.thrds = s.thrds) (hnext : s'.nextThrd = s.nextThrd)
    (hgroups : ∀ i tgi', s'.groups i = some tgi' → ∃ tgi, s.groups i = some tgi ∧ Follows tgi tgi')
    (hpositive : ∀ min max flags, p ≠ .addBuild min max flags)
    (hspawning : (s.calls k).spawning = none) (hunjoined : p.unjoined = none)
    : DrainInv s' := by
  refine h.setCall hcalls hthrds hnext hgroups ?_ ?_ ?_
  . intro min max flags hp
    exact absurd hp (hpositive min max flags)
  . rw [hspawning]
    nofun
  . rw [hunjoined]
    nofun

theorem setThrd {tt tt' : TThread} (h : DrainInv s) (ht : s.thrds t = some tt)
    (hthrds : s'.thrds = update s.thrds t (some tt')) (htg : tt'.tg = tt.tg)
    (hpc : tt'.pc = .leave → ∀ tg, s.groups tt.tg = some tg → tg.Drained)
    (hgroups : ∀ i tgi', s'.groups i = some tgi' → ∃ tgi, s.groups i = some tgi ∧ Follows tgi tgi')
    (hcalls : s'.calls = s.calls) (hnext : s'.nextThrd = s.nextThrd)
    : DrainInv s' := by
  refine h.transfer hnext hgroups ?_ ?_ ?_ ?_ ?_
  . intro i tti hi
    rw [hthrds, update_apply] at hi
    split at hi
    . next heq =>
      cases hi
      exact ⟨tt, heq ▸ ht, htg, fun hl => .inr (hpc hl)⟩
    . exact ⟨tti, hi, rfl, .inl⟩
  . intro i hi
    rw [hthrds, update_apply] at hi
    split at hi
    . cases hi
    . exact .inl hi
  . rw [hcalls]
    apply h.positive
  . rw [hcalls]
    exact fun _ _ => .inl
  . rw [hcalls]
    exact fun i g ts' hi => .inl ⟨ts', hi, fun _ => .inl⟩

theorem freeThrd {tt : TThread} (h : DrainInv s) (ht : s.thrds t = some tt) (hpc : tt.pc = .leave)
    (hthrds : s'.thrds = update s.thrds t none)
    (hgroups : ∀ i tgi', s'.groups i = some tgi' → ∃ tgi, s.groups i = some tgi ∧ Follows tgi tgi')
    (hcalls : s'.calls = s.calls) (hnext : s'.nextThrd = s.nextThrd)
    : DrainInv s' := by
  refine h.transfer hnext hgroups ?_ ?_ ?_ ?_ ?_
  . intro i tti hi
    rw [hthrds, update_apply] at hi
    split at hi
    . cases hi
    . exact ⟨tti, hi, rfl, .inl⟩
  . intro i hi
    rw [hthrds, update_apply] at hi
    split at hi
    . next heq =>
      rw [heq]
      exact .inr ⟨tt, ht, hpc⟩
    . exact .inl hi
  . rw [hcalls]
    apply h.positive
  . rw [hcalls]
    exact fun _ _ => .inl
  . rw [hcalls]
    exact fun i g ts' hi => .inl ⟨ts', hi, fun _ => .inl⟩

theorem build {min max : Nat} {flags : Int} {tg : TGroup} (h : DrainInv s)
    (ht : ThreadInv s) (hpc : s.calls k = .addBuild min max flags)
    (hgroups : s'.groups = update s.groups s.nextGroup (some tg)) (hsound : tg.Sound)
    (hthrds : tg.thrds = []) (hcalls : s'.calls = update s.calls k (.addSpawn s.nextGroup min max))
    (hsame : s'.thrds = s.thrds) (hnext : s'.nextThrd = s.nextThrd)
    : DrainInv s' := by
  have hspawning : (CallPc.addSpawn s.nextGroup min max).spawning = some s.nextGroup := by
    have := h.positive k min max flags hpc
    cases min with
    | zero => omega
    | succ n => rfl
  constructor
  . intro i tgi hi
    rcases setGroup_cases hgroups hi with ⟨_, rfl⟩ | ⟨_, hi⟩
    . exact hsound
    . apply h.sound i tgi hi
  . intro i tgi t hi hmem
    rw [hsame, hnext]
    rcases setGroup_cases hgroups hi with ⟨_, rfl⟩ | ⟨_, hi⟩
    . rw [hthrds] at hmem
      cases hmem
    . apply h.names i tgi t hi hmem
  . intro t tt tgi htt hleave hi
    rw [hsame] at htt
    rcases setGroup_cases hgroups hi with ⟨heq, _⟩ | ⟨_, hi⟩
    . have := ht.tg t tt htt
      omega
    . apply h.leaving t tt tgi htt hleave hi
  . intro i tgi t hi hmem hnil
    rw [hsame] at hnil
    rcases setGroup_cases hgroups hi with ⟨_, rfl⟩ | ⟨_, hi⟩
    . rw [hthrds] at hmem
      cases hmem
    . apply h.left i tgi t hi hmem hnil
  . intro i min' max' flags' hi
    rw [hcalls, update_apply] at hi
    split at hi
    . cases hi
    . apply h.positive i min' max' flags' hi
  . intro i tgi hi hnil
    rcases setGroup_cases hgroups hi with ⟨rfl, _⟩ | ⟨_, hi⟩
    . refine ⟨k, ?_⟩
      rw [hcalls, update_self, hspawning]
    . obtain ⟨k', hk'⟩ := h.staffed i tgi hi hnil
      refine ⟨k', ?_⟩
      rw [hcalls, update_of_ne]
      . exact hk'
      . rintro rfl
        rw [hpc] at hk'
        cases hk'
  . intro k' i ts tgi t hk' hi hmem
    rw [hsame]
    rcases setGroup_cases hgroups hi with ⟨_, rfl⟩ | ⟨_, hi⟩
    . rw [hthrds] at hmem
      cases hmem
    . rw [hcalls, update_apply] at hk'
      split at hk'
      . cases hk'
      . apply h.unjoined k' i ts tgi t hk' hi hmem

theorem spawn {tg : TGroup} (tg' : TGroup) {work : Option Nat} (h : DrainInv s)
    (hg : s.groups g = some tg) (hfollows : Follows tg tg')
    (hgroups : s'.groups = (s.spawn g tg' work).groups)
    (hthrds : s'.thrds = (s.spawn g tg' work).thrds) (hnext : s'.nextThrd = s.nextThrd + 1)
    (hpositive : ∀ k min max flags, s'.calls k = .addBuild min max flags → 1 ≤ min)
    (hspawning : ∀ k i, i ≠ g → (s.calls k).spawning = some i → (s'.calls k).spawning = some i)
    (hunjoined : ∀ k i ts, (s'.calls k).unjoined = some (i, ts) →
      i ≠ g ∧ (s.calls k).unjoined = some (i, ts))
    : DrainInv s' := by
  simp only [Sys.spawn, Sys.setGroup, Sys.setThrd] at hgroups hthrds
  constructor
  . intro i tgi hi
    rcases setGroup_cases hgroups hi with ⟨_, rfl⟩ | ⟨_, hi⟩
    . exact ⟨hfollows.sound.hardKill, hfollows.sound.close, hfollows.sound.coherent⟩
    . apply h.sound i tgi hi
  . intro i tgi t hi hmem
    have hold : ∀ tg₀, s.groups i = some tg₀ → t ∈ tg₀.thrds →
        t < s'.nextThrd ∧ ∀ tt, s'.thrds t = some tt → tt.tg = i := by
      intro tg₀ hi₀ hmem₀
      have hnames := h.names i tg₀ t hi₀ hmem₀
      refine ⟨by omega, ?_⟩
      rw [hthrds, update_of_ne (by omega)]
      apply hnames.2
    rcases setGroup_cases hgroups hi with ⟨rfl, rfl⟩ | ⟨_, hi⟩
    . rw [List.mem_append, List.mem_singleton] at hmem
      rcases hmem with hmem | rfl
      . rw [hfollows.thrds] at hmem
        apply hold tg hg hmem
      . refine ⟨by omega, ?_⟩
        rw [hthrds, update_self]
        rintro tt ⟨⟩
        rfl
    . apply hold tgi hi hmem
  . intro t tt tgi htt hleave hi
    rcases setThrd_cases hthrds htt with ⟨_, ho⟩ | ⟨_, htt⟩
    . cases ho
      cases hleave
    . rcases setGroup_cases hgroups hi with ⟨heq, rfl⟩ | ⟨_, hi⟩
      . apply hfollows.drained
        apply h.leaving t tt tg htt hleave (heq ▸ hg)
      . apply h.leaving t tt tgi htt hleave hi
  . intro i tgi t hi hmem hnil
    rw [hthrds, update_apply] at hnil
    split at hnil
    . cases hnil
    . next hne =>
      rcases setGroup_cases hgroups hi with ⟨rfl, rfl⟩ | ⟨_, hi⟩
      . rw [List.mem_append, List.mem_singleton] at hmem
        have hmem := hmem.resolve_right hne
        rw [hfollows.thrds] at hmem
        apply hfollows.drained (h.left i tg t hg hmem hnil)
      . apply h.left i tgi t hi hmem hnil
  . exact hpositive
  . intro i tgi hi hnil
    rcases setGroup_cases hgroups hi with ⟨rfl, rfl⟩ | ⟨hne, hi⟩
    . simp at hnil
    . obtain ⟨k, hk⟩ := h.staffed i tgi hi hnil
      exact ⟨k, hspawning k i hne hk⟩
  . intro k i ts tgi t hk hi hmem
    obtain ⟨hne, hk⟩ := hunjoined k i ts hk
    rcases setGroup_cases hgroups hi with ⟨heq, _⟩ | ⟨_, hi⟩
    . exact absurd heq hne
    . rcases h.unjoined k i ts tgi t hk hi hmem with hmem' | hnil
      . exact .inl hmem'
      . have := (h.names i tgi t hi hmem).1
        refine .inr ?_
        rw [hthrds, update_of_ne (by omega)]
        exact hnil

theorem follows_close {tg : TGroup} (h : tg.Sound) (holder : Option Holder)
    : Follows tg { tg with groupClose := true, softKill := true, mutexGrp := holder } :=
  ⟨rfl, fun hd => ⟨rfl, hd.2⟩, ⟨h.hardKill, fun _ => rfl, h.coherent⟩⟩

theorem follows_append {tg : TGroup} {w : Nat} (h : tg.Sound) (hclose : tg.groupClose = false)
    : Follows tg { tg with q := { tg.q with work := tg.q.work.listAppend w } } := by
  refine ⟨rfl, ?_, ⟨h.hardKill, h.close, h.coherent.listAppend w⟩⟩
  intro hd
  rw [h.close hd.1] at hclose
  cases hclose

theorem follows_fetch {tg : TGroup} {w : Nat} {rest : List Nat} (h : tg.Sound)
    (hitems : tg.q.work.items = w :: rest)
    : Follows tg { tg with q := { tg.q with work := ⟨rest, tg.q.work.len - 1⟩ } } := by
  refine ⟨rfl, ?_, ⟨h.hardKill, h.close, ?_⟩⟩
  . intro hd
    rw [hd.2] at hitems
    cases hitems
  . show tg.q.work.len - 1 = rest.length
    rw [h.coherent, hitems]
    rfl

theorem spawning_owned {pc : CallPc} (h : pc.spawning = some g) : pc.phase.owned = some g := by
  unfold CallPc.spawning at h
  split at h
  . cases h
    rfl
  . cases h

theorem unjoined_owned {pc : CallPc} {ts : List Nat} (h : pc.unjoined = some (g, ts))
    : pc.phase.owned = some g := by
  unfold CallPc.unjoined at h
  split at h
  . cases h
    rfl
  . cases h
    rfl
  . cases h
    rfl
  . cases h

theorem addGroupCheck_pos {tp : TPool} {min max min' max' : Nat}
    (h : tp.addGroupCheck min max = some (min', max'))
    : 1 ≤ min' := by
  unfold TPool.addGroupCheck at h
  simp only [] at h
  generalize hmin : (if min = 0 then 1 else min) = raised at h
  generalize (if Word.sub32 tp.thrdMax tp.totalThrds < max then _ else max) = clamped at h
  split at h
  . cases h
  . cases h
    rw [← hmin]
    split <;> omega

theorem start {req : Req} (h : DrainInv s) (hf : Fresh s) (hs : StartStep s req s') : DrainInv s' := by
  have hspawning : (s.calls s.nextCall).spawning = none := by
    by_contra hne
    have := hf.calls s.nextCall fun heq => hne (by rw [heq]; rfl)
    omega
  cases hs <;> exact h.setCall_quiet rfl rfl rfl (h.follows_of_eq rfl) (by nofun) hspawning rfl

theorem spawn_call {n max : Nat} {tg : TGroup} (h : DrainInv s) (ho : Ledger.Owned s.ledger)
    (hpc : s.calls k = .addSpawn g (n + 1) max) (hg : s.groups g = some tg)
    : DrainInv ((s.spawn g tg none).setCall k (.addSpawn g n max)) := by
  have hown : (s.ledger.phase k).owned = some g := by
    show (s.calls k).phase.owned = some g
    rw [hpc]
    rfl
  refine h.spawn tg hg (h.follows_refl hg) rfl rfl rfl ?_ ?_ ?_
  . intro i min max flags hi
    simp only [Sys.setCall, update_apply] at hi
    split at hi
    . cases hi
    . apply h.positive i min max flags hi
  . intro i g' hne hi
    simp only [Sys.setCall, update_apply]
    split
    . next heq =>
      rw [heq, hpc] at hi
      cases hi
      exact absurd rfl hne
    . exact hi
  . intro i g' ts hi
    simp only [Sys.setCall, update_apply] at hi
    split at hi
    . cases hi
    . next hne =>
      refine ⟨?_, hi⟩
      rintro rfl
      apply hne (ho.unique i k g' (unjoined_owned hi) hown)

theorem spawn_manager {tg : TGroup} (tg' : TGroup) {work : Option Nat} (h : DrainInv s)
    (ho : Ledger.Owned s.ledger) (hlinked : g ∈ s.pool.groups.items) (hg : s.groups g = some tg)
    (hfollows : Follows tg tg') (hgroups : s'.groups = (s.spawn g tg' work).groups)
    (hthrds : s'.thrds = (s.spawn g tg' work).thrds) (hnext : s'.nextThrd = s.nextThrd + 1)
    (hcalls : s'.calls = s.calls)
    : DrainInv s' := by
  refine h.spawn tg' hg hfollows hgroups hthrds hnext ?_ ?_ ?_
  . rw [hcalls]
    apply h.positive
  . rw [hcalls]
    exact fun _ _ _ hi => hi
  . rw [hcalls]
    intro i g' ts hi
    refine ⟨?_, hi⟩
    rintro rfl
    exact (ho.owned i g' (unjoined_owned hi)).2 hlinked

theorem handOver {w : Nat} {tt : TThread} (h : DrainInv s) (hpc : s.calls k = .hand g t w)
    (ht : s.thrds t = some tt)
    : DrainInv
        ((s.setThrd t { tt with currTask := some w, state := .running }).setCall k
          (.done w .poolSuccess)) := by
  have hset : DrainInv (s.setThrd t { tt with currTask := some w, state := .running }) := by
    refine h.setThrd ht rfl rfl ?_ (h.follows_of_eq rfl) rfl rfl
    intro hleave tg hg
    apply h.leaving t tt tg ht hleave hg
  refine hset.setCall_quiet rfl rfl rfl (hset.follows_of_eq rfl) (by nofun) ?_ rfl
  simp only [Sys.setThrd, hpc, CallPc.spawning]

theorem caller (h : DrainInv s) (ht : ThreadInv s) (ho : Ledger.Owned s.ledger)
    (hs : CallStep s k s')
    : DrainInv s' := by
  cases hs with
  | check min max min' max' flags hpc hlock hcheck =>
    refine h.setCall rfl rfl rfl (h.follows_of_eq rfl) ?_ ?_ (by nofun)
    . rintro _ _ _ ⟨⟩
      apply addGroupCheck_pos hcheck
    . rw [hpc]
      nofun
  | build min max flags hpc =>
    refine h.build ht hpc rfl ?_ rfl rfl rfl rfl
    exact ⟨rfl, by nofun, rfl⟩
  | spawn g n max tg hpc hg => exact h.spawn_call ho hpc hg
  | endSpawn g max tg hpc hg =>
    have hsound := h.sound g tg hg
    refine h.setCall_quiet rfl rfl rfl (h.follows_setGroup hg ?_ rfl) (by nofun) (by rw [hpc]; rfl) rfl
    exact ⟨rfl, id, ⟨hsound.hardKill, hsound.close, hsound.coherent⟩⟩
  | close g by_ tg hpc hg =>
    have hfollows := follows_close (h.sound g tg hg) (some (.call k))
    refine h.setCall rfl rfl rfl (h.follows_setGroup hg hfollows rfl) (by nofun) ?_ ?_
    . rw [hpc]
      nofun
    . rintro g' ts' ⟨⟩
      refine .inr ?_
      intro tg' hg' t hmem
      rw [hg] at hg'
      cases hg'
      exact hmem
  | wake g ts by_ tg t rest tt hpc hg hlen hitems htt =>
    have hsound := h.sound g tg hg
    refine h.setThrd htt rfl rfl ?_ (h.follows_setGroup hg ?_ rfl) rfl rfl
    . intro hleave tg' hg'
      apply h.leaving t tt tg' htt hleave hg'
    . exact ⟨rfl, id, ⟨hsound.hardKill, hsound.close, hsound.coherent⟩⟩
  | endWake g ts by_ tg hpc hg =>
    have hsound := h.sound g tg hg
    refine h.setCall rfl rfl rfl (h.follows_setGroup hg ?_ rfl) (by nofun) ?_ ?_
    . exact ⟨rfl, id, ⟨hsound.hardKill, hsound.close, hsound.coherent⟩⟩
    . rw [hpc]
      nofun
    . rintro g' ts' ⟨⟩
      rw [hpc]
      exact .inl ⟨ts, rfl, fun _ => .inl⟩
  | join g t ts by_ hpc hnil =>
    refine h.setCall rfl rfl rfl (h.follows_of_eq rfl) (by nofun) ?_ ?_
    . rw [hpc]
      nofun
    . rintro g' ts' ⟨⟩
      rw [hpc]
      refine .inl ⟨t :: ts, rfl, ?_⟩
      intro t' ht'
      rw [List.mem_cons] at ht'
      rcases ht' with rfl | ht'
      . exact .inr hnil
      . exact .inl ht'
  | endJoinGroup g hpc =>
    refine h.setCall rfl rfl rfl (h.follows_of_eq rfl) (by nofun) ?_ ?_
    . rw [hpc]
      nofun
    . rintro g' ts' ⟨⟩
      rw [hpc]
      exact .inl ⟨[], rfl, by nofun⟩
  | endJoinPool g tg hpc hg =>
    exact h.setCall_quiet rfl rfl rfl (h.follows_freeGroup rfl) (by nofun) (by rw [hpc]; rfl) rfl
  | refund g tg hpc hg =>
    exact h.setCall_quiet rfl rfl rfl (h.follows_freeGroup rfl) (by nofun) (by rw [hpc]; rfl) rfl
  | queue g w tg pc hpc hg hlock hclose hidle hfull hnext =>
    have hfollows := follows_append (w := w) (h.sound g tg hg) hclose
    refine h.setCall_quiet rfl rfl rfl (h.follows_setGroup hg hfollows rfl) ?_ (by rw [hpc]; rfl) ?_
    . rcases hnext with rfl | rfl <;> nofun
    . rcases hnext with rfl | rfl <;> rfl
  | full g w tg pc hpc hg hlock hclose hidle hfull hnext =>
    refine h.setCall_quiet rfl rfl rfl (h.follows_of_eq rfl) ?_ (by rw [hpc]; rfl) ?_
    . rcases hnext with rfl | rfl <;> nofun
    . rcases hnext with rfl | rfl <;> rfl
  | reserve g w tg t rest hpc hg =>
    have hsound := h.sound g tg hg
    refine h.setCall_quiet rfl rfl rfl (h.follows_setGroup hg ?_ rfl) (by nofun) (by rw [hpc]; rfl) rfl
    exact ⟨rfl, id, ⟨hsound.hardKill, hsound.close, hsound.coherent⟩⟩
  | hand g t w tt hpc htt => exact h.handOver hpc htt
  | flag g gs before tg hpc hg =>
    have hsound := h.sound g tg hg
    refine h.setCall_quiet rfl rfl rfl (h.follows_setGroup hg ?_ rfl) (by nofun) (by rw [hpc]; rfl) rfl
    exact ⟨rfl, id, ⟨hsound.hardKill, hsound.close, hsound.coherent⟩⟩
  | block before hpc =>
    refine h.setCall_quiet rfl rfl rfl (h.follows_of_eq rfl) (by nofun) ?_ rfl
    rcases hpc with hpc | ⟨hpc, _⟩ <;> simp only [hpc, CallPc.spawning]
  | endWait before hpc =>
    refine h.setCall_quiet rfl rfl rfl (h.follows_of_eq rfl) (by nofun) ?_ rfl
    rcases hpc with hpc | ⟨hpc, _⟩ <;> simp only [hpc, CallPc.spawning]
  | _ =>
    refine h.setCall_quiet rfl rfl rfl (h.follows_of_eq rfl) (by nofun) ?_ rfl
    simp [CallPc.spawning, *]

theorem worker (h : DrainInv s) (hs : WorkerStep s t s') : DrainInv s' := by
  cases hs with
  | hardKill tt tg ht hpc hg hlock hkill =>
    rw [(h.sound tt.tg tg hg).hardKill] at hkill
    cases hkill
  | fetch tt tg w rest ht hpc hg hlock hlen hitems =>
    have hfollows := follows_fetch (h.sound tt.tg tg hg) hitems
    exact h.setThrd ht rfl rfl (by nofun) (h.follows_setGroup hg hfollows rfl) rfl rfl
  | softKill tt tg ht hpc hg hlock hlen hkill =>
    refine h.setThrd ht rfl rfl ?_ (h.follows_of_eq rfl) rfl rfl
    intro _ tg' hg'
    rw [hg] at hg'
    cases hg'
    refine ⟨hkill, ?_⟩
    rw [← List.length_eq_zero_iff, ← (h.sound tt.tg tg hg).coherent]
    exact hlen
  | goIdle tt tg wait ht hpc hg =>
    have hsound := h.sound tt.tg tg hg
    refine h.setThrd ht rfl rfl ?_ (h.follows_setGroup hg ?_ rfl) rfl rfl
    . cases wait <;> nofun
    . exact ⟨rfl, id, ⟨hsound.hardKill, hsound.close, hsound.coherent⟩⟩
  | leave tt tg ht hpc hg =>
    have hsound := h.sound tt.tg tg hg
    refine h.freeThrd ht hpc rfl (h.follows_setGroup hg ?_ rfl) rfl rfl
    exact ⟨rfl, id, ⟨hsound.hardKill, hsound.close, hsound.coherent⟩⟩
  | topTask tt w ht => exact h.setThrd ht rfl rfl (by nofun) (h.follows_of_eq rfl) rfl rfl
  | topNone tt ht => exact h.setThrd ht rfl rfl (by nofun) (h.follows_of_eq rfl) rfl rfl
  | call tt w ht => exact h.setThrd ht rfl rfl (by nofun) (h.follows_of_eq rfl) rfl rfl
  | inFunc tt w ht => exact h.setThrd ht rfl rfl (by nofun) (h.follows_of_eq rfl) rfl rfl
  | ret tt w ht => exact h.setThrd ht rfl rfl (by nofun) (h.follows_of_eq rfl) rfl rfl
  | decr tt ht => exact h.setThrd ht rfl rfl (by nofun) (h.follows_of_eq rfl) rfl rfl
  | block tt ht => exact h.setThrd ht rfl rfl (by nofun) (h.follows_of_eq rfl) rfl rfl
  | awake tt ht => exact h.setThrd ht rfl rfl (by nofun) (h.follows_of_eq rfl) rfl rfl

theorem frame (h : DrainInv s) (hthrds : s'.thrds = s.thrds) (hnext : s'.nextThrd = s.nextThrd)
    (hgroups : ∀ i tgi', s'.groups i = some tgi' → ∃ tgi, s.groups i = some tgi ∧ Follows tgi tgi')
    (hcalls : s'.calls = s.calls)
    : DrainInv s' := by
  refine h.setCall (p := s.calls 0) (k := 0) ?_ hthrds hnext hgroups ?_ (fun _ => .inl) ?_
  . rw [hcalls, update_eq_self]
  . exact fun min max flags hp => h.positive 0 min max flags hp
  . exact fun g ts' hp => .inl ⟨ts', hp, fun _ => .inl⟩

theorem manager {m : Nat} (h : DrainInv s) (ho : Ledger.Owned s.ledger) (hm : Managing s)
    (hs : ManagerStep s m s')
    : DrainInv s' := by
  cases hs with
  | look g gs tg hpc hg =>
    have hsound := h.sound g tg hg
    refine h.frame rfl rfl (h.follows_setGroup hg ?_ rfl) rfl
    exact ⟨rfl, id, ⟨hsound.hardKill, hsound.close, hsound.coherent⟩⟩
  | spawnTask g n gs tg w rest hpc hg hlen hitems =>
    have hlinked : g ∈ s.pool.groups.items := by
      apply hm m g
      rw [hpc]
      apply List.mem_cons_self
    have hfollows := follows_fetch (h.sound g tg hg) hitems
    exact h.spawn_manager _ ho hlinked hg hfollows rfl rfl rfl rfl
  | spawnNone g n gs tg hpc hg =>
    have hlinked : g ∈ s.pool.groups.items := by
      apply hm m g
      rw [hpc]
      apply List.mem_cons_self
    exact h.spawn_manager tg ho hlinked hg (h.follows_refl hg) rfl rfl rfl rfl
  | endSpawn g gs tg hpc hg =>
    have hsound := h.sound g tg hg
    refine h.frame rfl rfl (h.follows_setGroup hg ?_ rfl) rfl
    exact ⟨rfl, id, ⟨hsound.hardKill, hsound.close, hsound.coherent⟩⟩
  | _ => exact h.frame rfl rfl (h.follows_of_eq rfl) rfl

theorem step {a : Action} (h : DrainInv s) (hf : Fresh s) (ht : ThreadInv s)
    (ho : Ledger.Owned s.ledger) (hm : Managing s) (hs : Step s a s')
    : DrainInv s' := by
  cases hs with
  | start req s' hs => apply h.start hf hs
  | caller k s' hs => apply h.caller ht ho hs
  | worker t s' hs => apply h.worker hs
  | manager m timedOut s' hs => apply h.manager ho hm hs

/--
A group that is freed has no work in its queue.
-/
theorem queue_empty {tg : TGroup} (h : DrainInv s) (ho : Ledger.Owned s.ledger)
    (hk : (s.calls k).unjoined = some (g, [])) (hg : s.groups g = some tg)
    : tg.q.work.items = [] := by
  cases hthrds : tg.thrds with
  | nil =>
    obtain ⟨k', hk'⟩ := h.staffed g tg hg hthrds
    have heq := ho.unique k k' g (unjoined_owned hk) (spawning_owned hk')
    subst heq
    unfold CallPc.unjoined at hk
    unfold CallPc.spawning at hk'
    split at hk <;> simp_all
  | cons t ts =>
    have hmem : t ∈ tg.thrds := by
      rw [hthrds]
      apply List.mem_cons_self
    have hnil := (h.unjoined k g [] tg t hk hg hmem).resolve_left (by nofun)
    exact (h.left g tg t hg hmem hnil).2

end DrainInv

end Pool
