import TrashDb.Pool.Watch
import TrashDb.Pool.Lemmas.Linked
import TrashDb.Pool.Lemmas.Shutdown

/-!
This module contains the handshake of `wait_pool` with the workers as a `Tally`.
-/

namespace Pool

open Function

section

variable {s s' : Sys} {x : Watch} {k g t : Nat}

theorem mem_flagged (hf : Fresh s) : g ∈ s.flagged ↔ flagOf (s.groups g) = true := by
  rw [Sys.flagged, Finset.mem_filter, Finset.mem_range]
  refine ⟨And.right, fun h => ⟨?_, h⟩⟩
  apply hf.groups
  intro hnone
  rw [hnone] at h
  cases h

theorem mem_due (hf : Fresh s) : t ∈ s.due ↔ settles (s.thrds t) = true := by
  rw [Sys.due, Finset.mem_filter, Finset.mem_range]
  refine ⟨And.right, fun h => ⟨?_, h⟩⟩
  apply hf.thrds
  intro hnone
  rw [hnone] at h
  cases h

theorem mem_asleep (hf : Fresh x.sys)
    : k ∈ x.asleep ↔ (x.sys.calls k).blocked = true ∧ x.woken k = false := by
  rw [Watch.asleep, Finset.mem_filter, Finset.mem_range]
  refine ⟨And.right, fun h => ⟨?_, h⟩⟩
  apply hf.calls
  intro hreturned
  rw [hreturned] at h
  cases h.1

theorem left_of_free (hlock : s.pool.mutexPool = none) : s.left = none := by
  rw [Sys.left, hlock]

theorem left_of_holder (hlock : s.pool.mutexPool = some (.call k)) : s.left = (s.calls k).left := by
  rw [Sys.left, hlock]

theorem left_of_manager {m : Nat} (hlock : s.pool.mutexPool = some (.manager m)) : s.left = none := by
  rw [Sys.left, hlock]

theorem left_setCall {p : CallPc} (hcalls : s'.calls = update s.calls k p)
    (hmutex : s'.pool.mutexPool = s.pool.mutexPool) (hleft : p.left = (s.calls k).left)
    : s'.left = s.left := by
  unfold Sys.left
  rw [hmutex]
  split
  . rw [hcalls, update_apply]
    split
    . next heq => rw [heq, hleft]
    . rfl
  . rfl

theorem thrds_setThrd {α : Type} {f : Option TThread → α} {o : Option TThread}
    (hthrds : s'.thrds = update s.thrds t o) (ho : f o = f (s.thrds t)) (i : Nat)
    : f (s'.thrds i) = f (s.thrds i) := by
  rw [hthrds, update_apply]
  split
  . next heq => rw [heq, ho]
  . rfl

theorem flagged_of_eq (hf : Fresh s) (hflag : ∀ g, flagOf (s'.groups g) = flagOf (s.groups g)) (g : Nat)
    : flagOf (s'.groups g) = true ↔ g ∈ s.flagged := by
  rw [hflag, mem_flagged hf]

theorem due_of_eq (hf : Fresh s) (hdue : ∀ t, settles (s'.thrds t) = settles (s.thrds t)) (t : Nat)
    : settles (s'.thrds t) = true ↔ t ∈ s.due := by
  rw [hdue, mem_due hf]

theorem asleep_setCall {p : CallPc} (hf : Fresh x.sys) (hcalls : s'.calls = update x.sys.calls k p)
    (hk : (x.sys.calls k).blocked = false) (hp : p.blocked = false) (i : Nat)
    : (s'.calls i).blocked = true ∧ update x.woken k false i = false ↔ i ∈ x.asleep := by
  rw [mem_asleep hf, hcalls, update_apply, update_apply]
  split
  . next heq => simp [heq, hk, hp]
  . rfl

theorem tally_eq {y : Tally.State Nat Nat Nat} (hf : Fresh x.sys)
    (hcount : x.sys.pool.groupsWaiting = y.count) (hleft : x.sys.left = y.left)
    (hlinked : x.sys.pool.groups.items.toFinset = y.linked)
    (hflagged : ∀ g, flagOf (x.sys.groups g) = true ↔ g ∈ y.flagged)
    (hdue : ∀ t, settles (x.sys.thrds t) = true ↔ t ∈ y.due)
    (hwaiters : ∀ k, (x.sys.calls k).blocked = true ∧ x.woken k = false ↔ k ∈ y.waiters)
    : x.tally = y := by
  have hflagged : x.sys.flagged = y.flagged := by
    ext g
    rw [mem_flagged hf, hflagged]
  have hdue : x.sys.due = y.due := by
    ext t
    rw [mem_due hf, hdue]
  have hwaiters : x.asleep = y.waiters := by
    ext k
    rw [mem_asleep hf, hwaiters]
  rw [Watch.tally, hcount, hleft, hlinked, hflagged, hdue, hwaiters]

end

def CallPc.starts : CallPc → Bool
  | .waitStart _ => true
  | _ => false

def Sys.unlinks (s : Sys) (k : Nat) : Option Nat :=
  match s.calls k with
  | .unlink g => some g
  | .popGroups => s.pool.groups.items.head?
  | _ => none

def Watch.Dispensable (x : Watch) (g : Nat) : Prop :=
  flagOf (x.sys.groups g) = true →
    x.sys.pool.groupsWaiting <
      (x.sys.flagged ∩ x.sys.pool.groups.items.toFinset).card + x.sys.due.card

/--
The steps that can do harm to those who sleep: `wait_pool` takes over a counter that is too high, it
finds nothing to wait for and leaves the counter at 0 for the others as well, or a group is unlinked
that has still to be counted off.
-/
def Watch.Unhurt (x : Watch) : Action → Prop
  | .caller k =>
    ((x.sys.calls k).starts = true →
      x.sys.pool.groups.len ≤ x.sys.pool.groups.items.length + x.sys.due.card) ∧
    ((x.sys.calls k).left = some [] → x.sys.pool.groupsWaiting ≤ 0 → x.asleep = ∅) ∧
    ∀ g ∈ x.sys.unlinks k, x.Dispensable g
  | _ => True

def Sys.Undisturbed (s : Sys) : Action → Prop
  | .caller k =>
    ((s.calls k).starts = true → s.pool.groups.Coherent ∧ s.pool.groupsWaiting = 0) ∧
    ((s.calls k).destroys = true → ∀ g, flagOf (s.groups g) = false)
  | _ => True

def Simulates (x : Watch) (a : Action) (x' : Watch) : Prop :=
  ∃ e, Tally.Step x.tally e x'.tally ∧ (x.Unhurt a → Tally.Safe x.tally e) ∧
    (x.sys.Undisturbed a → Tally.Orderly x.tally e)

namespace Simulates

variable {x : Watch} {s' : Sys} {k : Nat}

theorem stay {x' : Watch} {a : Action} (h : x'.tally = x.tally) : Simulates x a x' := by
  refine ⟨.stay, ?_, fun _ => trivial, fun _ => trivial⟩
  rw [h]
  exact .stay

theorem setCall {p : CallPc} (hf : Fresh x.sys) (hf' : Fresh s')
    (hcalls : s'.calls = update x.sys.calls k p) (hk : (x.sys.calls k).blocked = false)
    (hp : p.blocked = false) (hcount : s'.pool.groupsWaiting = x.sys.pool.groupsWaiting)
    (hleft : s'.left = x.sys.left) (hitems : s'.pool.groups = x.sys.pool.groups)
    (hflag : ∀ g, flagOf (s'.groups g) = flagOf (x.sys.groups g))
    (hdue : ∀ t, settles (s'.thrds t) = settles (x.sys.thrds t))
    : Simulates x (.caller k) { x with sys := s', woken := update x.woken k false } := by
  apply stay
  exact tally_eq hf' hcount hleft (by rw [hitems]; rfl) (flagged_of_eq hf hflag) (due_of_eq hf hdue)
    (asleep_setCall hf hcalls hk hp)

theorem link {g max m : Nat} (hi : PoolInv x.sys) (hf' : Fresh s')
    (hpc : x.sys.calls k = .addCharge g max) (hlock : x.sys.pool.mutexPool = none)
    (hcalls : s'.calls = update x.sys.calls k .returned) (hgroups : s'.groups = x.sys.groups)
    (hthrds : s'.thrds = x.sys.thrds) (hpool : s'.pool = x.sys.pool.addGroupCharge g max m)
    : Simulates x (.caller k) { x with sys := s', woken := update x.woken k false } := by
  have hg : g ∉ x.sys.pool.groups.items := by
    refine (hi.owned.owned k g ?_).2
    simp only [Sys.ledger, hpc]
    rfl
  have heq : Watch.tally { x with sys := s', woken := update x.woken k false } =
      { x.tally with linked := insert g x.tally.linked } := by
    refine tally_eq hf' ?_ ?_ ?_ (flagged_of_eq hi.fresh (fun _ => by rw [hgroups]))
      (due_of_eq hi.fresh (fun _ => by rw [hthrds]))
      (asleep_setCall hi.fresh hcalls (by rw [hpc]; rfl) rfl) <;> dsimp only
    . rw [hpool, TPool.addGroupCharge_groupsWaiting]
      rfl
    . rw [left_of_free (by rw [hpool, TPool.addGroupCharge_mutexPool, hlock])]
      exact (left_of_free hlock).symm
    . rw [hpool, TPool.addGroupCharge_groups, LL.listAppend_items]
      ext i
      simp [Watch.tally]
  refine ⟨.link g, ?_, fun _ => trivial, fun _ => trivial⟩
  rw [heq]
  refine .link g ?_ (left_of_free hlock)
  simpa [Watch.tally] using hg

theorem unlink {g : Nat} {p : CallPc} {l : LL Nat} (hi : PoolInv x.sys) (hf' : Fresh s')
    (hg : l.items = x.sys.pool.groups.items.erase g) (hleft : x.sys.left = none)
    (hk : (x.sys.calls k).blocked = false ∧ (x.sys.calls k).left = none)
    (hp : p.blocked = false ∧ p.left = none) (hcalls : s'.calls = update x.sys.calls k p)
    (hgroups : s'.groups = x.sys.groups) (hthrds : s'.thrds = x.sys.thrds)
    (hpool : s'.pool = { x.sys.pool with groups := l })
    (hunlinks : x.sys.unlinks k = some g) (hdestroys : (x.sys.calls k).destroys = true)
    : Simulates x (.caller k) { x with sys := s', woken := update x.woken k false } := by
  have hnodup : x.sys.pool.groups.items.Nodup := hi.owned.nodup
  have heq : Watch.tally { x with sys := s', woken := update x.woken k false } =
      { x.tally with linked := x.tally.linked.erase g } := by
    refine tally_eq hf' ?_ (left_setCall hcalls (by rw [hpool]) (by rw [hk.2, hp.2])) ?_
      (flagged_of_eq hi.fresh (fun _ => by rw [hgroups]))
      (due_of_eq hi.fresh (fun _ => by rw [hthrds])) (asleep_setCall hi.fresh hcalls hk.1 hp.1) <;>
      dsimp only
    . rw [hpool]
      rfl
    . rw [hpool, hg]
      ext i
      simp [Watch.tally, hnodup.mem_erase_iff]
  refine ⟨.unlink g, ?_, ?_, ?_⟩
  . rw [heq]
    exact .unlink g hleft
  . intro h hmem
    apply h.2.2 g hunlinks
    rw [← mem_flagged hi.fresh]
    exact (Finset.mem_inter.mp hmem).1
  . intro h hmem
    rw [Watch.tally, mem_flagged hi.fresh, h.2 hdestroys] at hmem
    cases hmem

theorem free {g thrdMax : Nat} {p : CallPc} {l : LL Nat} (hi : PoolInv x.sys) (hf' : Fresh s')
    (hk : (x.sys.calls k).phase = .closing g)
    (hblocked : (x.sys.calls k).blocked = false ∧ (x.sys.calls k).left = none)
    (hp : p.blocked = false ∧ p.left = none) (hcalls : s'.calls = update x.sys.calls k p)
    (hgroups : s'.groups = update x.sys.groups g none) (hthrds : s'.thrds = x.sys.thrds)
    (hpool : s'.pool = { x.sys.pool with groups := l }.refund thrdMax)
    (hitems : l.items = x.sys.pool.groups.items) (hdestroys : (x.sys.calls k).destroys = true)
    : Simulates x (.caller k) { x with sys := s', woken := update x.woken k false } := by
  have hg : g ∉ x.sys.pool.groups.items := by
    refine (hi.owned.owned k g ?_).2
    simp only [Sys.ledger, hk]
    rfl
  have heq : Watch.tally { x with sys := s', woken := update x.woken k false } =
      { x.tally with flagged := x.tally.flagged.erase g } := by
    refine tally_eq hf' ?_ (left_setCall hcalls (by rw [hpool]; rfl) (by rw [hblocked.2, hp.2])) ?_ ?_
      (due_of_eq hi.fresh (fun _ => by rw [hthrds]))
      (asleep_setCall hi.fresh hcalls hblocked.1 hp.1)
    . dsimp only
      rw [hpool]
      rfl
    . dsimp only
      rw [hpool, TPool.refund_groups, hitems]
      rfl
    . intro i
      dsimp only
      rw [hgroups, update_apply, Watch.tally, Finset.mem_erase, mem_flagged hi.fresh]
      split
      . next heq => simp [heq, flagOf]
      . next hne => simp [hne]
  refine ⟨.free g, ?_, fun _ => trivial, ?_⟩
  . rw [heq]
    refine .free g ?_
    simpa [Watch.tally] using hg
  . intro h hmem
    rw [Watch.tally, mem_flagged hi.fresh, h.2 hdestroys] at hmem
    cases hmem

theorem waitStart {before : List Nat} (hi : PoolInv x.sys) (hf' : Fresh s')
    (hpc : x.sys.calls k = .waitStart before) (hlock : x.sys.pool.mutexPool = none)
    (hcalls : s'.calls = update x.sys.calls k (.waitLook x.sys.pool.groups.items before))
    (hgroups : s'.groups = x.sys.groups) (hthrds : s'.thrds = x.sys.thrds)
    (hpool : s'.pool =
      { x.sys.pool with mutexPool := some (.call k), groupsWaiting := x.sys.pool.groups.len })
    : Simulates x (.caller k) { x with sys := s', woken := update x.woken k false } := by
  have heq : Watch.tally { x with sys := s', woken := update x.woken k false } =
      { x.tally with left := some x.sys.pool.groups.items, count := x.sys.pool.groups.len } := by
    refine tally_eq hf' (by rw [hpool]) ?_ (by rw [hpool]; rfl)
      (flagged_of_eq hi.fresh (fun _ => by rw [hgroups]))
      (due_of_eq hi.fresh (fun _ => by rw [hthrds]))
      (asleep_setCall hi.fresh hcalls (by rw [hpc]; rfl) rfl)
    rw [left_of_holder (by rw [hpool]), hcalls, update_self]
    rfl
  refine ⟨.start x.sys.pool.groups.items x.sys.pool.groups.len, ?_, ?_, ?_⟩
  . rw [heq]
    exact .start _ _ (left_of_free hlock) hi.owned.nodup rfl
  . intro h
    have hlen := h.1 (by rw [hpc]; rfl)
    simp only [Tally.Safe, Watch.tally]
    omega
  . intro h
    obtain ⟨hcoherent, hzero⟩ := h.1 (by rw [hpc]; rfl)
    refine ⟨?_, hzero⟩
    rw [hcoherent]

theorem left_of_look {gs before : List Nat} (hi : PoolInv x.sys)
    (hpc : x.sys.calls k = .waitLook gs before)
    : x.sys.left = some gs := by
  rw [left_of_holder (hi.lock.call k (by rw [hpc]; rfl)), hpc]
  rfl

theorem skip {g : Nat} {gs before : List Nat} (hi : PoolInv x.sys) (hf' : Fresh s')
    (hpc : x.sys.calls k = .waitLook (g :: gs) before)
    (hcalls : s'.calls = update x.sys.calls k (.waitLook gs before))
    (hgroups : s'.groups = x.sys.groups) (hthrds : s'.thrds = x.sys.thrds)
    (hpool : s'.pool = { x.sys.pool with groupsWaiting := x.sys.pool.groupsWaiting - 1 })
    : Simulates x (.caller k) { x with sys := s', woken := update x.woken k false } := by
  have heq : Watch.tally { x with sys := s', woken := update x.woken k false } =
      { x.tally with left := some gs, count := x.tally.count - 1 } := by
    refine tally_eq hf' (by rw [hpool]; rfl) ?_ (by rw [hpool]; rfl)
      (flagged_of_eq hi.fresh (fun _ => by rw [hgroups]))
      (due_of_eq hi.fresh (fun _ => by rw [hthrds]))
      (asleep_setCall hi.fresh hcalls (by rw [hpc]; rfl) rfl)
    have hlock := hi.lock.call k (by rw [hpc]; rfl)
    rw [left_of_holder (by rw [hpool]; exact hlock), hcalls, update_self]
    rfl
  refine ⟨.skip, ?_, fun _ => trivial, fun _ => trivial⟩
  rw [heq]
  exact .skip g gs (left_of_look hi hpc)

theorem flag {g : Nat} {gs before : List Nat} {tg' : TGroup} (hi : PoolInv x.sys) (hf' : Fresh s')
    (hpc : x.sys.calls k = .waitLook (g :: gs) before)
    (hcalls : s'.calls = update x.sys.calls k (.waitLook gs before))
    (hgroups : s'.groups = update x.sys.groups g (some tg')) (hflag : tg'.groupWait = true)
    (hthrds : s'.thrds = x.sys.thrds) (hpool : s'.pool = x.sys.pool)
    : Simulates x (.caller k) { x with sys := s', woken := update x.woken k false } := by
  have heq : Watch.tally { x with sys := s', woken := update x.woken k false } =
      { x.tally with left := some gs, flagged := insert g x.tally.flagged } := by
    refine tally_eq hf' (by rw [hpool]; rfl) ?_ (by rw [hpool]; rfl) ?_
      (due_of_eq hi.fresh (fun _ => by rw [hthrds]))
      (asleep_setCall hi.fresh hcalls (by rw [hpc]; rfl) rfl)
    . have hlock := hi.lock.call k (by rw [hpc]; rfl)
      rw [left_of_holder (by rw [hpool]; exact hlock), hcalls, update_self]
      rfl
    . intro i
      dsimp only
      rw [hgroups, update_apply, Finset.mem_insert, Watch.tally, mem_flagged hi.fresh]
      split
      . next heq => simp [heq, flagOf, hflag]
      . next hne => simp [hne]
  refine ⟨.flag, ?_, fun _ => trivial, fun _ => trivial⟩
  rw [heq]
  exact .flag g gs (left_of_look hi hpc)

theorem asleep_test {p : CallPc} (hf : Fresh x.sys) (hcalls : s'.calls = update x.sys.calls k p)
    (i : Nat)
    : (s'.calls i).blocked = true ∧ update x.woken k false i = false ↔
        i ∈ if p.blocked then insert k x.asleep else x.asleep.erase k := by
  rw [hcalls, update_apply, update_apply]
  by_cases hi : i = k
  . cases hp : p.blocked <;> simp [hi, hp]
  . cases hp : p.blocked <;> simp [hi, mem_asleep hf]

theorem test {before : List Nat} {p : CallPc} {tp : TPool} (hi : PoolInv x.sys) (hf' : Fresh s')
    (hpc : x.sys.calls k = .waitLook [] before ∨
      (x.sys.calls k = .waitBlock before ∧ x.sys.pool.mutexPool = none))
    (hcalls : s'.calls = update x.sys.calls k p)
    (hp : p.blocked = true ↔ x.sys.pool.groupsWaiting > 0)
    (hgroups : s'.groups = x.sys.groups) (hthrds : s'.thrds = x.sys.thrds)
    (hpool : s'.pool = tp) (hmutex : tp.mutexPool = none) (htp : tp.groups = x.sys.pool.groups)
    (hcount : tp.groupsWaiting = x.sys.pool.groupsWaiting)
    : Simulates x (.caller k) { x with sys := s', woken := update x.woken k false } := by
  have hleft : x.sys.left = none ∨ x.sys.left = some [] := by
    rcases hpc with hpc | ⟨hpc, hlock⟩
    . exact .inr (left_of_look hi hpc)
    . exact .inl (left_of_free hlock)
  have heq : Watch.tally { x with sys := s', woken := update x.woken k false } =
      {
        x.tally with
        left := none
        waiters := if p.blocked then insert k x.tally.waiters else x.tally.waiters.erase k
      } := by
    exact tally_eq hf' (by rw [hpool]; exact hcount) (left_of_free (by rw [hpool]; exact hmutex))
      (by rw [hpool, htp]; rfl) (flagged_of_eq hi.fresh (fun _ => by rw [hgroups]))
      (due_of_eq hi.fresh (fun _ => by rw [hthrds])) (asleep_test hi.fresh hcalls)
  refine ⟨.test k, ?_, ?_, fun _ => trivial⟩
  . rw [heq]
    by_cases hwait : x.sys.pool.groupsWaiting > 0
    . rw [if_pos (hp.mpr hwait)]
      exact .sleep k hleft hwait
    . rw [if_neg (fun h => hwait (hp.mp h))]
      exact .pass k hleft (Int.not_lt.mp hwait)
  . intro h hnil hzero
    rcases hpc with hpc | ⟨hpc, hlock⟩
    . rw [Watch.tally, h.2.1 (by rw [hpc]; rfl) hzero]
      apply Finset.empty_subset
    . rw [Watch.tally, left_of_free hlock] at hnil
      cases hnil

theorem caller (hi : PoolInv x.sys) (hs : CallStep x.sys k s')
    : Simulates x (.caller k) { x with sys := s', woken := update x.woken k false } := by
  have hf' := hi.fresh.caller hs
  have hnew : settles (x.sys.thrds x.sys.nextThrd) = false := by
    rw [hi.fresh.nextThrd_eq_none]
    rfl
  cases hs with
  | build min max flags hpc =>
    refine setCall hi.fresh hf' rfl (by rw [hpc]; rfl) rfl rfl (left_setCall rfl rfl (by rw [hpc]; rfl))
      rfl ?_ (fun _ => rfl)
    intro g
    simp only [Sys.setCall, Sys.setGroup, update_apply]
    split
    . next heq =>
      rw [heq, hi.fresh.nextGroup_eq_none]
      rfl
    . rfl
  | spawn g n max tg hpc hg =>
    exact setCall hi.fresh hf' rfl (by rw [hpc]; rfl) rfl rfl (left_setCall rfl rfl (by rw [hpc]; rfl))
      rfl (flagOf_setGroup hg rfl rfl) (thrds_setThrd rfl (by rw [hnew]; rfl))
  | endSpawn g max tg hpc hg | close g by_ tg hpc hg | endWake g ts by_ tg hpc hg
  | reserve g w tg t rest hpc hg =>
    exact setCall hi.fresh hf' rfl (by rw [hpc]; rfl) rfl rfl (left_setCall rfl rfl (by rw [hpc]; rfl))
      rfl (flagOf_setGroup hg rfl rfl) (fun _ => rfl)
  | wake g ts by_ tg t rest tt hpc hg hlen hitems htt =>
    have hself := (update_eq_self k x.sys.calls).symm
    exact setCall hi.fresh hf' hself (by rw [hpc]; rfl) (by rw [hpc]; rfl) rfl (left_setCall hself rfl rfl)
      rfl (flagOf_setGroup hg rfl rfl) (thrds_setThrd rfl (by rw [htt]; rfl))
  | chargeFirst g max hpc hlock | charge g max hpc hlock =>
    exact link hi hf' hpc hlock rfl rfl rfl rfl
  | unlink g hpc hlock hg =>
    exact unlink hi hf' rfl (left_of_free hlock) (by rw [hpc]; exact ⟨rfl, rfl⟩) ⟨rfl, rfl⟩ rfl rfl rfl
      rfl (by rw [Sys.unlinks, hpc]) (by rw [hpc]; rfl)
  | popGroup g rest hpc hlen hitems =>
    refine unlink hi hf' (g := g) (by rw [hitems]; simp) ?_ (by rw [hpc]; exact ⟨rfl, rfl⟩) ⟨rfl, rfl⟩ rfl
      rfl rfl rfl (by rw [Sys.unlinks, hpc, hitems]; rfl) (by rw [hpc]; rfl)
    rw [left_of_holder (hi.lock.call k (by rw [hpc]; rfl)), hpc]
    rfl
  | endJoinPool g tg hpc hg =>
    exact free hi hf' (l := x.sys.pool.groups) (by rw [hpc]; rfl) (by rw [hpc]; exact ⟨rfl, rfl⟩)
      ⟨rfl, rfl⟩ rfl rfl rfl rfl rfl (by rw [hpc]; rfl)
  | refund g tg hpc hg =>
    exact free hi hf' (by rw [hpc]; rfl) (by rw [hpc]; exact ⟨rfl, rfl⟩) ⟨rfl, rfl⟩ rfl rfl rfl rfl rfl
      (by rw [hpc]; rfl)
  | killDead hpc hlock | relock hpc hlock =>
    refine setCall hi.fresh hf' rfl (by rw [hpc]; rfl) rfl rfl ?_ rfl (fun _ => rfl) (fun _ => rfl)
    rw [left_of_free hlock]
    simp [Sys.left, CallPc.left]
  | freePool hpc =>
    refine setCall hi.fresh hf' rfl (by rw [hpc]; rfl) rfl rfl ?_ rfl (fun _ => rfl) (fun _ => rfl)
    rw [left_of_free rfl, left_of_holder (hi.lock.call k (by rw [hpc]; rfl)), hpc]
    rfl
  | queue g w tg pc hpc hg hlock hclose hidle hfull hnext =>
    rcases hnext with rfl | rfl <;>
      exact setCall hi.fresh hf' rfl (by rw [hpc]; rfl) rfl rfl
        (left_setCall rfl rfl (by rw [hpc]; rfl)) rfl (flagOf_setGroup hg rfl rfl) (fun _ => rfl)
  | full g w tg pc hpc hg hlock hclose hidle hfull hnext =>
    rcases hnext with rfl | rfl <;>
      exact setCall hi.fresh hf' rfl (by rw [hpc]; rfl) rfl rfl
        (left_setCall rfl rfl (by rw [hpc]; rfl)) rfl (fun _ => rfl) (fun _ => rfl)
  | hand g t w tt hpc htt =>
    exact setCall hi.fresh hf' rfl (by rw [hpc]; rfl) rfl rfl (left_setCall rfl rfl (by rw [hpc]; rfl))
      rfl (fun _ => rfl) (thrds_setThrd rfl (by rw [htt]; rfl))
  | waitStart before hpc hlock => exact waitStart hi hf' hpc hlock rfl rfl rfl rfl
  | skip g gs before tg hpc => exact skip hi hf' hpc rfl rfl rfl rfl
  | flag g gs before tg hpc => exact flag hi hf' hpc rfl rfl rfl rfl rfl
  | block before hpc hwait =>
    exact test hi hf' hpc rfl ⟨fun _ => hwait, fun _ => rfl⟩ rfl rfl rfl rfl rfl rfl
  | endWait before hpc hwait =>
    exact test hi hf' hpc rfl ⟨nofun, fun h => absurd hwait (Int.not_le.mpr h)⟩ rfl rfl rfl rfl rfl rfl
  | _ =>
    refine setCall hi.fresh hf' rfl ?_ rfl rfl (left_setCall rfl rfl ?_) rfl (fun _ => rfl) (fun _ => rfl) <;>
      simp [*, CallPc.blocked, CallPc.left]

theorem frame {a : Action} (hf : Fresh x.sys) (hf' : Fresh s')
    (hcalls : ∀ k, (s'.calls k).blocked = (x.sys.calls k).blocked)
    (hcount : s'.pool.groupsWaiting = x.sys.pool.groupsWaiting)
    (hleft : s'.left = x.sys.left) (hitems : s'.pool.groups = x.sys.pool.groups)
    (hflag : ∀ g, flagOf (s'.groups g) = flagOf (x.sys.groups g))
    (hdue : ∀ t, settles (s'.thrds t) = settles (x.sys.thrds t))
    : Simulates x a { x with sys := s' } := by
  apply stay
  refine tally_eq hf' hcount hleft (by rw [hitems]; rfl) (flagged_of_eq hf hflag) (due_of_eq hf hdue) ?_
  intro k
  dsimp only
  rw [hcalls, ← mem_asleep hf]
  rfl

theorem start {req : Req} (hi : PoolInv x.sys) (hs : StartStep x.sys req s')
    : Simulates x (.call req) { x with sys := s' } := by
  have hf' := hi.fresh.start hs
  have hnew := hi.fresh.nextCall_eq_returned
  have hblocked : ∀ p : CallPc, p.blocked = false → ∀ k,
      (update x.sys.calls x.sys.nextCall p k).blocked = (x.sys.calls k).blocked := by
    intro p hp k
    rw [update_apply]
    split
    . next heq =>
      rw [heq, hnew, hp]
      rfl
    . rfl
  cases hs <;>
    exact frame hi.fresh hf' (hblocked _ rfl) rfl (left_setCall rfl rfl (by rw [hnew]; rfl)) rfl
      (fun _ => rfl) (fun _ => rfl)

theorem left_of_eq {s : Sys} (hmutex : s'.pool.mutexPool = s.pool.mutexPool)
    (hcalls : s'.calls = s.calls)
    : s'.left = s.left := by
  rw [Sys.left, Sys.left, hmutex, hcalls]

theorem clear {t : Nat} {tt tt' : TThread} {tg tg' : TGroup} {a : Action} (hi : PoolInv x.sys)
    (hf' : Fresh s') (htt : x.sys.thrds t = some tt) (hpc : tt.pc = .grp)
    (hg : x.sys.groups tt.tg = some tg) (hflag : tg.groupWait = true) (hflag' : tg'.groupWait = false)
    (hgroups : s'.groups = update x.sys.groups tt.tg (some tg'))
    (hthrds : s'.thrds = update x.sys.thrds t (some tt')) (hpc' : tt'.pc = .decr)
    (hpool : s'.pool = x.sys.pool) (hcalls : s'.calls = x.sys.calls)
    : Simulates x a { x with sys := s' } := by
  have heq : Watch.tally { x with sys := s' } =
      {
        x.tally with
        flagged := x.tally.flagged.erase tt.tg
        due := insert t x.tally.due
      } := by
    refine tally_eq hf' (by rw [hpool]; rfl) (left_of_eq (by rw [hpool]) hcalls) (by rw [hpool]; rfl)
      ?_ ?_ ?_
    . intro i
      dsimp only
      rw [hgroups, update_apply, Finset.mem_erase, Watch.tally, mem_flagged hi.fresh]
      split
      . next heq => simp [heq, flagOf, hflag']
      . next hne => simp [hne]
    . intro i
      dsimp only
      rw [hthrds, update_apply, Finset.mem_insert, Watch.tally, mem_due hi.fresh]
      split
      . next heq => simp [heq, settles, hpc']
      . next hne => simp [hne]
    . intro k
      dsimp only
      rw [hcalls, ← mem_asleep hi.fresh]
      rfl
  refine ⟨.clear tt.tg t, ?_, fun _ => trivial, fun _ => trivial⟩
  rw [heq]
  apply Tally.Step.clear
  . rw [Watch.tally, mem_flagged hi.fresh, hg, flagOf, hflag]
  . simp [Watch.tally, mem_due hi.fresh, htt, settles, hpc]

def counted (x : Watch) (s' : Sys) : Watch :=
  if s'.pool.groupsWaiting = 0 then Watch.broadcast { x with sys := s' } else { x with sys := s' }

theorem counted_sys (x : Watch) (s' : Sys) : (counted x s').sys = s' := by
  unfold counted
  split <;> rfl

theorem settle {t : Nat} {tt : TThread} {a : Action} (hi : PoolInv x.sys) (hf' : Fresh s')
    (htt : x.sys.thrds t = some tt) (hpc : tt.pc = .decr) (hlock : x.sys.pool.mutexPool = none)
    (hgroups : s'.groups = x.sys.groups)
    (hthrds : s'.thrds = update x.sys.thrds t (some { tt with pc := .sleep }))
    (hpool : s'.pool = { x.sys.pool with groupsWaiting := x.sys.pool.groupsWaiting - 1 })
    (hcalls : s'.calls = x.sys.calls)
    : Simulates x a (counted x s') := by
  have heq : (counted x s').tally =
      {
        x.tally with
        count := x.tally.count - 1
        due := x.tally.due.erase t
        waiters := if x.tally.count - 1 = 0 then ∅ else x.tally.waiters
      } := by
    refine tally_eq (by rw [counted_sys]; exact hf') ?_ ?_ ?_ ?_ ?_ ?_
    . rw [counted_sys, hpool]
      rfl
    . rw [counted_sys]
      exact left_of_eq (by rw [hpool]) hcalls
    . rw [counted_sys, hpool]
      rfl
    . rw [counted_sys]
      exact flagged_of_eq hi.fresh (fun _ => by rw [hgroups])
    . intro i
      rw [counted_sys, hthrds, update_apply, Finset.mem_erase, Watch.tally, mem_due hi.fresh]
      split
      . next heq => simp [heq, settles]
      . next hne => simp [hne]
    . intro k
      have hcount : s'.pool.groupsWaiting = x.sys.pool.groupsWaiting - 1 := by rw [hpool]
      by_cases hzero : x.sys.pool.groupsWaiting - 1 = 0
      . cases hblocked : (x.sys.calls k).blocked <;>
          simp [counted, hcount, Watch.tally, hzero, Watch.broadcast, hcalls, hblocked]
      . simp [counted, hcount, Watch.tally, hzero, hcalls, mem_asleep hi.fresh]
  refine ⟨.settle t, ?_, fun _ => trivial, fun _ => trivial⟩
  rw [heq]
  refine .settle t ?_ (left_of_free hlock)
  rw [Watch.tally, mem_due hi.fresh, htt, settles, hpc]
  rfl

theorem worker {t : Nat} {x' : Watch} (hi : PoolInv x.sys) (hs : WorkerStep x.sys t s')
    (hx : x' = if settles (x.sys.thrds t) then counted x s' else { x with sys := s' })
    : Simulates x (.worker t) x' := by
  have hf' := hi.fresh.worker hs
  cases hs with
  | decr tt htt hpc hlock hfreed =>
    rw [if_pos (by rw [htt, settles, hpc]; rfl)] at hx
    rw [hx]
    exact settle hi hf' htt hpc hlock rfl rfl rfl rfl
  | goIdle tt tg wait htt hpc hg hlock hlen hkill hrun hwait =>
    rw [if_neg (by rw [htt, settles, hpc]; exact Bool.false_ne_true)] at hx
    rw [hx]
    cases wait with
    | true =>
      have hflag : tg.groupWait = true := by
        simp only [Bool.true_eq, Bool.and_eq_true] at hwait
        exact hwait.1
      exact clear hi hf' htt hpc hg hflag (by simp) rfl rfl rfl rfl rfl
    | false =>
      exact frame hi.fresh hf' (fun _ => rfl) rfl (left_of_eq rfl rfl) rfl
        (flagOf_setGroup hg rfl (by simp)) (thrds_setThrd rfl (by rw [htt, settles, settles, hpc]; rfl))
  | fetch tt tg w rest htt hpc hg | leave tt tg htt hpc hg =>
    rw [if_neg (by rw [htt, settles, hpc]; exact Bool.false_ne_true)] at hx
    rw [hx]
    exact frame hi.fresh hf' (fun _ => rfl) rfl (left_of_eq rfl rfl) rfl
      (flagOf_setGroup hg rfl rfl) (thrds_setThrd rfl (by rw [htt, settles, settles, hpc]; rfl))
  | block tt htt hpc hstate | awake tt htt hpc hstate =>
    have hnot : settles (x.sys.thrds t) = false := by
      rcases hpc with hpc | hpc <;> rw [htt, settles, hpc] <;> rfl
    rw [if_neg (by rw [hnot]; exact Bool.false_ne_true)] at hx
    rw [hx]
    exact frame hi.fresh hf' (fun _ => rfl) rfl (left_of_eq rfl rfl) rfl (fun _ => rfl)
      (thrds_setThrd rfl (by rw [hnot]; rfl))
  | topTask tt w htt hpc | topNone tt htt hpc | call tt w htt hpc | inFunc tt w htt hpc
  | ret tt w htt hpc | hardKill tt tg htt hpc | softKill tt tg htt hpc =>
    rw [if_neg (by rw [htt, settles, hpc]; exact Bool.false_ne_true)] at hx
    rw [hx]
    exact frame hi.fresh hf' (fun _ => rfl) rfl (left_of_eq rfl rfl) rfl (fun _ => rfl)
      (thrds_setThrd rfl (by rw [htt, settles, settles, hpc]; rfl))

theorem manager {m : Nat} {timedOut : Bool} (hi : PoolInv x.sys) (hs : ManagerStep x.sys m s')
    : Simulates x (.manager m timedOut) { x with sys := s' } := by
  have hf' := hi.fresh.manager hs
  have hnew : settles (x.sys.thrds x.sys.nextThrd) = false := by
    rw [hi.fresh.nextThrd_eq_none]
    rfl
  cases hs with
  | stay hpc | exit hpc =>
    exact frame hi.fresh hf' (fun _ => rfl) rfl (left_of_eq rfl rfl) rfl (fun _ => rfl) (fun _ => rfl)
  | pass hpc hlock =>
    refine frame hi.fresh hf' (fun _ => rfl) rfl ?_ rfl (fun _ => rfl) (fun _ => rfl)
    rw [left_of_free hlock]
    exact left_of_manager rfl
  | endPass hpc =>
    refine frame hi.fresh hf' (fun _ => rfl) rfl ?_ rfl (fun _ => rfl) (fun _ => rfl)
    rw [left_of_manager (hi.lock.manager m (by rw [hpc]; rfl))]
    exact left_of_free rfl
  | look g gs tg hpc hg | endSpawn g gs tg hpc hg =>
    exact frame hi.fresh hf' (fun _ => rfl) rfl (left_of_eq rfl rfl) rfl (flagOf_setGroup hg rfl rfl)
      (fun _ => rfl)
  | spawnTask g n gs tg w rest hpc hg | spawnNone g n gs tg hpc hg =>
    exact frame hi.fresh hf' (fun _ => rfl) rfl (left_of_eq rfl rfl) rfl (flagOf_setGroup hg rfl rfl)
      (thrds_setThrd rfl (by rw [hnew]; rfl))

theorem step {a : Action} {x' : Watch} (hi : PoolInv x.sys) (hs : x.step a = some x')
    : Simulates x a x' ∧ Step x.sys a x'.sys := by
  unfold Watch.step at hs
  split at hs
  . cases hs
  . next s' hs' =>
    have hstep := step_of_step hs'
    cases hstep with
    | start req s' h =>
      cases hs
      exact ⟨start hi h, .start req s' h⟩
    | caller k s' h =>
      cases hs
      exact ⟨caller hi h, .caller k s' h⟩
    | worker t s' h =>
      have hx : x' = if settles (x.sys.thrds t) then counted x s' else { x with sys := s' } := by
        unfold counted
        dsimp only at hs
        split at hs
        . next hzero =>
          cases hs
          rw [if_pos hzero.1, if_pos hzero.2]
        . next hzero =>
          cases hs
          split
          . next hsettles => rw [if_neg (fun hcount => hzero ⟨hsettles, hcount⟩)]
          . rfl
      have hsys : x'.sys = s' := by
        rw [hx]
        split
        . apply counted_sys
        . rfl
      refine ⟨worker hi h hx, ?_⟩
      rw [hsys]
      exact .worker t s' h
    | manager m timedOut s' h =>
      cases hs
      exact ⟨manager hi h, .manager m timedOut s' h⟩

end Simulates

theorem Watch.exists_step {x : Watch} {a : Action} {s' : Sys} (hs : x.sys.step a = some s')
    : ∃ x', x.step a = some x' ∧ x'.sys = s' := by
  unfold Watch.step
  rw [hs]
  cases a with
  | worker t =>
    dsimp only
    split <;> exact ⟨_, rfl, rfl⟩
  | _ => exact ⟨_, rfl, rfl⟩

/--
Nobody is going to wake up the caller of `wait_pool`.
-/
structure Watch.Abandoned (x : Watch) (k : Nat) : Prop where
  blocked : (x.sys.calls k).blocked = true
  woken : x.woken k = false
  flagged : ∀ g, g ∈ x.sys.pool.groups.items → flagOf (x.sys.groups g) = false
  settles : ∀ t, settles (x.sys.thrds t) = false

theorem not_abandoned_of_covered {x : Watch} {k : Nat} (hf : Fresh x.sys) (h : Tally.Covered x.tally)
    : ¬ x.Abandoned k := by
  intro habandoned
  have hasleep : x.tally.waiters.Nonempty := by
    refine ⟨k, ?_⟩
    rw [Watch.tally, mem_asleep hf]
    exact ⟨habandoned.blocked, habandoned.woken⟩
  rcases h.awaited hasleep with ⟨g, hg⟩ | ⟨t, ht⟩
  . rw [Watch.tally, Finset.mem_inter, mem_flagged hf, List.mem_toFinset] at hg
    rw [habandoned.flagged g hg.2] at hg
    cases hg.1
  . rw [Watch.tally, mem_due hf, habandoned.settles t] at ht
    cases ht

theorem Watch.tally_init {maxThrds : Nat} {tp : TPool} (h : TPool.initPool maxThrds = some tp)
    : (Watch.init tp).tally = ⟨0, none, ∅, ∅, ∅, ∅⟩ := by
  unfold TPool.initPool at h
  split at h
  . cases h
  . cases h
    rfl

theorem not_abandoned_of_unhurt {maxThrds : Nat} {tp : TPool} {as : List Action} {x : Watch}
    (hinit : TPool.initPool maxThrds = some tp)
    (hunhurt : Lts.Along Watch.step Watch.Unhurt (.init tp) as)
    (hrun : Lts.run Watch.step (.init tp) as = some x)
    : ∀ k, ¬ x.Abandoned k := by
  have hinv : PoolInv x.sys ∧ Tally.Listed x.tally ∧ Tally.Covered x.tally := by
    refine Lts.invariant_along
      (I := fun x => PoolInv x.sys ∧ Tally.Listed x.tally ∧ Tally.Covered x.tally) ?_ ?_ hunhurt hrun
    . intro x a x' ⟨hi, hlisted, hcovered⟩ ha hs
      obtain ⟨⟨e, htally, hsafe, _⟩, hstep⟩ := Simulates.step hi hs
      exact ⟨hi.step hstep, hlisted.step htally, hcovered.step hlisted (hsafe ha) htally⟩
    . rw [Watch.tally_init hinit]
      refine ⟨PoolInv.init hinit, ?_, ?_⟩ <;> constructor <;> simp [Tally.State.owed]
  intro k
  apply not_abandoned_of_covered hinv.1.fresh hinv.2.2

instance (x : Watch) (g : Nat) : Decidable (x.Dispensable g) := inferInstanceAs (Decidable (_ → _))

instance (x : Watch) : (a : Action) → Decidable (x.Unhurt a)
  | .caller _ => inferInstanceAs (Decidable (_ ∧ _))
  | .call _ | .worker _ | .manager _ _ => isTrue trivial

theorem not_abandoned_queued_work
    : ∃ tp x, TPool.initPool 4 = some tp ∧
        Lts.run Watch.step (.init tp) (.call (.addGroup 1 1 0) :: List.replicate 5 (.caller 0) ++
          .call (.doWork 0 7) :: List.replicate 3 (.caller 1) ++
          .call .waitPool :: List.replicate 3 (.caller 2)) = some x ∧
        x.sys.calls 2 = .waitBlock [7] ∧ ∀ k, ¬ x.Abandoned k := by
  refine ⟨_, _, rfl, rfl, rfl, ?_⟩
  exact @not_abandoned_of_unhurt 4 _ (.call (.addGroup 1 1 0) :: List.replicate 5 (.caller 0) ++
    .call (.doWork 0 7) :: List.replicate 3 (.caller 1) ++
    .call .waitPool :: List.replicate 3 (.caller 2)) _ rfl (by decide) rfl

/--
The group with the flag is destroyed, so its last thread leaves instead of counting itself off.
-/
theorem abandoned_destroyed_group
    : ¬ ∀ maxThrds tp as x, TPool.initPool maxThrds = some tp →
        Lts.run Watch.step (.init tp) as = some x → ∀ k, ¬ x.Abandoned k := by
  intro h
  have hs := h 4 _ (.call (.addGroup 1 1 0) :: List.replicate 5 (.caller 0) ++
    .call (.doWork 0 7) :: List.replicate 3 (.caller 1) ++
    .call .waitPool :: List.replicate 3 (.caller 2) ++
    .call (.destroyGroup 0) :: List.replicate 3 (.caller 3) ++
    List.replicate 7 (.worker 0) ++ List.replicate 3 (.caller 3)) _ rfl rfl 2
  apply hs
  refine ⟨rfl, rfl, by nofun, ?_⟩
  intro t
  cases t with
  | zero => rfl
  | succ t => rfl

end Pool
