import TrashDb.Pool.Lemmas.Progress
import TrashDb.Pool.Lemmas.Refuse

/-!
This module contains that `add_group` and `do_work` can always return, whatever state the others are in. A
`do_work` needs its group for that, which nobody may have freed before the call has locked it.
-/

namespace Pool

open Function Reach

def Acts (s s' : Sys) : Prop := ∃ a, s.own a ∧ s.step a = some s'

/--
The call is an `add_group`, or it is a `do_work` whose group is there if the call has not locked it yet.
-/
inductive Served (s : Sys) (k : Nat) : Prop where
  | check (min max : Nat) (flags : Int) (hk : s.calls k = .addCheck min max flags)
  | build (min max : Nat) (flags : Int) (hk : s.calls k = .addBuild min max flags)
  | spawn (g n max : Nat) (hk : s.calls k = .addSpawn g n max)
  | charge (g max : Nat) (hk : s.calls k = .addCharge g max)
  | offer (g w : Nat) (tg : TGroup) (hk : s.calls k = .offer g w) (hg : s.groups g = some tg)
  | answered (w : Nat) (rc : Rc) (hanswer : (s.calls k).answer = some (w, rc))

def AcceptsOwn (s : Sys) (k : Nat) (s' : Sys) : Prop :=
  s'.accepted = s.accepted ∨
    ∃ g w, s.calls k = .offer g w ∧ s'.accepted = update s.accepted g (s.accepted g ++ [w])

section

variable {s s' : Sys} {k g w : Nat}

theorem acts_of_drives {P : Sys → Prop} (h : Reaches Drives P s) : Reaches Acts P s :=
  h.mono fun _ _ hd => hd.step

theorem acceptsOwn_of_callStep (hs : CallStep s k s') : AcceptsOwn s k s' := by
  cases hs with
  | queue g w tg pc hpc | reserve g w tg t rest hpc => exact .inr ⟨g, w, hpc, rfl⟩
  | _ => exact .inl rfl

end

namespace LiveInv

variable {s s' : Sys} {k g w max : Nat} {tg : TGroup} {rc : Rc}

theorem done (hk : s.calls k = .done w rc) : Reaches Drives (fun s' => s'.calls k = .returned) s := by
  by_cases hrc : rc = .poolSuccess
  . have hs : s.step (.caller k) = some ({ s with returned := w :: s.returned }.setCall k .returned) := by
      simp only [Sys.step, Sys.callStep, hk, hrc, if_true]
    exact .of_step (drives_caller hs rfl (by rw [hk]; rfl)) (.of_self (update_self _ _ _))
  . have hs : s.step (.caller k) = some ({ s with given := s.given.erase w }.setCall k .returned) := by
      simp only [Sys.step, Sys.callStep, hk, hrc, if_false]
    exact .of_step (drives_caller hs rfl (by rw [hk]; rfl)) (.of_self (update_self _ _ _))

theorem answers (h : LiveInv s) (hanswer : (s.calls k).answer = some (w, rc))
    : Reaches Drives (fun s' => s'.calls k = .returned) s := by
  cases hk : s.calls k with
  | done w rc => exact done hk
  | notify w rc =>
    refine (drives_of_moves (h.onward (Under.moves h.unlock_pool))).bind ?_
    rintro s₁ _ ⟨h₁, honward, hfree⟩
    have hs : s₁.step (.caller k) =
        some ((s₁.setPool { s₁.pool with state := .running }).setCall k (.done w rc)) := by
      simp only [Sys.step, Sys.callStep, honward.calls_eq hk rfl, TPool.unlocked, hfree, h₁.unfreed,
        Option.isNone_none, Bool.not_false, Bool.and_self, if_true]
    exact .of_step (drives_caller hs rfl (by rw [honward.calls_eq hk rfl]; rfl)) (done (update_self _ _ _))
  | hand g t w => exact (drives_of_moves (h.handed hk)).bind fun _ _ hs => done hs.1
  | _ =>
    rw [hk] at hanswer
    cases hanswer

theorem offers (h : LiveInv s) (hwithin : Within s) (hk : s.calls k = .offer g w) (hg : s.groups g = some tg)
    : Reaches Acts (fun s' => s'.calls k = .returned ∧ AcceptsOwn s k s') s := by
  have hreached := h.onward (Under.moves (h.unlock_group hg))
  refine (acts_of_drives (drives_of_moves (hreached.keep (I := Within) ?_ hwithin))).bind ?_
  . intro s s' hwithin hm
    obtain ⟨a, _, hs⟩ := hm.step
    exact hwithin.step (step_of_step hs)
  rintro s₁ _ ⟨hwithin₁, h₁, honward, tg₁, hg₁, hfree⟩
  have hk₁ := honward.calls_eq hk rfl
  obtain ⟨s₂, rc, hsection, _, hanswer, _⟩ := doWorkSection_spec (s := s₁) (k := k) (g := g) (w := w)
    (hwithin₁ g tg₁ hg₁) (h₁.threads.coherent g tg₁ hg₁).1
  have hs : s₁.step (.caller k) = some s₂ := by
    simp only [Sys.step, Sys.callStep, hk₁, hg₁, hfree, Option.isNone_none, if_true]
    exact hsection
  refine .of_step ⟨.caller k, by rw [Sys.own, hk₁]; rfl, hs⟩ ?_
  have h₂ := h₁.step (by simp) hs
  obtain ⟨s₃, hdrives, hreturned⟩ := h₂.answers hanswer
  have haccepted : s₃.accepted = s₂.accepted :=
    invariant (I := fun b => b.accepted = s₂.accepted) (fun _ _ heq hd => hd.accepted.trans heq) rfl hdrives
  refine ⟨s₃, Relation.ReflTransGen.mono (fun _ _ hd => hd.step) _ _ hdrives, hreturned, ?_⟩
  have haccepts := acceptsOwn_of_callStep (callStep_of_callStep hs)
  rw [AcceptsOwn, hk₁, honward.accepted] at haccepts
  rw [AcceptsOwn, hk, haccepted]
  exact haccepts

theorem charges (h : LiveInv s) (hk : s.calls k = .addCharge g max)
    : Reaches Drives (fun s' => s'.calls k = .returned) s := by
  refine (drives_of_moves (h.onward (Under.moves h.unlock_pool))).bind ?_
  rintro s₁ _ ⟨h₁, honward, hfree⟩
  have hk₁ := honward.calls_eq hk rfl
  have hs : ∃ s₂, s₁.step (.caller k) = some s₂ ∧ s₂.accepted = s₁.accepted ∧
      s₂.calls k = .returned := by
    simp only [Sys.step, Sys.callStep, hk₁, TPool.unlocked, hfree, h₁.unfreed, Option.isNone_none,
      Bool.not_false, Bool.and_self, if_true]
    split <;> exact ⟨_, rfl, rfl, update_self _ _ _⟩
  obtain ⟨s₂, hs, haccepted, hreturned⟩ := hs
  exact .of_step (drives_caller hs haccepted (by rw [hk₁]; rfl)) (.of_self hreturned)

theorem spawns {n : Nat} (h : LiveInv s) (hk : s.calls k = .addSpawn g n max)
    : Reaches Drives (fun s' => s'.calls k = .returned) s := by
  refine (drives_of_moves (h.onward (Under.moves (built n s h hk)))).bind ?_
  rintro s₁ _ ⟨h₁, _, hk₁, _⟩
  exact h₁.charges hk₁

theorem builds {min : Nat} {flags : Int} (h : LiveInv s) (hk : s.calls k = .addBuild min max flags)
    : Reaches Drives (fun s' => s'.calls k = .returned) s := by
  have hs : s.step (.caller k) = some
      ({ s.setGroup s.nextGroup (.newGroup min max flags (.call k)) with
        nextGroup := s.nextGroup + 1 }.setCall k (.addSpawn s.nextGroup min max)) := by
    simp only [Sys.step, Sys.callStep, hk]
  exact .of_step (drives_caller hs rfl (by rw [hk]; rfl)) ((h.step (by simp) hs).spawns (update_self _ _ _))

theorem checks {min : Nat} {flags : Int} (h : LiveInv s) (hk : s.calls k = .addCheck min max flags)
    : Reaches Drives (fun s' => s'.calls k = .returned) s := by
  refine (drives_of_moves (h.onward (Under.moves h.unlock_pool))).bind ?_
  rintro s₁ _ ⟨h₁, honward, hfree⟩
  have hk₁ := honward.calls_eq hk rfl
  cases hcheck : s₁.pool.addGroupCheck min max with
  | none =>
    have hs : s₁.step (.caller k) = some (s₁.setCall k .returned) := by
      simp only [Sys.step, Sys.callStep, hk₁, TPool.unlocked, hfree, h₁.unfreed, Option.isNone_none,
        Bool.not_false, Bool.and_self, if_true, hcheck]
    exact .of_step (drives_caller hs rfl (by rw [hk₁]; rfl)) (.of_self (update_self _ _ _))
  | some sizes =>
    have hs : s₁.step (.caller k) = some (s₁.setCall k (.addBuild sizes.1 sizes.2 flags)) := by
      simp only [Sys.step, Sys.callStep, hk₁, TPool.unlocked, hfree, h₁.unfreed, Option.isNone_none,
        Bool.not_false, Bool.and_self, if_true, hcheck]
    refine .of_step (drives_caller hs rfl (by rw [hk₁]; rfl)) ?_
    exact (h₁.step (by simp) hs).builds (update_self _ _ _)

end LiveInv

/--
The call returns if the threads that are there are scheduled as is told. No other work is accepted meanwhile.
-/
def CallReturns (s : Sys) (k : Nat) : Prop :=
  ∃ as s', (∀ a ∈ as, ∀ req, a ≠ .call req) ∧ run s as = some s' ∧ s'.calls k = .returned ∧
    AcceptsOwn s k s'

theorem LiveInv.callReturns {s : Sys} {k : Nat} (h : LiveInv s) (hwithin : Within s) (hk : Served s k)
    : CallReturns s k := by
  have hreaches : Reaches Acts (fun s' => s'.calls k = .returned ∧ AcceptsOwn s k s') s := by
    -- nothing is accepted if the call is not at the section of a `do_work`
    have hquiet (hr : Reaches Drives (fun s' => s'.calls k = .returned) s)
        : Reaches Acts (fun s' => s'.calls k = .returned ∧ AcceptsOwn s k s') s := by
      have hkeep := hr.keep (I := fun s' => s'.accepted = s.accepted)
        (fun _ _ heq hd => hd.accepted.trans heq) rfl
      exact (acts_of_drives hkeep).imp fun _ hs => ⟨hs.2, .inl hs.1⟩
    cases hk with
    | check min max flags hk => exact hquiet (h.checks hk)
    | build min max flags hk => exact hquiet (h.builds hk)
    | spawn g n max hk => exact hquiet (h.spawns hk)
    | charge g max hk => exact hquiet (h.charges hk)
    | offer g w tg hk hg => exact h.offers hwithin hk hg
    | answered w rc hanswer => exact hquiet (h.answers hanswer)
  obtain ⟨s', hacts, hreturned, haccepted⟩ := hreaches
  obtain ⟨as, has, hrun⟩ := exists_run hacts
  exact ⟨as, s', Lts.forall_of_along (has.imp fun _ _ => own_ne_call) hrun, hrun, hreturned, haccepted⟩

theorem callReturns_of_run {maxThrds : Nat} {tp : TPool} {as : List Action} {s : Sys}
    (hinit : TPool.initPool maxThrds = some tp) (hdestroy : ∀ a ∈ as, a ≠ .call .destroyPool)
    (hrun : run (.init tp) as = some s)
    : ∀ k, Served s k → CallReturns s k := by
  have halong : Lts.Along Sys.step (fun _ a => a ≠ .call .destroyPool) (.init tp) as :=
    Lts.along_of_forall hdestroy
  have h : LiveInv s :=
    Lts.invariant_along (fun _ _ _ h ha hs => h.step ha hs) (.init hinit) halong hrun
  intro k hk
  exact h.callReturns (Within.of_run hrun) hk

/--
A `destroy_group` has locked the group that the work is for.
-/
theorem callReturns_locked_group
    : ∃ tp s, TPool.initPool 4 = some tp ∧
        run (.init tp) (.call (.addGroup 1 1 0) :: List.replicate 5 (.caller 0) ++
          .call (.doWork 0 7) :: .call (.destroyGroup 0) :: List.replicate 2 (.caller 2)) = some s ∧
        s.calls 1 = .offer 0 7 ∧ s.holdsGroup (.call 2) = some 0 ∧ CallReturns s 1 := by
  refine ⟨_, _, rfl, rfl, rfl, rfl, ?_⟩
  exact @callReturns_of_run 4 _ (.call (.addGroup 1 1 0) :: List.replicate 5 (.caller 0) ++
    .call (.doWork 0 7) :: .call (.destroyGroup 0) :: List.replicate 2 (.caller 2)) _ rfl (by decide) rfl 1
    (.offer 0 7 _ rfl rfl)

end Pool
