import TrashDb.Il
import TrashDb.Pool.Basic

/-!
This module contains the reader groups of `cook.c` and the scheduler that hands out works to them. The
pool is only used through `add_group` and `do_work`, so it is any state that these two act on. A group
is `none` where the source has the pointer `NULL`.
-/

open Pool

namespace Cook

structure PoolApi (σ G W : Type) where
  addGroup : σ → (min max : Nat) → (flags : Int) → Option G × σ
  doWork : σ → Option G → W → Rc × σ

structure CGrps (G : Type) where
  tg : Option G
  deriving DecidableEq, Repr

structure Groups (G : Type) where
  wr : Option G
  rdrs : LL (CGrps G)
  deriving DecidableEq, Repr

/--
What a call of `scheduler` does: its calls of `do_work` with their results, and what it leaves.
-/
structure Call (σ G : Type) where
  offers : List (CGrps G × Rc)
  rdrs : LL (CGrps G)
  pool : σ
  deriving DecidableEq, Repr

variable {σ G W : Type}

def groupDynamic : Int := 0x01

def initThreadGroups (api : PoolApi σ G W) (s : σ) : Groups G × σ :=
  let (wr, s) := api.addGroup s 1 1 groupFixed
  go s ⟨wr, .initList⟩ 3
where
  go (s : σ) (groups : Groups G) : Nat → Groups G × σ
    | 0 => (groups, s)
    | n + 1 =>
      let (tg, s) := api.addGroup s 2 4 groupDynamic
      go s { groups with rdrs := groups.rdrs.listAppend ⟨tg⟩ } n

/--
The call is `none` where the source runs into its `assert`, dereferences `NULL` or takes the head of
the list for a group.
-/
def scheduler (api : PoolApi σ G W) (rdrs : LL (CGrps G)) (s : σ) (work : W) : Option (Call σ G) :=
  go rdrs s 0
where
  go (rdrs : LL (CGrps G)) (s : σ) (i : Nat) : Option (Call σ G) :=
    if i < rdrs.len then
      match hrotate : rdrs.listRotate with
      | none => none
      | some (.head, _) => none
      | some (.item cg, rdrs') =>
        have := LL.len_listRotate hrotate
        match api.doWork s cg.tg work with
        | (.poolError, _) => none
        | (.groupFull, s) =>
          match go rdrs' s (i + 1) with
          | none => none
          | some call => some { call with offers := (cg, .groupFull) :: call.offers }
        | (.poolSuccess, s) => some ⟨[(cg, .poolSuccess)], rdrs', s⟩
    else
      some ⟨[], rdrs, s⟩
  termination_by rdrs.len - i
  decreasing_by omega

end Cook
