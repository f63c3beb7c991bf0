import TrashDb.Server.Impl

/-!
This module contains which candidate `create_tcp_sock` of `server.c` ends with. A candidate whose
`setsockopt` fails is tried again and again, so the first usable one is only found if there is none of
these before it.
-/

namespace Server

namespace AddrInfo

def Passes (serverInfo : AddrInfo) : Prop :=
  serverInfo.socket = true ∧ (serverInfo.aiFamily = .inet → serverInfo.setsockopt = true) ∧
    serverInfo.bind = true

def Repeats (serverInfo : AddrInfo) : Prop :=
  serverInfo.socket = true ∧ serverInfo.aiFamily = .inet ∧ serverInfo.setsockopt = false

instance (serverInfo : AddrInfo) : Decidable serverInfo.Passes := by
  unfold Passes
  infer_instance

instance (serverInfo : AddrInfo) : Decidable serverInfo.Repeats := by
  unfold Repeats
  infer_instance

end AddrInfo

def noSockets : Sockets where
  fd := -1
  nextFd := 3
  opened := []
  bound := []
  tried := []

structure PicksFirst (res : List AddrInfo) (rc : Int) (s : Sockets) : Prop where
  tried : s.tried <+: res
  success : rc = trashSuccess ↔ ∃ serverInfo ∈ res, serverInfo.Passes
  first : ∀ serverInfo, res.find? (fun serverInfo => serverInfo.Passes) = some serverInfo →
    s.bound = [(s.fd, serverInfo)] ∧ s.opened = [s.fd]
  none : (∀ serverInfo ∈ res, ¬ serverInfo.Passes) → rc = trashError ∧ s.opened = []

/--
The call returns, after some number of turns.
-/
def Picks (res : List AddrInfo) : Prop :=
  ∃ turns rc s, (∀ turns' ≥ turns, createTcpSock turns' (some res) noSockets = some (rc, s)) ∧
    PicksFirst res rc s

/--
No candidate that is repeated stands before the first one that passes.
-/
def Advances (res : List AddrInfo) : Prop :=
  ∀ serverInfo ∈ res.takeWhile (fun serverInfo => ¬ serverInfo.Passes), ¬ serverInfo.Repeats

variable {serverInfo : AddrInfo} {aiNext res : List AddrInfo}

theorem tcpLoop_repeats (h : serverInfo.Repeats) (turns : Nat) (s : Sockets)
    : tcpLoop turns (serverInfo :: aiNext) s = none := by
  induction turns generalizing s with
  | zero => rfl
  | succ turns ih =>
    obtain ⟨hsocket, hfamily, hopt⟩ := h
    have hfd : (s.nextFd : Int) ≠ -1 := by omega
    simp only [tcpLoop, Sockets.socket, hsocket, if_true, hfd, if_false, hfamily, hopt, and_self]
    exact ih _

theorem tcpLoop_fails (hpasses : ¬ serverInfo.Passes) (hrepeats : ¬ serverInfo.Repeats)
    (aiNext : List AddrInfo) (s : Sockets)
    : ∃ s', (∀ turns, tcpLoop (turns + 1) (serverInfo :: aiNext) s = tcpLoop turns aiNext s') ∧
        s'.opened = s.opened ∧ s'.bound = s.bound ∧ s'.tried = s.tried ++ [serverInfo] := by
  cases hsocket : serverInfo.socket with
  | false =>
    refine ⟨s.socket serverInfo, fun turns => ?_, ?_⟩
    . simp only [tcpLoop, Sockets.socket, hsocket, Bool.false_eq_true, if_false, if_true]
    . simp [Sockets.socket, hsocket]
  | true =>
    have hopt : ¬ (serverInfo.aiFamily = .inet ∧ serverInfo.setsockopt = false) :=
      fun hopt => hrepeats ⟨hsocket, hopt⟩
    have hbind : serverInfo.bind = false := by
      rw [Bool.eq_false_iff]
      intro hbind
      refine hpasses ⟨hsocket, fun hfamily => ?_, hbind⟩
      rw [← Bool.not_eq_false]
      exact fun h => hopt ⟨hfamily, h⟩
    refine ⟨((s.socket serverInfo).bind serverInfo).evutilClosesocket, fun turns => ?_, ?_⟩
    . simp only [tcpLoop, if_neg hopt, hbind, Bool.false_eq_true, if_false]
      rw [if_neg]
      simp [Sockets.socket, hsocket]
    . simp [Sockets.bind, Sockets.evutilClosesocket, Sockets.socket, hsocket, hbind]

theorem tcpLoop_passes (h : serverInfo.Passes) (aiNext : List AddrInfo) (s : Sockets)
    : ∃ s', (∀ turns, tcpLoop (turns + 1) (serverInfo :: aiNext) s = some (serverInfo :: aiNext, s')) ∧
        s'.opened = s'.fd :: s.opened ∧ s'.bound = (s'.fd, serverInfo) :: s.bound ∧
        s'.tried = s.tried ++ [serverInfo] := by
  obtain ⟨hsocket, hopt, hbind⟩ := h
  have hopt : ¬ (serverInfo.aiFamily = .inet ∧ serverInfo.setsockopt = false) := by
    rintro ⟨hfamily, hfalse⟩
    rw [hopt hfamily] at hfalse
    cases hfalse
  refine ⟨(s.socket serverInfo).bind serverInfo, fun turns => ?_, ?_⟩
  . simp only [tcpLoop, if_neg hopt, hbind, if_true]
    rw [if_neg]
    simp [Sockets.socket, hsocket]
  . simp [Sockets.bind, Sockets.socket, hsocket, hbind]

theorem advances_cons (h : Advances (serverInfo :: aiNext)) (hpasses : ¬ serverInfo.Passes)
    : ¬ serverInfo.Repeats ∧ Advances aiNext := by
  unfold Advances at h
  rw [List.takeWhile_cons_of_pos (by simpa using hpasses)] at h
  exact List.forall_mem_cons.mp h

theorem tcpLoop_advances (h : Advances res) (s : Sockets)
    : ∃ left s', (∀ turns > res.length, tcpLoop turns res s = some (left, s')) ∧
        (∃ tried, tried <+: res ∧ s'.tried = s.tried ++ tried) ∧
        match res.find? (fun serverInfo => serverInfo.Passes) with
        | none => left = [] ∧ s'.opened = s.opened ∧ s'.bound = s.bound
        | some serverInfo =>
          left ≠ [] ∧ s'.opened = s'.fd :: s.opened ∧ s'.bound = (s'.fd, serverInfo) :: s.bound := by
  induction res generalizing s with
  | nil =>
    refine ⟨[], s, fun turns hturns => ?_, ⟨[], List.prefix_rfl, by simp⟩, rfl, rfl, rfl⟩
    obtain ⟨turns, rfl⟩ := Nat.exists_eq_add_one_of_ne_zero (Nat.ne_of_gt hturns)
    rfl
  | cons serverInfo aiNext ih =>
    by_cases hpasses : serverInfo.Passes
    . obtain ⟨s', hloop, hopened, hbound, htried⟩ := tcpLoop_passes hpasses aiNext s
      refine ⟨serverInfo :: aiNext, s', fun turns hturns => ?_, ⟨[serverInfo], ?_, htried⟩, ?_⟩
      . obtain ⟨turns, rfl⟩ := Nat.exists_eq_add_one_of_ne_zero (Nat.ne_of_gt (Nat.zero_lt_of_lt hturns))
        exact hloop turns
      . simp
      . rw [List.find?_cons_of_pos (by simpa using hpasses)]
        exact ⟨by simp, hopened, hbound⟩
    . obtain ⟨hrepeats, hadvances⟩ := advances_cons h hpasses
      obtain ⟨s₁, hloop, hopened, hbound, htried⟩ := tcpLoop_fails hpasses hrepeats aiNext s
      obtain ⟨left, s', hrest, ⟨tried, hprefix, htried'⟩, hfirst⟩ := ih hadvances s₁
      refine ⟨left, s', fun turns hturns => ?_, ⟨serverInfo :: tried, ?_, ?_⟩, ?_⟩
      . obtain ⟨turns, rfl⟩ := Nat.exists_eq_add_one_of_ne_zero (Nat.ne_of_gt (Nat.zero_lt_of_lt hturns))
        rw [hloop]
        exact hrest turns (by simpa using hturns)
      . simpa using hprefix
      . rw [htried', htried, List.append_assoc]
        rfl
      . rw [List.find?_cons_of_neg (by simpa using hpasses), ← hopened, ← hbound]
        exact hfirst

theorem tcpLoop_stuck (h : ¬ Advances res) (turns : Nat) (s : Sockets) : tcpLoop turns res s = none := by
  induction res generalizing turns s with
  | nil => exact absurd (fun _ hmem => by cases hmem) h
  | cons serverInfo aiNext ih =>
    by_cases hrepeats : serverInfo.Repeats
    . exact tcpLoop_repeats hrepeats turns s
    . have hpasses : ¬ serverInfo.Passes := by
        intro hpasses
        apply h
        unfold Advances
        rw [List.takeWhile_cons_of_neg (by simpa using hpasses)]
        exact fun _ hmem => by cases hmem
      have hrest : ¬ Advances aiNext := by
        intro hadvances
        apply h
        unfold Advances
        rw [List.takeWhile_cons_of_pos (by simpa using hpasses)]
        exact List.forall_mem_cons.mpr ⟨hrepeats, hadvances⟩
      cases turns with
      | zero => rfl
      | succ turns =>
        obtain ⟨s', hloop, -⟩ := tcpLoop_fails hpasses hrepeats aiNext s
        rw [hloop]
        exact ih hrest turns s'

theorem picks_iff (res : List AddrInfo) : Picks res ↔ Advances res := by
  constructor
  . rintro ⟨turns, rc, s, hreturns, -⟩
    by_contra hstuck
    have := hreturns turns (Nat.le_refl turns)
    rw [createTcpSock, tcpLoop_stuck hstuck] at this
    cases this
  . intro h
    obtain ⟨left, s, hloop, ⟨tried, hprefix, htried⟩, hfirst⟩ := tcpLoop_advances h noSockets
    cases hfind : res.find? (fun serverInfo => serverInfo.Passes) with
    | none =>
      rw [hfind] at hfirst
      obtain ⟨rfl, hopened, -⟩ := hfirst
      have hnone : ∀ serverInfo ∈ res, ¬ serverInfo.Passes := by simpa using hfind
      refine ⟨res.length + 1, trashError, s, fun turns hturns => ?_, ⟨?_, ?_, ?_, ?_⟩⟩
      . rw [createTcpSock, hloop turns hturns]
      . rw [htried]
        exact hprefix
      . refine iff_of_false (by decide) ?_
        rintro ⟨serverInfo, hmem, hpasses⟩
        exact hnone serverInfo hmem hpasses
      . rw [hfind]
        nofun
      . exact fun _ => ⟨rfl, hopened⟩
    | some serverInfo =>
      rw [hfind] at hfirst
      obtain ⟨hleft, hopened, hbound⟩ := hfirst
      have hpasses : serverInfo.Passes := by simpa using List.find?_some hfind
      have hmem := List.mem_of_find?_eq_some hfind
      refine ⟨res.length + 1, trashSuccess, s, fun turns hturns => ?_, ⟨?_, ?_, ?_, ?_⟩⟩
      . rw [createTcpSock, hloop turns hturns]
        cases left with
        | nil => exact absurd rfl hleft
        | cons _ _ => rfl
      . rw [htried]
        exact hprefix
      . exact iff_of_true rfl ⟨serverInfo, hmem, hpasses⟩
      . intro other hother
        cases hfind.symm.trans hother
        exact ⟨hbound, hopened⟩
      . exact fun hnone => absurd hpasses (hnone serverInfo hmem)

def refused : AddrInfo := ⟨.inet, true, false, true⟩

theorem not_picks_refused : ¬ Picks [refused] := by
  rintro ⟨turns, rc, s, hreturns, -⟩
  have := hreturns turns (Nat.le_refl turns)
  have hrepeats : refused.Repeats := by decide
  rw [createTcpSock, tcpLoop_repeats hrepeats] at this
  cases this

end Server
