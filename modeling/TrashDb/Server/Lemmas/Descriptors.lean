import TrashDb.Server.Lemmas.Candidates
import TrashDb.Server.Listen

/-!
This module contains which descriptors are open after any number of calls of `init_server`, `run_server` and
`kill_server` that return: those of the listeners and no others. The label `error` of `init_server_sock`
closes the descriptor of an attempt that has failed, but after a `create_tcp_sock` in vain it has been closed
before. `kill_server` returns if every listener has been given an event since it was appended, and closes all
descriptors once then.
-/

namespace Server

open ByteBlock (Stop)

structure Sockets.Fresh (s : Sockets) : Prop where
  nodup : s.opened.Nodup
  lt : ∀ fd ∈ s.opened, 0 ≤ fd ∧ fd < s.nextFd

def Sockets.Closed (s : Sockets) : Prop := s.fd ≠ -1 ∧ s.fd ∉ s.opened

/--
No candidate has been taken, and the last one leaves the number of its socket behind if it had one.
-/
structure InVain (res : List AddrInfo) (s s' : Sockets) : Prop where
  fresh : s'.Fresh
  opened : s'.opened = s.opened
  none : ∀ serverInfo ∈ res, ¬ serverInfo.Passes
  closed : s'.fd ≠ -1 → s'.Closed
  last : res ≠ [] → (s'.fd ≠ -1 ↔ ∃ serverInfo, res.getLast? = some serverInfo ∧ serverInfo.socket = true)

structure Taken (res : List AddrInfo) (s s' : Sockets) : Prop where
  fresh : s'.Fresh
  opened : s'.opened = s'.fd :: s.opened
  fd : s'.fd ≠ -1
  some : ∃ serverInfo ∈ res, serverInfo.Passes

namespace Init

/--
The system calls that have to succeed. Nothing listens for `AF_INET6`.
-/
def Listens (call : Init) : Prop :=
  call.answers.calloc = true ∧ call.answers.listen = true ∧
    match call.sockFam with
    | .unix =>
      call.answers.unix.socket = true ∧ call.answers.unix.bind = true ∧
        (call.isSockAbstract = false → call.answers.unix.chmod = true)
    | .inet => ∃ res, call.answers.res = some res ∧ ∃ serverInfo ∈ res, serverInfo.Passes
    | .inet6 | .other => False

def Exhausted (call : Init) : Prop :=
  call.answers.calloc = true ∧ call.sockFam = .inet ∧
    ∃ res, call.answers.res = some res ∧ (∀ serverInfo ∈ res, ¬ serverInfo.Passes) ∧
      ∃ serverInfo, res.getLast? = some serverInfo ∧ serverInfo.socket = true

end Init

structure Accounts (call : Init) (s : Sockets) (r : Listening) : Prop where
  fresh : r.sockets.Fresh
  success : r.rc = trashSuccess ↔ call.Listens
  listener : r.rc = trashSuccess → ∃ fd, r.ls = some fd ∧ fd ∉ s.opened ∧ r.sockets.opened = fd :: s.opened
  error : r.rc ≠ trashSuccess → r.ls = none ∧ r.sockets.opened = s.opened
  stale : r.stale = true ↔ call.Exhausted

def noListeners : Listeners := ⟨[], noSockets, true⟩

/--
Every descriptor that is open belongs to one listener, and a `kill_server` that returns closes them all once.
-/
structure Listeners.Accounted (x : Listeners) : Prop where
  nodup : (x.listeners.map Listener.fd).Nodup
  opened : ∀ fd, fd ∈ x.sockets.opened ↔ fd ∈ x.listeners.map Listener.fd
  initServer : ∀ call r, call.run x.sockets = some r → Accounts call x.sockets r
  runServer : ∀ answers x', x.runServer answers = some x' →
    x'.sockets = x.sockets ∧ x'.listeners.map Listener.fd = x.listeners.map Listener.fd
  returns : x.killServer ≠ none ↔ x.base = true ∧ ∀ ls ∈ x.listeners, ls.ev = true
  killServer : ∀ res, cleanListeningSockets x.listeners x.sockets = some res → res.1.opened = [] ∧ res.2 = false
  lifetime : x.base = true → ∀ answers, (∀ ls ∈ x.listeners, answers ls.fd = ⟨true, true⟩) →
    ∃ x', x.runServer answers = some x' ∧ x'.killServer ≠ none

section

variable {s s' : Sockets} {serverInfo : AddrInfo} {res left : List AddrInfo}

namespace Sockets.Fresh

theorem not_mem (h : s.Fresh) : (s.nextFd : Int) ∉ s.opened := by
  intro hmem
  have := (h.lt _ hmem).2
  omega

theorem of_eq (h : s.Fresh) (hopened : s'.opened = s.opened) (hnext : s.nextFd ≤ s'.nextFd) : s'.Fresh := by
  refine ⟨hopened ▸ h.nodup, ?_⟩
  intro fd hfd
  rw [hopened] at hfd
  have := h.lt fd hfd
  omega

theorem cons (h : s.Fresh) (hopened : s'.opened = (s.nextFd : Int) :: s.opened)
    (hnext : s'.nextFd = s.nextFd + 1)
    : s'.Fresh := by
  constructor
  . rw [hopened]
    exact List.nodup_cons.mpr ⟨h.not_mem, h.nodup⟩
  . intro fd hfd
    rw [hopened, List.mem_cons] at hfd
    rcases hfd with rfl | hfd
    . omega
    . have := h.lt fd hfd
      omega

end Sockets.Fresh

theorem InVain.cons {s₁ : Sockets} (h : InVain res s₁ s') (hopened : s₁.opened = s.opened)
    (hpasses : ¬ serverInfo.Passes) (hlast : res = [] → (s'.fd ≠ -1 ↔ serverInfo.socket = true))
    : InVain (serverInfo :: res) s s' := by
  refine ⟨h.fresh, h.opened.trans hopened, List.forall_mem_cons.mpr ⟨hpasses, h.none⟩, h.closed, ?_⟩
  intro _
  cases res with
  | nil => simpa using hlast rfl
  | cons next res => simpa [List.getLast?_cons_cons] using h.last (List.cons_ne_nil next res)

theorem Taken.cons {s₁ : Sockets} (h : Taken res s₁ s') (hopened : s₁.opened = s.opened)
    : Taken (serverInfo :: res) s s' := by
  refine ⟨h.fresh, by rw [h.opened, hopened], h.fd, ?_⟩
  obtain ⟨next, hmem, hpasses⟩ := h.some
  exact ⟨next, List.mem_cons_of_mem _ hmem, hpasses⟩

theorem bind_eq_false (hsocket : serverInfo.socket = true) (hpasses : ¬ serverInfo.Passes)
    (hrepeats : ¬ serverInfo.Repeats)
    : serverInfo.bind = false := by
  rw [← Bool.not_eq_true]
  intro hbind
  refine hpasses ⟨hsocket, fun hfamily => ?_, hbind⟩
  rw [← Bool.not_eq_false]
  exact fun hopt => hrepeats ⟨hsocket, hfamily, hopt⟩

/--
The socket of a candidate that cannot be bound is closed, and its number stays in `fd`.
-/
theorem closed_evutilClosesocket (h : s.Fresh) (hsocket : serverInfo.socket = true) (hbind : serverInfo.bind = false)
    : let s₁ := ((s.socket serverInfo).bind serverInfo).evutilClosesocket
      s₁.opened = s.opened ∧ s₁.nextFd = s.nextFd + 1 ∧ s₁.fd = s.nextFd ∧ s₁.Closed := by
  simp only [Sockets.socket, Sockets.bind, Sockets.evutilClosesocket, Sockets.Closed, hsocket, hbind, if_true,
    Bool.false_eq_true, if_false, List.erase_cons_head]
  exact ⟨trivial, trivial, trivial, by omega, h.not_mem⟩

theorem tcpLoop_spec (turns : Nat) : ∀ res s, s.Fresh → (s.fd ≠ -1 → s.Closed) →
    tcpLoop turns res s = some (left, s') →
    (left = [] ∧ InVain res s s' ∧ (res = [] → s' = s)) ∨ (left ≠ [] ∧ Taken res s s') := by
  induction turns with
  | zero =>
    intro res s _ _ h
    cases h
  | succ turns ih =>
    intro res s hfresh hclosed h
    cases res with
    | nil =>
      cases h
      exact .inl ⟨rfl, ⟨hfresh, rfl, by simp, hclosed, absurd rfl⟩, fun _ => rfl⟩
    | cons serverInfo res =>
      -- the loop goes on with the next candidate
      have hnext {s₁ : Sockets} (hfresh₁ : s₁.Fresh) (hopened : s₁.opened = s.opened)
          (hclosed₁ : s₁.fd ≠ -1 → s₁.Closed) (hpasses : ¬ serverInfo.Passes)
          (hfd : s₁.fd ≠ -1 ↔ serverInfo.socket = true) (h : tcpLoop turns res s₁ = some (left, s'))
          : (left = [] ∧ InVain (serverInfo :: res) s s' ∧ (serverInfo :: res = [] → s' = s)) ∨
              (left ≠ [] ∧ Taken (serverInfo :: res) s s') := by
        rcases ih res s₁ hfresh₁ hclosed₁ h with ⟨hleft, hvain, hsame⟩ | ⟨hleft, htaken⟩
        . refine .inl ⟨hleft, hvain.cons hopened hpasses ?_, by simp⟩
          intro hres
          rw [hsame hres]
          exact hfd
        . exact .inr ⟨hleft, htaken.cons hopened⟩
      by_cases hrepeats : serverInfo.Repeats
      . rw [tcpLoop_repeats hrepeats] at h
        cases h
      have hopt : serverInfo.socket = true → ¬ (serverInfo.aiFamily = .inet ∧ serverInfo.setsockopt = false) :=
        fun hsocket hopt => hrepeats ⟨hsocket, hopt⟩
      by_cases hpasses : serverInfo.Passes
      . have hnum : (s.socket serverInfo).fd = s.nextFd := by simp [Sockets.socket, hpasses.1]
        have hne : (s.socket serverInfo).fd ≠ -1 := by omega
        rw [tcpLoop, if_neg hne, if_neg (hopt hpasses.1), if_pos hpasses.2.2] at h
        cases h
        refine .inr ⟨List.cons_ne_nil _ _, ?_, ?_, ?_, serverInfo, List.mem_cons_self, hpasses⟩
        . apply hfresh.cons <;> simp [Sockets.socket, Sockets.bind, hpasses.1, hpasses.2.2]
        . simp [Sockets.socket, Sockets.bind, hpasses.1, hpasses.2.2]
        . simpa [Sockets.bind, hpasses.2.2] using hne
      . cases hsocket : serverInfo.socket with
        | false =>
          have hnum : (s.socket serverInfo).fd = -1 := by simp [Sockets.socket, hsocket]
          rw [tcpLoop, if_pos hnum] at h
          refine hnext ?_ ?_ (absurd hnum) hpasses ?_ h
          . exact hfresh.of_eq (by simp [Sockets.socket, hsocket]) (by simp [Sockets.socket, hsocket])
          . simp [Sockets.socket, hsocket]
          . simp [hnum, hsocket]
        | true =>
          have hbind := bind_eq_false hsocket hpasses hrepeats
          have hne : (s.socket serverInfo).fd ≠ -1 := by
            simp [Sockets.socket, hsocket]
          rw [tcpLoop, if_neg hne, if_neg (hopt hsocket), if_neg (by rw [hbind]; exact Bool.false_ne_true)] at h
          obtain ⟨hopened, hnextFd, _, hclosed₁⟩ := closed_evutilClosesocket hfresh hsocket hbind
          refine hnext ?_ hopened (fun _ => hclosed₁) hpasses (iff_of_true hclosed₁.1 hsocket) h
          exact hfresh.of_eq hopened (by omega)

structure TcpSock (res : Option (List AddrInfo)) (s : Sockets) (rc : Int) (s' : Sockets) : Prop where
  fresh : s'.Fresh
  success : rc = trashSuccess ↔ ∃ l, res = some l ∧ ∃ serverInfo ∈ l, serverInfo.Passes
  taken : rc = trashSuccess → s'.opened = s'.fd :: s.opened ∧ s'.fd ≠ -1
  vain : rc ≠ trashSuccess → s'.opened = s.opened
  closed : rc ≠ trashSuccess → s'.fd ≠ -1 → s'.Closed
  exhausted : rc ≠ trashSuccess → (s'.fd ≠ -1 ↔ ∃ l, res = some l ∧ (∀ serverInfo ∈ l, ¬ serverInfo.Passes) ∧
    ∃ serverInfo, l.getLast? = some serverInfo ∧ serverInfo.socket = true)

theorem createTcpSock_spec {turns : Nat} {res : Option (List AddrInfo)} {rc : Int} (hfresh : s.Fresh) (hfd : s.fd = -1)
    (h : createTcpSock turns res s = some (rc, s'))
    : TcpSock res s rc s' := by
  have herror : trashError ≠ trashSuccess := by decide
  cases res with
  | none =>
    cases h
    exact ⟨hfresh, by simp [herror], by simp [herror], fun _ => rfl, fun _ h => absurd hfd h, by simp [hfd]⟩
  | some res =>
    cases hloop : tcpLoop turns res s with
    | none =>
      rw [createTcpSock, hloop] at h
      cases h
    | some last =>
      obtain ⟨left, s₁⟩ := last
      rw [createTcpSock, hloop] at h
      rcases tcpLoop_spec turns res s hfresh (absurd hfd) hloop with ⟨rfl, hvain, hsame⟩ | ⟨hleft, htaken⟩
      . cases h
        refine ⟨hvain.fresh, ?_, by simp [herror], fun _ => hvain.opened, fun _ => hvain.closed, fun _ => ?_⟩
        . refine iff_of_false herror ?_
          rintro ⟨l, ⟨⟩, serverInfo, hmem, hpasses⟩
          exact hvain.none serverInfo hmem hpasses
        . constructor
          . intro hne
            have hres : res ≠ [] := by
              intro hnil
              rw [hsame hnil] at hne
              exact hne hfd
            exact ⟨res, rfl, hvain.none, (hvain.last hres).mp hne⟩
          . rintro ⟨l, ⟨⟩, _, serverInfo, hlast, hsocket⟩
            refine (hvain.last ?_).mpr ⟨serverInfo, hlast, hsocket⟩
            rintro rfl
            cases hlast
      . cases left with
        | nil => exact absurd rfl hleft
        | cons serverInfo left =>
          cases h
          exact ⟨htaken.fresh, iff_of_true rfl ⟨res, rfl, htaken.some⟩, fun _ => ⟨htaken.opened, htaken.fd⟩,
            absurd rfl, absurd rfl, absurd rfl⟩

end

namespace createUnixSock

theorem ok_of_bind {α β : Type} {x : Except Stop α} {f : α → Except Stop β} {b : β} (h : x >>= f = .ok b)
    : ∃ a, x = .ok a ∧ f a = .ok b := by
  cases x with
  | error e => cases h
  | ok a => exact ⟨a, rfl, h⟩

variable {answers : Answers} {taddr taddr' : TrashAddr} {sockDir : List UInt8} {isSockAbstract : Bool} {rc : Int}

theorem rc_of_bind {addr : ByteBlock} {addrlen : Nat}
    (h : (if answers.bind = false then
        pure (trashError, taddr)
      else do
        let stored ← taddr.addr.memcpy 0 addr 0 addrlen
        if isSockAbstract = false ∧ answers.chmod = false then
          pure (trashError, ⟨stored, addrlen⟩)
        else
          pure (trashSuccess, ⟨stored, addrlen⟩) : Except Stop (Int × TrashAddr)) = .ok (rc, taddr'))
    : rc = trashSuccess ↔ answers.bind = true ∧ (isSockAbstract = false → answers.chmod = true) := by
  split at h
  . next hbind =>
    cases h
    simp [hbind, trashError, trashSuccess]
  . next hbind =>
    rw [Bool.not_eq_false] at hbind
    obtain ⟨stored, _, h⟩ := ok_of_bind h
    split at h
    . next hchmod =>
      cases h
      simp [hchmod, trashError, trashSuccess]
    . next hchmod =>
      cases h
      refine iff_of_true rfl ⟨hbind, fun habstract => ?_⟩
      rw [← Bool.not_eq_false]
      exact fun hfalse => hchmod ⟨habstract, hfalse⟩

theorem rc_eq_success (h : createUnixSock answers taddr sockDir isSockAbstract = .ok (rc, taddr'))
    : rc = trashSuccess ↔
        answers.socket = true ∧ answers.bind = true ∧ (isSockAbstract = false → answers.chmod = true) := by
  unfold createUnixSock at h
  split at h
  . next hsocket =>
    cases h
    simp [hsocket, trashError, trashSuccess]
  . next hsocket =>
    rw [Bool.not_eq_false] at hsocket
    simp only [hsocket, true_and]
    obtain ⟨addr₁, _, h⟩ := ok_of_bind h
    dsimp only at h
    cases isSockAbstract with
    | true =>
      rw [if_pos rfl] at h
      obtain ⟨addr₂, _, h⟩ := ok_of_bind h
      obtain ⟨addr₃, _, h⟩ := ok_of_bind h
      obtain ⟨addr₄, _, h⟩ := ok_of_bind h
      rw [if_neg Bool.true_eq_false.mp] at h
      obtain ⟨len, _, h⟩ := ok_of_bind h
      exact rc_of_bind h
    | false =>
      rw [if_neg Bool.false_eq_true.mp] at h
      obtain ⟨addr₃, _, h⟩ := ok_of_bind h
      obtain ⟨addr₄, _, h⟩ := ok_of_bind h
      rw [if_pos rfl] at h
      exact rc_of_bind h

end createUnixSock

theorem initUnixSock_rc {answers : Answers} {sockDir : List UInt8} {isSockAbstract : Bool} {rc : Int}
    {taddr : TrashAddr} (h : initUnixSock answers sockDir isSockAbstract = .ok (rc, taddr))
    : rc = trashSuccess ↔
        answers.socket = true ∧ answers.bind = true ∧ (isSockAbstract = false → answers.chmod = true) := by
  obtain ⟨addr, _, h⟩ := createUnixSock.ok_of_bind h
  exact createUnixSock.rc_eq_success h

inductive Attempt (s s₁ : Sockets) : Prop where
  | failed (fresh : s₁.Fresh) (opened : s₁.opened = s.opened) (closed : s₁.fd ≠ -1 → s₁.Closed)
  | owns (fresh : s₁.Fresh) (opened : s₁.opened = s₁.fd :: s.opened) (fd : s₁.fd ≠ -1)

section

variable {call : Init} {s s₁ : Sockets} {r : Listening}

theorem Sockets.Fresh.erase (h : s.Fresh) (fd : Int) : ({ s with opened := s.opened.erase fd } : Sockets).Fresh :=
  ⟨h.nodup.erase fd, fun fd' hfd' => h.lt fd' (List.mem_of_mem_erase hfd')⟩

theorem not_listens_of_calloc (h : call.answers.calloc = false) : ¬ call.Listens := by
  intro hlistens
  rw [hlistens.1] at h
  cases h

namespace Accounts

theorem of_initError (hattempt : Attempt s s₁) (hlistens : ¬ call.Listens) (hexhausted : s₁.Closed ↔ call.Exhausted)
    : Accounts call s (initError s₁) := by
  have hne : trashError ≠ trashSuccess := by decide
  by_cases hfd : s₁.fd = -1
  . have hinit : initError s₁ = ⟨trashError, none, s₁, false⟩ := if_neg (by simp [hfd])
    rw [hinit]
    cases hattempt with
    | failed hfresh hopened _ =>
      refine ⟨hfresh, iff_of_false hne hlistens, fun h => absurd h hne, fun _ => ⟨rfl, hopened⟩, ?_⟩
      rw [← hexhausted]
      simp [Sockets.Closed, hfd]
    | owns _ _ h => exact absurd hfd h
  . have hinit : initError s₁ = ⟨trashError, none, s₁.evutilClosesocket, s₁.fd ∉ s₁.opened⟩ := if_pos hfd
    rw [hinit]
    have hfresh : s₁.Fresh := by
      cases hattempt <;> assumption
    refine ⟨hfresh.erase s₁.fd, iff_of_false hne hlistens, fun h => absurd h hne, fun _ => ⟨rfl, ?_⟩, ?_⟩
    . cases hattempt with
      | failed _ hopened hclosed => exact (List.erase_of_not_mem (hclosed hfd).2).trans hopened
      | owns _ hopened _ => simp [Sockets.evutilClosesocket, hopened]
    . rw [← hexhausted, decide_eq_true_eq]
      exact (and_iff_right hfd).symm

theorem of_initListen (hfresh : s₁.Fresh) (hopened : s₁.opened = s₁.fd :: s.opened) (hfd : s₁.fd ≠ -1)
    (hlistens : call.answers.listen = true ↔ call.Listens) (hexhausted : ¬ call.Exhausted)
    : Accounts call s (initListen call.answers.listen s₁) := by
  cases hlisten : call.answers.listen with
  | false =>
    rw [initListen, if_pos (.inr rfl)]
    refine of_initError (.owns hfresh hopened hfd) (by simp [← hlistens, hlisten]) ?_
    exact iff_of_false (fun hclosed => hclosed.2 (by simp [hopened])) hexhausted
  | true =>
    rw [initListen, if_neg (by simp [hfd])]
    have hnodup := hfresh.nodup
    rw [hopened, List.nodup_cons] at hnodup
    exact ⟨hfresh, iff_of_true rfl (hlistens.mp hlisten), fun _ => ⟨s₁.fd, rfl, hnodup.1, hopened⟩, absurd rfl,
      by simp [hexhausted]⟩

end Accounts

theorem attempt_unixSocket (hfresh : s.Fresh) (answers : Answers)
    : (answers.socket = true → (s.unixSocket answers).Fresh ∧
          (s.unixSocket answers).opened = (s.unixSocket answers).fd :: s.opened ∧ (s.unixSocket answers).fd ≠ -1) ∧
        Attempt s (s.unixSocket answers) ∧ ¬ (s.unixSocket answers).Closed := by
  cases hsocket : answers.socket with
  | false =>
    have hunix : s.unixSocket answers = { s with fd := -1 } := if_neg (by simp [hsocket])
    rw [hunix]
    refine ⟨by simp, .failed (hfresh.of_eq rfl (Nat.le_refl _)) rfl (absurd rfl), ?_⟩
    exact fun hclosed => hclosed.1 rfl
  | true =>
    have hunix : s.unixSocket answers =
        { s with fd := s.nextFd, nextFd := s.nextFd + 1, opened := (s.nextFd : Int) :: s.opened } := if_pos hsocket
    rw [hunix]
    have hfresh₁ : Sockets.Fresh
        { s with fd := s.nextFd, nextFd := s.nextFd + 1, opened := (s.nextFd : Int) :: s.opened } :=
      hfresh.cons rfl rfl
    have hfd : (s.nextFd : Int) ≠ -1 := by omega
    exact ⟨fun _ => ⟨hfresh₁, rfl, hfd⟩, .owns hfresh₁ rfl hfd, fun hclosed => hclosed.2 List.mem_cons_self⟩

theorem accounts_of_initUnixSock {rc : Int} {taddr : TrashAddr} (hfresh : s.Fresh) (hcalloc : call.answers.calloc = true)
    (hfam : call.sockFam = .unix)
    (hunix : initUnixSock call.answers.unix call.hostName call.isSockAbstract = .ok (rc, taddr))
    : Accounts call s (if rc ≠ 0 then initError (s.unixSocket call.answers.unix) else
        initListen call.answers.listen (s.unixSocket call.answers.unix)) := by
  have hexhausted : ¬ call.Exhausted := by simp [Init.Exhausted, hfam]
  obtain ⟨hopened, hattempt, hclosed⟩ := attempt_unixSocket hfresh call.answers.unix
  have hrc := initUnixSock_rc hunix
  split
  . next hne =>
    refine .of_initError hattempt ?_ (iff_of_false hclosed hexhausted)
    intro hlistens
    have := hlistens.2.2
    rw [hfam] at this
    exact hne (hrc.mpr this)
  . next heq =>
    rw [not_not] at heq
    have hall := hrc.mp heq
    obtain ⟨hfresh', hopened', hfd'⟩ := hopened hall.1
    refine .of_initListen hfresh' hopened' hfd' ?_ hexhausted
    simp only [Init.Listens, hcalloc, hfam, true_and]
    exact (and_iff_left hall).symm

theorem accounts_of_createTcpSock {rc : Int} (hfresh : s.Fresh) (hfd : s.fd = -1) (hcalloc : call.answers.calloc = true)
    (hfam : call.sockFam = .inet) (htcp : createTcpSock call.turns call.answers.res s = some (rc, s₁))
    : Accounts call s (if rc ≠ 0 then initError s₁ else initListen call.answers.listen s₁) := by
  have hspec := createTcpSock_spec hfresh hfd htcp
  split
  . next hne =>
    refine .of_initError (.failed hspec.fresh (hspec.vain hne) (hspec.closed hne)) ?_ ?_
    . intro hlistens
      have := hlistens.2.2
      rw [hfam] at this
      exact hne (hspec.success.mpr this)
    . simp only [Init.Exhausted, hcalloc, hfam, true_and, ← hspec.exhausted hne]
      exact ⟨fun hclosed => hclosed.1, hspec.closed hne⟩
  . next heq =>
    rw [not_not] at heq
    obtain ⟨hopened, hfd₁⟩ := hspec.taken heq
    obtain ⟨res, hres, serverInfo, hmem, hpasses⟩ := hspec.success.mp heq
    refine .of_initListen hspec.fresh hopened hfd₁ ?_ ?_
    . simp only [Init.Listens, hcalloc, hfam, true_and]
      exact (and_iff_left ⟨res, hres, serverInfo, hmem, hpasses⟩).symm
    . rintro ⟨_, _, res', hres', hnone, _⟩
      cases hres.symm.trans hres'
      exact hnone serverInfo hmem hpasses

theorem accounts_of_initServerSock (hfresh : s.Fresh) (hfd : s.fd = -1) (h : call.run s = some r)
    : Accounts call s r := by
  have hs : ({ s with fd := -1 } : Sockets) = s := by rw [← hfd]
  unfold Init.run initServerSock at h
  rw [hs] at h
  dsimp only at h
  have hfailed : Attempt s s := .failed hfresh rfl (absurd hfd)
  have hclosed : ¬ s.Closed := fun hclosed => hclosed.1 hfd
  cases hcalloc : call.answers.calloc with
  | false =>
    rw [if_pos hcalloc] at h
    cases h
    refine .of_initError hfailed (not_listens_of_calloc hcalloc) (iff_of_false hclosed ?_)
    intro hexhausted
    rw [hexhausted.1] at hcalloc
    cases hcalloc
  | true =>
    rw [if_neg (by simp [hcalloc])] at h
    cases hfam : call.sockFam with
    | unix =>
      rw [hfam] at h
      dsimp only at h
      cases hunix : initUnixSock call.answers.unix call.hostName call.isSockAbstract with
      | error e =>
        rw [hunix] at h
        cases h
      | ok last =>
        rw [hunix] at h
        dsimp only at h
        rw [← apply_ite some, Option.some.injEq] at h
        rw [← h]
        exact accounts_of_initUnixSock hfresh hcalloc hfam hunix
    | inet =>
      rw [hfam] at h
      dsimp only at h
      cases htcp : createTcpSock call.turns call.answers.res s with
      | none =>
        rw [htcp] at h
        cases h
      | some last =>
        rw [htcp] at h
        dsimp only at h
        rw [← apply_ite some, Option.some.injEq] at h
        rw [← h]
        exact accounts_of_createTcpSock hfresh hfd hcalloc hfam htcp
    | inet6 =>
      rw [hfam] at h
      cases h
      rw [initListen, if_pos (.inl hfd)]
      exact .of_initError hfailed (by simp [Init.Listens, hfam]) (iff_of_false hclosed (by simp [Init.Exhausted, hfam]))
    | other =>
      rw [hfam] at h
      cases h
      exact .of_initError hfailed (by simp [Init.Listens, hfam]) (iff_of_false hclosed (by simp [Init.Exhausted, hfam]))

theorem accounts_of_run (hfresh : s.Fresh) (h : call.run s = some r) : Accounts call s r := by
  have hstart : ({ s with fd := -1 } : Sockets).Fresh := hfresh.of_eq rfl (Nat.le_refl _)
  have haccounts := accounts_of_initServerSock hstart rfl h
  exact ⟨haccounts.fresh, haccounts.success, haccounts.listener, haccounts.error, haccounts.stale⟩

theorem cleanListeningSockets_spec (listeners : List Listener)
    : ∀ (s : Sockets) (res : Sockets × Bool), s.Fresh → s.opened.Perm (listeners.map Listener.fd) →
      cleanListeningSockets listeners s = some res → res.1.Fresh ∧ res.1.opened = [] ∧ res.2 = false := by
  induction listeners with
  | nil =>
    intro s res hfresh hperm h
    cases h
    exact ⟨hfresh, hperm.eq_nil, rfl⟩
  | cons ls listeners ih =>
    intro s res hfresh hperm h
    rw [List.map_cons] at hperm
    have hrest : (s.opened.erase ls.fd).Perm (listeners.map Listener.fd) := by
      simpa using hperm.erase ls.fd
    have hmem : ls.fd ∈ s.opened := hperm.mem_iff.mpr List.mem_cons_self
    rw [cleanListeningSockets] at h
    split at h
    . obtain ⟨last, hlast, rfl⟩ := Option.map_eq_some_iff.mp h
      obtain ⟨hfresh', hopened, hstale⟩ := ih _ last (hfresh.erase ls.fd) hrest hlast
      exact ⟨hfresh', hopened, by simp [hmem, hstale]⟩
    . cases h

theorem cleanListeningSockets_ne_none (listeners : List Listener)
    : ∀ s : Sockets, cleanListeningSockets listeners s ≠ none ↔ ∀ ls ∈ listeners, ls.ev = true := by
  induction listeners with
  | nil => simp [cleanListeningSockets]
  | cons ls listeners ih =>
    intro s
    rw [cleanListeningSockets, List.forall_mem_cons, ← ih { s with opened := s.opened.erase ls.fd }]
    split
    . next hev => simp [hev]
    . next hev => simp [hev]

theorem killServer_ne_none (x : Listeners)
    : x.killServer ≠ none ↔ x.base = true ∧ ∀ ls ∈ x.listeners, ls.ev = true := by
  rw [Listeners.killServer, ← cleanListeningSockets_ne_none x.listeners x.sockets]
  split
  . next hbase => simp [hbase]
  . next hbase => simp [hbase]

namespace startAcceptingConnections

variable {answers : Int → EventAnswers}

theorem map_fd (listeners : List Listener)
    : ∀ listeners', startAcceptingConnections answers listeners = some listeners' →
      listeners'.map Listener.fd = listeners.map Listener.fd := by
  induction listeners with
  | nil =>
    intro listeners' h
    cases h
    rfl
  | cons ls listeners ih =>
    intro listeners' h
    rw [startAcceptingConnections] at h
    split at h
    . obtain ⟨last, hlast, rfl⟩ := Option.map_eq_some_iff.mp h
      rw [List.map_cons, List.map_cons, ih last hlast]
    . cases h

theorem all_added (listeners : List Listener)
    : (∀ ls ∈ listeners, answers ls.fd = ⟨true, true⟩) →
      ∃ listeners', startAcceptingConnections answers listeners = some listeners' ∧
        ∀ ls ∈ listeners', ls.ev = true := by
  induction listeners with
  | nil => exact fun _ => ⟨[], rfl, by simp⟩
  | cons ls listeners ih =>
    intro h
    rw [List.forall_mem_cons] at h
    obtain ⟨listeners', hrest, hev⟩ := ih h.2
    refine ⟨⟨ls.fd, true⟩ :: listeners', ?_, List.forall_mem_cons.mpr ⟨rfl, hev⟩⟩
    simp [startAcceptingConnections, hrest, h.1]

end startAcceptingConnections

theorem runServer_same {x x' : Listeners} {answers : Int → EventAnswers} (h : x.runServer answers = some x')
    : x'.sockets = x.sockets ∧ x'.listeners.map Listener.fd = x.listeners.map Listener.fd := by
  rw [Listeners.runServer] at h
  split at h
  . obtain ⟨listeners, hstart, rfl⟩ := Option.map_eq_some_iff.mp h
    exact ⟨rfl, startAcceptingConnections.map_fd x.listeners listeners hstart⟩
  . cases h

theorem killServer_of_runServer {x : Listeners} {answers : Int → EventAnswers} (hbase : x.base = true)
    (h : ∀ ls ∈ x.listeners, answers ls.fd = ⟨true, true⟩)
    : ∃ x', x.runServer answers = some x' ∧ x'.killServer ≠ none := by
  obtain ⟨listeners, hstart, hev⟩ := startAcceptingConnections.all_added x.listeners h
  refine ⟨{ x with listeners }, ?_, (killServer_ne_none _).mpr ⟨hbase, hev⟩⟩
  simp [Listeners.runServer, hbase, hstart]

structure Listeners.Inv (x : Listeners) : Prop where
  fresh : x.sockets.Fresh
  perm : x.sockets.opened.Perm (x.listeners.map Listener.fd)

theorem Listeners.Inv.step {x x' : Listeners} {act : Act} (h : x.Inv) (hstep : x.step act = some x') : x'.Inv := by
  cases act with
  | initServer call =>
    obtain ⟨r, hrun, rfl⟩ := Option.map_eq_some_iff.mp hstep
    have haccounts := accounts_of_run h.fresh hrun
    refine ⟨haccounts.fresh, ?_⟩
    by_cases hrc : r.rc = trashSuccess
    . obtain ⟨fd, hls, _, hopened⟩ := haccounts.listener hrc
      simp only [hopened, hls, Option.toList_some, List.map_append, List.map_cons, List.map_nil]
      exact (h.perm.cons fd).trans (List.perm_append_singleton fd (x.listeners.map Listener.fd)).symm
    . obtain ⟨hls, hopened⟩ := haccounts.error hrc
      simp only [hopened, hls, Option.toList_none, List.map_nil, List.append_nil]
      exact h.perm
  | runServer answers =>
    obtain ⟨hsockets, hfds⟩ := runServer_same hstep
    exact ⟨hsockets ▸ h.fresh, by rw [hsockets, hfds]; exact h.perm⟩
  | killServer =>
    rw [Listeners.step, Listeners.killServer] at hstep
    split at hstep
    . obtain ⟨res, hclean, rfl⟩ := Option.map_eq_some_iff.mp hstep
      obtain ⟨hfresh, hopened, _⟩ := cleanListeningSockets_spec x.listeners x.sockets res h.fresh h.perm hclean
      exact ⟨hfresh, by rw [hopened]; rfl⟩
    . cases hstep

end

theorem descriptors_of_run {acts : List Act} {x : Listeners}
    (h : Lts.run Listeners.step noListeners acts = some x)
    : x.Accounted := by
  have hinv : x.Inv := by
    refine Lts.invariant_run (fun _ _ _ hinv hstep => hinv.step hstep) ?_ h
    exact ⟨⟨List.nodup_nil, by simp [noListeners, noSockets]⟩, List.Perm.nil⟩
  refine ⟨hinv.perm.nodup_iff.mp hinv.fresh.nodup, fun _ => hinv.perm.mem_iff, fun _ _ hrun => ?_,
    fun _ _ => runServer_same, killServer_ne_none x, fun res hclean => ?_,
    fun hbase _ => killServer_of_runServer hbase⟩
  . exact accounts_of_run hinv.fresh hrun
  . exact (cleanListeningSockets_spec x.listeners x.sockets res hinv.fresh hinv.perm hclean).2

def tcpCall (res : List AddrInfo) (listen : Bool) : Act :=
  .initServer ⟨5, ⟨true, ⟨true, true, true⟩, some res, listen⟩, .inet, [], false⟩

def unixCall (chmod : Bool) : Act :=
  .initServer ⟨5, ⟨true, ⟨true, true, chmod⟩, none, true⟩, .unix, [116], false⟩

/--
The second candidate is taken, the next call has none, and the Unix socket is closed again.
-/
def mixedCalls : List Act :=
  [tcpCall [⟨.inet6, true, true, false⟩, ⟨.inet, true, true, true⟩] true, tcpCall [⟨.inet, true, true, false⟩] true,
    unixCall false, .runServer fun _ => ⟨true, true⟩]

/--
A listener that is appended when `run_server` is over has no event.
-/
theorem descriptors_of_mixedCalls
    : ∃ x x', Lts.run Listeners.step noListeners mixedCalls = some x ∧ x.listeners = [⟨4, true⟩] ∧
        x.killServer ≠ none ∧ x.Accounted ∧
        Lts.run Listeners.step noListeners (mixedCalls ++ [unixCall true]) = some x' ∧
        x'.listeners = [⟨4, true⟩, ⟨7, false⟩] ∧ x'.killServer = none ∧ x'.Accounted := by
  have hrun : Lts.run Listeners.step noListeners mixedCalls =
      some ⟨[⟨4, true⟩], ⟨6, 7, [4], [(4, ⟨.inet, true, true, true⟩)], _⟩, true⟩ := rfl
  have hrun' : Lts.run Listeners.step noListeners (mixedCalls ++ [unixCall true]) =
      some ⟨[⟨4, true⟩, ⟨7, false⟩], ⟨7, 8, [7, 4], [(4, ⟨.inet, true, true, true⟩)], _⟩, true⟩ := rfl
  exact ⟨_, _, hrun, rfl, Option.some_ne_none _, descriptors_of_run hrun, hrun', rfl, rfl, descriptors_of_run hrun'⟩

end Server
