import TrashDb.Lib.Lts
import TrashDb.Server.Unix

/-!
This module contains `init_server_sock` of `server.c`, which opens a socket and makes it one that listens,
`run_server` as far as it gives every listener an event, and `kill_server`, which closes the sockets of all
listeners. The list of listeners is in the order in which they are appended and popped. The source has `append`
and `pop` in a comment of `utilities.c` only.

As in `TrashDb.Server.Impl` the answers of the system calls are given, and so are those of libevent.
`listen` fails for the number -1. A call that libevent would make of a `NULL` event or of a base that has been
freed has no result. The dispatching of the events, `on_connect` with it, and the files of the Unix
sockets are left out.
-/

namespace Server

inductive SockFam where
  | unix
  | inet
  | inet6
  | other
  deriving DecidableEq, Repr

/--
What the calls of one `init_server_sock` answer, `res` is the answer of `evutil_getaddrinfo`.
-/
structure InitAnswers where
  calloc : Bool
  unix : Answers
  res : Option (List AddrInfo)
  listen : Bool
  deriving DecidableEq, Repr

structure Listening where
  rc : Int
  -- the descriptor of the listener that is appended
  ls : Option Int
  sockets : Sockets
  -- the descriptor that is closed at the label `error` was not open
  stale : Bool
  deriving DecidableEq, Repr

/--
The call of `socket` in `create_unix_sock`. The descriptor is not closed there.
-/
def Sockets.unixSocket (s : Sockets) (answers : Answers) : Sockets :=
  if answers.socket then
    { s with fd := s.nextFd, nextFd := s.nextFd + 1, opened := (s.nextFd : Int) :: s.opened }
  else
    { s with fd := -1 }

/--
The label `error`
-/
def initError (s : Sockets) : Listening :=
  if s.fd ≠ -1 then
    ⟨trashError, none, s.evutilClosesocket, s.fd ∉ s.opened⟩
  else
    ⟨trashError, none, s, false⟩

def initListen (listen : Bool) (s : Sockets) : Listening :=
  if s.fd = -1 ∨ listen = false then
    initError s
  else
    ⟨trashSuccess, some s.fd, s, false⟩

/--
The call does not return if `create_tcp_sock` does not, nor if `create_unix_sock` writes behind its address.
A failure of it leaves the number of the last socket in `fd`, open or not.
-/
def initServerSock (turns : Nat) (answers : InitAnswers) (sockFam : SockFam) (hostName : List UInt8)
    (isSockAbstract : Bool) (s : Sockets)
    : Option Listening :=
  let s := { s with fd := -1 }
  if answers.calloc = false then
    some (initError s)
  else
    match sockFam with
    | .unix =>
      match initUnixSock answers.unix hostName isSockAbstract with
      | .error _ => none
      | .ok (rc, _) =>
        let s := s.unixSocket answers.unix
        if rc ≠ 0 then some (initError s) else some (initListen answers.listen s)
    | .inet =>
      match createTcpSock turns answers.res s with
      | none => none
      | some (rc, s) => if rc ≠ 0 then some (initError s) else some (initListen answers.listen s)
    | .inet6 => some (initListen answers.listen s)
    | .other => some (initError s)

structure Init where
  turns : Nat
  answers : InitAnswers
  sockFam : SockFam
  hostName : List UInt8
  isSockAbstract : Bool

def Init.run (call : Init) (s : Sockets) : Option Listening :=
  initServerSock call.turns call.answers call.sockFam call.hostName call.isSockAbstract s

/--
`ev` says whether the field `ev` holds an event that has been added. `calloc` leaves it `NULL`.
-/
structure Listener where
  fd : Int
  ev : Bool
  deriving DecidableEq, Repr

structure EventAnswers where
  eventNew : Bool
  eventAdd : Bool
  deriving DecidableEq, Repr

/--
The result of `event_new` is not checked before it is added.
-/
def startAcceptingConnections (answers : Int → EventAnswers) : List Listener → Option (List Listener)
  | [] => some []
  | ls :: listeners =>
    if (answers ls.fd).eventNew then
      (startAcceptingConnections answers listeners).map fun listeners =>
        { ls with ev := (answers ls.fd).eventAdd || ls.ev } :: listeners
    else
      none

/--
The sockets and whether one of the descriptors was not open when it was closed. A listener without an event
makes `event_del` follow a `NULL` pointer.
-/
def cleanListeningSockets : List Listener → Sockets → Option (Sockets × Bool)
  | [], s => some (s, false)
  | ls :: listeners, s =>
    if ls.ev then
      (cleanListeningSockets listeners { s with opened := s.opened.erase ls.fd }).map fun res =>
        (res.1, ls.fd ∉ s.opened || res.2)
    else
      none

structure Listeners where
  listeners : List Listener
  sockets : Sockets
  -- `serverBase` has not been freed
  base : Bool
  deriving DecidableEq, Repr

inductive Act where
  | initServer (call : Init)
  | runServer (answers : Int → EventAnswers)
  | killServer

namespace Listeners

def runServer (x : Listeners) (answers : Int → EventAnswers) : Option Listeners :=
  if x.base then
    (startAcceptingConnections answers x.listeners).map fun listeners => { x with listeners }
  else
    none

/--
The base is not set to `NULL` when it is freed, and nothing makes another one.
-/
def killServer (x : Listeners) : Option Listeners :=
  if x.base then
    (cleanListeningSockets x.listeners x.sockets).map fun res => ⟨[], res.1, false⟩
  else
    none

def step (x : Listeners) : Act → Option Listeners
  | .initServer call =>
    (call.run x.sockets).map fun r =>
      { x with listeners := x.listeners ++ r.ls.toList.map (⟨·, false⟩), sockets := r.sockets }
  | .runServer answers => x.runServer answers
  | .killServer => x.killServer

end Listeners

end Server
