import Mathlib.Data.List.Basic

/-!
This module contains `create_tcp_sock` of `server.c`, which looks for an address that a socket can be
bound to.

A candidate comes with what the system calls on it are going to answer. Descriptors are numbered in
the order in which they are opened. The addresses and what is stored in `taddr` (after the list has
been freed) are left out.
-/

namespace Server

def trashSuccess : Int := 0

def trashError : Int := -1

inductive Family where
  | inet
  | inet6
  | unspec
  deriving DecidableEq, Repr

structure AddrInfo where
  aiFamily : Family
  socket : Bool
  setsockopt : Bool
  bind : Bool
  deriving DecidableEq, Repr

structure Sockets where
  fd : Int
  nextFd : Nat
  opened : List Int
  bound : List (Int × AddrInfo)
  -- the candidates that `socket` has been called for
  tried : List AddrInfo
  deriving DecidableEq, Repr

namespace Sockets

def socket (s : Sockets) (serverInfo : AddrInfo) : Sockets :=
  if serverInfo.socket then
    {
      s with
      fd := s.nextFd
      nextFd := s.nextFd + 1
      opened := (s.nextFd : Int) :: s.opened
      tried := s.tried ++ [serverInfo]
    }
  else
    { s with fd := -1, tried := s.tried ++ [serverInfo] }

def evutilClosesocket (s : Sockets) : Sockets := { s with opened := s.opened.erase s.fd }

def bind (s : Sockets) (serverInfo : AddrInfo) : Sockets :=
  if serverInfo.bind then
    { s with bound := (s.fd, serverInfo) :: s.bound }
  else
    s

end Sockets

/--
The loop, cut off after the given number of turns: the candidates from `server_info` on that it ends
with. A failed `setsockopt` closes the socket and goes on without moving to the next candidate.
-/
def tcpLoop : Nat → List AddrInfo → Sockets → Option (List AddrInfo × Sockets)
  | 0, _, _ => none
  | _ + 1, [], s => some ([], s)
  | turns + 1, serverInfo :: aiNext, s =>
    let s := s.socket serverInfo
    if s.fd = -1 then
      tcpLoop turns aiNext s
    else if serverInfo.aiFamily = .inet ∧ serverInfo.setsockopt = false then
      tcpLoop turns (serverInfo :: aiNext) s.evutilClosesocket
    else if serverInfo.bind then
      some (serverInfo :: aiNext, s.bind serverInfo)
    else
      tcpLoop turns aiNext (s.bind serverInfo).evutilClosesocket

/--
`res` is what `evutil_getaddrinfo` answers, `none` if it fails.
-/
def createTcpSock (turns : Nat) (res : Option (List AddrInfo)) (s : Sockets) : Option (Int × Sockets) :=
  match res with
  | none => some (trashError, s)
  | some res =>
    match tcpLoop turns res s with
    | none => none
    | some ([], s) => some (trashError, s)
    | some (_ :: _, s) => some (trashSuccess, s)

end Server
