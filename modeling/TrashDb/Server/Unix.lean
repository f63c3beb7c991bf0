import TrashDb.Lib.ByteBlock
import TrashDb.Server.Impl

/-!
This module contains the addresses of Unix sockets: `create_unix_sock`, which fills in the address of a
listener, and what `on_connect` makes of it for each client with `get_sock_path` and
`set_unix_trash_addr` of `utilities.c`.

A `struct sockaddr_un` is its 110 bytes, `sun_path` begins behind the two bytes of the family. The
answers of the system calls are given, `unlink` is left out.
-/

namespace Server

open ByteBlock (Stop)

def afUnix : List UInt8 := [1, 0]

def offsetofSunPath : Nat := 2

def sizeofSunPath : Nat := 108

def sizeofSockaddrUn : Nat := 110

def sizeofSockaddrStorage : Nat := 128

/--
`"/trash.socket"`
-/
def trashSocket : List UInt8 := [47, 116, 114, 97, 115, 104, 46, 115, 111, 99, 107, 101, 116]

def at_ : UInt8 := 64

structure TrashAddr where
  addr : ByteBlock
  addrlen : Nat

def TrashAddr.zero : TrashAddr := ⟨ByteBlock.zero sizeofSockaddrStorage, 0⟩

structure Answers where
  socket : Bool
  bind : Bool
  chmod : Bool
  deriving DecidableEq, Repr

def createUnixSock (answers : Answers) (taddr : TrashAddr) (sockDir : List UInt8) (isSockAbstract : Bool)
    : Except Stop (Int × TrashAddr) := do
  if answers.socket = false then
    return (trashError, taddr)
  let addr := ByteBlock.zero sizeofSockaddrUn
  let addr ← addr.write 0 afUnix
  let (addr, sunIndex) ←
    if isSockAbstract then do
      let addr ← addr.write (offsetofSunPath + 0) [0]
      pure (addr, 1)
    else
      pure (addr, 0)
  -- the size is that of the whole array also where the name begins at its second byte
  let addr ← addr.snprintf (offsetofSunPath + sunIndex) sizeofSunPath (sockDir ++ trashSocket)
  let addrlen ←
    if isSockAbstract = false then
      pure sizeofSockaddrUn
    else do
      let len ← addr.strlen offsetofSunPath
      pure (offsetofSunPath + len)
  if answers.bind = false then
    return (trashError, taddr)
  let stored ← taddr.addr.memcpy 0 addr 0 addrlen
  let taddr := ⟨stored, addrlen⟩
  if isSockAbstract = false ∧ answers.chmod = false then
    return (trashError, taddr)
  return (trashSuccess, taddr)

/--
The listener is zeroed by `calloc` and gets its family before the socket is created.
-/
def initUnixSock (answers : Answers) (sockDir : List UInt8) (isSockAbstract : Bool)
    : Except Stop (Int × TrashAddr) := do
  let addr ← TrashAddr.zero.addr.write 0 afUnix
  createUnixSock answers { TrashAddr.zero with addr := addr } sockDir isSockAbstract

def family (taddr : TrashAddr) : List (Option UInt8) := taddr.addr.slice 0 offsetofSunPath

def sunPath (taddr : TrashAddr) : List (Option UInt8) := taddr.addr.slice offsetofSunPath sizeofSunPath

def isUnixSocket (taddr : TrashAddr) : Bool := family taddr == afUnix.map some

def getSockPath (taddr : TrashAddr) (path : ByteBlock) (pathLen : Nat) : Except Stop ByteBlock :=
  if isUnixSocket taddr = false then
    return path
  else if pathLen ≥ sizeofSunPath then
    path.memcpy 0 taddr.addr offsetofSunPath sizeofSunPath
  else
    return path

def setUnixTrashAddr (path : ByteBlock) : Except Stop TrashAddr := do
  let taddr := TrashAddr.zero
  let addr ← taddr.addr.write 0 afUnix
  let (addr, index) ←
    if (← path.read 0) = at_ then do
      let addr ← addr.write (offsetofSunPath + 0) [0]
      pure (addr, 1)
    else
      pure (addr, 0)
  let addr ← addr.memcpy (offsetofSunPath + index) path index sizeofSunPath
  return { taddr with addr := addr }

/--
The address of a client of a Unix listener. The array `path` is as long as the listener's address.
-/
def remoteAddr (localaddr : TrashAddr) : Except Stop TrashAddr := do
  let path := ByteBlock.uninit localaddr.addrlen
  let path ← getSockPath localaddr path localaddr.addrlen
  setUnixTrashAddr path

end Server
