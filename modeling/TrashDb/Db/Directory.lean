import TrashDb.Lib.Tree
import TrashDb.Utilities.Impl

/-!
This module contains the beginning of `open_env` of `db.c`, which prepares the directory of the
environment, on a tree of directories. What happens from `mdb_env_open` on is in `Db.Impl`.
-/

namespace Directory

open Utilities

def trashSuccess : Int := 0

def trashError : Int := -1

/--
`DB_DIR`, which is `"./test/"` in a test and else `"/var/local/trashdb/data/"`.
-/
def dbDir (test : Bool) : Pathname :=
  if test then
    [46, 47, 116, 101, 115, 116, 47]
  else
    [47, 118, 97, 114, 47, 108, 111, 99, 97, 108, 47, 116, 114, 97, 115, 104, 100, 98, 47, 100, 97, 116, 97, 47]

def filepathSize : Nat := 256

/--
The `snprintf` of `open_env`.
-/
def filepath (test : Bool) (filename : Pathname) : Pathname := (dbDir test ++ filename).take (filepathSize - 1)

/--
Of the three calls only `mdb_env_set_maxreaders` refuses something before the environment is open.
-/
def internalSetEnvFields (numthreads : Nat) : Int := if numthreads < 1 then trashError else trashSuccess

inductive Ending where
  | returns (rc : Int)
  -- `mdb_env_open` is called with the path
  | opens (path : Pathname)
  deriving DecidableEq, Repr

def setAndOpen (path : Pathname) (numthreads : Nat) (t : DirTree) : Ending × DirTree :=
  if internalSetEnvFields numthreads ≠ trashSuccess then
    (.returns trashError, t)
  else
    (.opens path, t)

/--
The error of `stat` is not looked at, because the source assigns `ENOENT` to `errno` where it means to
compare them. `opened` says that there is an environment already.
-/
def openEnv (test opened : Bool) (filename : Pathname) (numthreads : Nat) (holder : Holder) (t : DirTree)
    : Except Stop (Ending × DirTree) :=
  if opened then
    .ok (.returns trashSuccess, t)
  else if validateFilename filename ≠ 0 then
    .ok (.returns trashError, t)
  else
    let path := filepath test filename
    match t.stat path with
    | .ok _ => .ok (setAndOpen path numthreads t)
    | .error _ => do
      let (rc, t, _) ← trashMkdir DirTree.fileSystem path path.length 493 holder t
      if rc ≠ 0 then
        return (.returns trashError, t)
      else
        return setAndOpen path numthreads t

end Directory
