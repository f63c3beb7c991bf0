import Mathlib.Data.List.Basic

/-!
This module contains the byte strings of `db.c` and the records of the metadata database. A C string is
the list of its bytes without the terminator.
-/

namespace Db

abbrev Byte := BitVec 8

abbrev Bytes := List Byte

/--
"metadata"
-/
def metadata : Bytes := [0x6d, 0x65, 0x74, 0x61, 0x64, 0x61, 0x74, 0x61]

/--
"meta_meta"
-/
def metaMeta : Bytes := [0x6d, 0x65, 0x74, 0x61, 0x5f, 0x6d, 0x65, 0x74, 0x61]

/--
"dbs:"
-/
def dbPrefix : Bytes := [0x64, 0x62, 0x73, 0x3a]

def mdbCreate : BitVec 32 := 0x40000

def mdbNoOverwrite : BitVec 32 := 0x10

/--
The flags that `mdb_dbi_open` accepts.
-/
def validFlags : BitVec 32 := 0x4007e

/--
The flags that `mdb_put` accepts.
-/
def putFlags : BitVec 32 := 0x70030

def metadataFlags : BitVec 32 := mdbCreate

/--
The bytes of a `struct DbMeta`.
-/
def flagsBytes (flags : BitVec 32) : Bytes :=
  [flags.extractLsb' 0 8, flags.extractLsb' 8 8, flags.extractLsb' 16 8, flags.extractLsb' 24 8]

/--
`memcpy` into a `struct DbMeta`. Only a value of its size fills it without overflow.
-/
def readFlags : Bytes → Option (BitVec 32)
  | [b₀, b₁, b₂, b₃] => some (b₃ ++ b₂ ++ b₁ ++ b₀)
  | _ => none

/--
`snprintf(dbKeyName, sizeof(dbKeyName), DB_METADATA_KEY_FORMAT, dbname)`
-/
def dbKeyName (dbname : Bytes) : Bytes := (dbPrefix ++ dbname).take 255

/--
The key and the value that `open_db` stores for a database.
-/
def dbRecord (dbname : Bytes) (flags : BitVec 32) : Bytes × Bytes :=
  (dbKeyName dbname, flagsBytes (flags &&& ~~~mdbCreate))

/--
The C string at the start of the memory.
-/
def cString (mem : Bytes) : Bytes := mem.takeWhile (· != 0)

/--
`memcpy` into a `struct DbMeta` that had been filled before.
-/
def copyFlags (old : BitVec 32) (val : Bytes) : Option (BitVec 32) :=
  readFlags (val ++ (flagsBytes old).drop val.length)

/--
What `init_metadata` reads from a record. The value is right behind the key in memory, `after` is what
comes then.
-/
def readRecord (old : BitVec 32) (key val after : Bytes) : Option (Bytes × BitVec 32) :=
  (copyFlags old val).map fun flags => (cString ((key ++ val ++ after).drop dbPrefix.length), flags)

end Db
