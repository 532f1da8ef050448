import Yfs.Lib.Program
import Yfs.Store.Manager

/-! The file system operations of `yfs_client.cc`, as programs over the lock client
and the extent client. -/

namespace Yfs.Client

open Yfs.Lib Yfs.Store

/-- A status is an `int`: the values of `yfs_client::xxstatus`, of which
`extent_protocol` shares the first four, or an error of the RPC layer. -/
abbrev Status := Int

def OK : Status := 0
def NOENT : Status := 2
def IOERR : Status := 3
def EXIST : Status := 4

/-- The calls to the extent client. -/
inductive Call where
  | get (eid : Nat)
  | put (eid : Nat) (buf : List UInt8)
  | getattr (eid : Nat)
  | create (type : UInt32)
  | remove (eid : Nat)
  deriving DecidableEq, Repr

/-- The status of a call and what it has set its reference argument to. -/
abbrev Call.Reply : Call → Type
  | .get _ => Status × List UInt8
  | .put _ _ => Status
  | .getattr _ => Status × Attr
  | .create _ => Status × Nat
  | .remove _ => Status

/-- A section of a client. It aborts at `exit(0)` and at an exception of `std::string`. -/
abbrev Prog := Program Nat Call Call.Reply

/-- `lc->acquire`; its status is never looked at. -/
def acquire (lid : Nat) : Prog Unit := .acquire lid (.done ())

def release (lid : Nat) : Prog Unit := .release lid (.done ())

def call (c : Call) : Prog c.Reply := .call c .done

/-- `std::string::resize`. -/
def resize (buf : List UInt8) (n : Nat) : List UInt8 :=
  buf.take n ++ List.replicate (n - buf.length) 0

/-- `buf.substr(off, size)`; it throws when `off` is behind the end. -/
def substr (buf : List UInt8) (off size : Nat) : Prog (List UInt8) :=
  if buf.length < off then .abort else .done ((buf.drop off).take size)

/-- `buf.replace(off, size, str)`; it throws when `off` is behind the end. -/
def replace (buf : List UInt8) (off size : Nat) (str : List UInt8) : Prog (List UInt8) :=
  if buf.length < off then .abort else .done (buf.take off ++ str ++ buf.drop (off + size))

/-- `(uint) off`. -/
def uint (off : Nat) : Nat := off % 2 ^ 32

def MAX_LENGTH : Nat := 64

/-- `sizeof(entry_t)`: a 64-bit inum, the name, a 32-bit length and four bytes of
padding. -/
def ENTRY_SIZE : Nat := 80

/-- The memory of an `entry_t`. -/
abbrev Entry := Nat → UInt8

namespace Entry

def inum (e : Entry) : Nat := load e 0 8

def nameLength (e : Entry) : Nat := load e 72 4

/-- `_name.assign(it->name, it->name_length)`. -/
def name (e : Entry) : List UInt8 := (List.range e.nameLength).map fun k => e (8 + k)

/-- An entry on the stack over whatever `memory` is there: the two numbers are
assigned, then the name is copied. -/
def make (memory : Entry) (inum : Nat) (name : Nat → UInt8) (length : Nat) : Entry :=
  copy (store (store memory 0 8 inum) 72 4 length) 8 name length

/-- `str.assign((char *) (&entry), sizeof(entry_t))`. -/
def bytes (e : Entry) : List UInt8 := (List.range ENTRY_SIZE).map e

end Entry

/-- The entries in the content of a directory, each in memory of its own. A name that
is longer than the entry is read from behind it; these bytes are taken to be zero. -/
def entries (buf : List UInt8) : List Entry :=
  (List.range (buf.length / ENTRY_SIZE)).map fun i k =>
    ((buf.drop (i * ENTRY_SIZE)).take ENTRY_SIZE).getD k 0

/-- The common body of `isfile`, `issymlink` and `isdir`. -/
def hasType (type : UInt32) (inum : Nat) : Prog Bool := do
  acquire inum
  let (r, a) ← call (.getattr inum)
  if r ≠ OK then
    return false
  else
    release inum
    return a.type = type

def isfile : Nat → Prog Bool := hasType T_FILE
def issymlink : Nat → Prog Bool := hasType T_SYMLINK
def isdir : Nat → Prog Bool := hasType T_DIR

structure FileInfo where
  size : UInt32
  atime : UInt32
  mtime : UInt32
  ctime : UInt32
  deriving DecidableEq, Repr

structure DirInfo where
  atime : UInt32
  mtime : UInt32
  ctime : UInt32
  deriving DecidableEq, Repr

/-- The common body of `getfile` and `getdir`. -/
def getinfo {β : Type} (fill : Attr → β) (inum : Nat) : Prog (Status × Option β) := do
  acquire inum
  let (r, a) ← call (.getattr inum)
  if r ≠ OK then
    return (IOERR, none)
  else
    release inum
    return (OK, some (fill a))

def getfile : Nat → Prog (Status × Option FileInfo) :=
  getinfo fun a => ⟨a.size, a.atime, a.mtime, a.ctime⟩

def getdir : Nat → Prog (Status × Option DirInfo) := getinfo fun a => ⟨a.atime, a.mtime, a.ctime⟩

def setattr (ino size : Nat) : Prog Status := do
  acquire ino
  let (r, buf) ← call (.get ino)
  if r ≠ OK then
    return r
  else
    let r ← call (.put ino (resize buf size))
    release ino
    return r

def __readdir (dir : Nat) : Prog (List Entry) := do
  let (r, buf) ← call (.get dir)
  if r ≠ OK then
    .abort
  else
    let (_, attr) ← call (.getattr dir)
    if attr.type ≠ T_DIR then
      .abort
    else
      return entries buf

def __lookup (parent : Nat) (name : List UInt8) : Prog (Status × Option Nat) := do
  let list ← __readdir parent
  match list.find? (·.name = name) with
  | some it => return (EXIST, some it.inum)
  | none => return (OK, none)

/-- The entry that `create`, `mkdir` and `symlink` append. What `memcpy` writes behind the end of the
entry, when the name has more than 72 bytes, is not modelled: the program goes on here. -/
def newEntry (memory : Entry) (inum : Nat) (name : List UInt8) : Entry :=
  .make memory inum (fun k => name.getD k 0) name.length

/-- The common body of `create` and `mkdir`. -/
def createNode (type : UInt32) (parent : Nat) (name : List UInt8) (memory : Entry) :
    Prog (Status × Option Nat) := do
  acquire parent
  let (_, found) ← __lookup parent name
  if found.isSome then
    release parent
    return (EXIST, none)
  else
    let (_, ino) ← call (.create type)
    let (r, buf) ← call (.get parent)
    if r ≠ OK then
      .abort
    else
      let _ ← call (.put parent (buf ++ (newEntry memory ino name).bytes))
      release parent
      return (OK, some ino)

def create : Nat → List UInt8 → Entry → Prog (Status × Option Nat) := createNode T_FILE
def mkdir : Nat → List UInt8 → Entry → Prog (Status × Option Nat) := createNode T_DIR

def lookup (parent : Nat) (name : List UInt8) : Prog (Status × Option Nat) := do
  acquire parent
  let found ← __lookup parent name
  release parent
  return found

/-- Status and `std::list<dirent>`. -/
def readdir (dir : Nat) : Prog (Status × List (List UInt8 × Nat)) := do
  acquire dir
  let list ← __readdir dir
  release dir
  return (OK, list.map fun it => (it.name, it.inum))

def read (ino size off : Nat) : Prog (Status × List UInt8) := do
  acquire ino
  let (r, buf) ← call (.get ino)
  if r ≠ OK then
    return (r, [])
  else if buf.length ≤ uint off then
    return (r, [])
  else
    let data ← substr buf off size
    release ino
    return (r, data)

/-- Status and `bytes_written`. -/
def write (ino off : Nat) (data : List UInt8) : Prog (Status × Nat) := do
  let size := data.length
  acquire ino
  let (_, buf) ← call (.get ino)
  if uint off ≤ buf.length then
    let buf' ← replace buf off size data
    let _ ← call (.put ino buf')
    release ino
    return (OK, size)
  else
    let buf' ← replace (resize buf (size + off)) off size data
    let _ ← call (.put ino buf')
    release ino
    return (OK, size + off - buf.length)

/-- An entry that `unlink` has read, written anew over whatever `memory` is there. -/
def again (memory it : Entry) : Entry := .make memory it.inum (fun j => it (8 + j)) it.nameLength

/-- The content that `unlink` writes. -/
def rewrite (memory : Nat → Entry) (list : List Entry) : List UInt8 :=
  (list.mapIdx fun k it => (again (memory k) it).bytes).flatten

def unlink (parent : Nat) (name : List UInt8) (memory : Nat → Entry) : Prog Status := do
  acquire parent
  let list ← __readdir parent
  match list.find? (·.name = name) with
  | none =>
    release parent
    return NOENT
  | some it =>
    let _ ← call (.remove it.inum)
    let _ ← call (.put parent (rewrite memory (list.eraseP (·.name = name))))
    release parent
    return OK

def readlink (ino : Nat) : Prog (Status × List UInt8) := do
  acquire ino
  let (r, buf) ← call (.get ino)
  release ino
  return (r, buf)

/-- The directory is read before the lookup reads it again. -/
def symlink (parent : Nat) (name link : List UInt8) (memory : Entry) :
    Prog (Status × Option Nat) := do
  acquire parent
  let (_, buf) ← call (.get parent)
  let (_, found) ← __lookup parent name
  if found.isSome then
    release parent
    return (EXIST, none)
  else
    let (_, ino) ← call (.create T_SYMLINK)
    let r ← call (.put ino link)
    let _ ← call (.put parent (buf ++ (newEntry memory ino name).bytes))
    release parent
    return (r, some ino)

end Yfs.Client
