import Yfs.Client.Exhaustion
import Yfs.Client.Offsets
import Yfs.Client.Paging
import Yfs.Lib.Solo

/-! The handlers of `fuse.cc`. Each of them ends in the one reply that it sends. -/

namespace Yfs.Client

open Yfs.Lib Yfs.Store Program

def ENOENT : Nat := 2
def EEXIST : Nat := 17
def ENOSYS : Nat := 38
def ENOTEMPTY : Nat := 39

def S_IFREG : UInt32 := 0o100000
def S_IFDIR : UInt32 := 0o040000
def S_IFLNK : UInt32 := 0o120000

def FUSE_SET_ATTR_SIZE : Nat := 8

/-- The members of `struct stat` that `getattr` sets; the others stay zero. -/
structure Stat where
  ino : Nat
  mode : UInt32 := 0
  nlink : Nat := 0
  atime : UInt32 := 0
  mtime : UInt32 := 0
  ctime : UInt32 := 0
  size : UInt32 := 0
  deriving DecidableEq, Repr

namespace Fuse

/-- What a handler sends: one of the `fuse_reply` functions with its data. -/
inductive Reply where
  | err (errno : Nat)
  | attr (st : Stat)
  | entry (ino : Nat) (st : Stat)
  | create (ino : Nat) (st : Stat)
  | buf (bytes : List UInt8)
  | write (count : Nat)
  | readlink (link : List UInt8)
  | open
  | statfs (namemax bsize : Nat)
  deriving DecidableEq, Repr

/-- The `stat` of a file or a symbolic link. -/
def fileStat (inum : Nat) (mode : UInt32) (info : FileInfo) : Stat :=
  { ino := inum, mode, nlink := 1, atime := info.atime, mtime := info.mtime, ctime := info.ctime,
    size := info.size }

/-- The `printf` at the beginning asks `isfile` once more. -/
def getattr (inum : Nat) : Prog (Status × Stat) := do
  let _ ← isfile inum
  if ← isfile inum then
    match ← getfile inum with
    | (_, some info) => return (OK, fileStat inum (S_IFREG ||| 0o666) info)
    | (ret, none) => return (ret, { ino := inum })
  else if ← isdir inum then
    match ← getdir inum with
    | (_, some info) =>
      return (OK, { ino := inum, mode := S_IFDIR ||| 0o777, nlink := 2, atime := info.atime,
                    mtime := info.mtime, ctime := info.ctime })
    | (ret, none) => return (ret, { ino := inum })
  else if ← issymlink inum then
    match ← getfile inum with
    | (_, some info) => return (OK, fileStat inum (S_IFLNK ||| 0o777) info)
    | (ret, none) => return (ret, { ino := inum })
  else return (OK, { ino := inum })

def fuseserverGetattr (ino : Nat) : Prog Reply := do
  let (ret, st) ← getattr ino
  if ret ≠ OK then return .err ENOENT else return .attr st

/-- The status of `setattr` and that of `getattr` are not looked at. -/
def fuseserverSetattr (ino size toSet : Nat) : Prog Reply := do
  if FUSE_SET_ATTR_SIZE &&& toSet ≠ 0 then
    let _ ← setattr ino size
    let (_, st) ← getattr ino
    return .attr st
  else return .err ENOSYS

def fuseserverRead (ino size off : Nat) : Prog Reply := do
  let (r, buf) ← read ino size off
  if r = OK then return .buf buf else return .err ENOENT

/-- `size` is also the argument for `bytes_written`, so it is what `write` has set it to. -/
def fuseserverWrite (ino : Nat) (buf : List UInt8) (off : Nat) : Prog Reply := do
  let (r, size) ← write ino off buf
  if r = OK then return .write size else return .err ENOENT

/-- Status, and the inum and attributes of `fuse_entry_param`. -/
def fuseserverCreatehelper (parent : Nat) (name : List UInt8) (type : UInt32) (memory : Entry) :
    Prog (Status × Option (Nat × Stat)) := do
  match ← (if type = T_FILE then create parent name memory else mkdir parent name memory) with
  | (ret, some inum) =>
    if ret ≠ OK then return (ret, none)
    else
      let (ret, st) ← getattr inum
      return (ret, some (inum, st))
  | (ret, none) => return (ret, none)

/-- How the handlers of a creation end. -/
def replyMade (reply : Nat → Stat → Reply) : Status × Option (Nat × Stat) → Reply
  | (ret, e) =>
    match e with
    | some (ino, st) => if ret = OK then reply ino st else .err (if ret = EXIST then EEXIST else ENOENT)
    | none => .err (if ret = EXIST then EEXIST else ENOENT)

def fuseserverCreate (parent : Nat) (name : List UInt8) (memory : Entry) : Prog Reply :=
  return replyMade .create (← fuseserverCreatehelper parent name T_FILE memory)

def fuseserverMknod (parent : Nat) (name : List UInt8) (memory : Entry) : Prog Reply :=
  return replyMade .entry (← fuseserverCreatehelper parent name T_FILE memory)

def fuseserverMkdir (parent : Nat) (name : List UInt8) (memory : Entry) : Prog Reply :=
  return replyMade .entry (← fuseserverCreatehelper parent name T_DIR memory)

/-- The status of `getattr` is not looked at. -/
def fuseserverLookup (parent : Nat) (name : List UInt8) : Prog Reply := do
  match ← lookup parent name with
  | (_, some ino) =>
    let (_, st) ← getattr ino
    return .entry ino st
  | (_, none) => return .err ENOENT

def fuseserverUnlink (parent : Nat) (name : List UInt8) (memory : Nat → Entry) : Prog Reply := do
  let r ← unlink parent name memory
  if r = OK then return .err 0
  else return .err (if r = NOENT then ENOENT else ENOTEMPTY)

/-- The reply is a C string. -/
def fuseserverReadlink (ino : Nat) : Prog Reply := do
  let (ret, buf) ← readlink ino
  if ret ≠ OK then return .err ENOENT else return .readlink (cString buf)

def fuseserverSymlink (link : List UInt8) (parent : Nat) (name : List UInt8) (memory : Entry) :
    Prog Reply := do
  match ← symlink parent name link memory with
  | (ret, some id) =>
    if ret ≠ OK then return .err (if ret = EXIST then EEXIST else ENOENT)
    else
      let (ret, st) ← getattr id
      if ret ≠ OK then return .err ENOENT else return .entry id st
  | (ret, none) => return .err (if ret = EXIST then EEXIST else ENOENT)

def fuseserverOpen : Prog Reply := return .open

def fuseserverStatfs : Prog Reply := return .statfs 255 512

/-- A request of the kernel, with the arguments that the handlers look at. Names are C strings. -/
inductive Request where
  | getattr (ino : Nat)
  | setattr (ino size toSet : Nat)
  | read (ino size off : Nat)
  | write (ino : Nat) (data : List UInt8) (off : Nat)
  | create (parent : Nat) (name : Component)
  | mknod (parent : Nat) (name : Component)
  | mkdir (parent : Nat) (name : Component)
  | symlink (link : List UInt8) (parent : Nat) (name : Component)
  | lookup (parent : Nat) (name : Component)
  | unlink (parent : Nat) (name : Component)
  | readlink (ino : Nat)
  | readdir (ino size off : Nat)
  | open (ino : Nat)
  | statfs

/-- `fuseserver_oper`, with the stack memory that the handler finds. -/
def handle (L : Libfuse) (memory : Nat → Entry) : Request → Prog Reply
  | .getattr ino => fuseserverGetattr ino
  | .setattr ino size toSet => fuseserverSetattr ino size toSet
  | .read ino size off => fuseserverRead ino size off
  | .write ino data off => fuseserverWrite ino data off
  | .create parent name => fuseserverCreate parent name.bytes (memory 0)
  | .mknod parent name => fuseserverMknod parent name.bytes (memory 0)
  | .mkdir parent name => fuseserverMkdir parent name.bytes (memory 0)
  | .symlink link parent name => fuseserverSymlink link parent name.bytes (memory 0)
  | .lookup parent name => fuseserverLookup parent name.bytes
  | .unlink parent name => fuseserverUnlink parent name.bytes memory
  | .readlink ino => fuseserverReadlink ino
  | .readdir ino size off => do
    match ← fuseserverReaddir L ino size off with
    | .err errno => return .err errno
    | .buf bytes => return .buf bytes
  | .open _ => fuseserverOpen
  | .statfs => fuseserverStatfs

end Fuse

end Yfs.Client
