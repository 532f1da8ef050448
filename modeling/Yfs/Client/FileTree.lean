import Yfs.Client.Fuse

/-! What a mounted file system is for: a tree of named files, and the replies that its requests
are to get. -/

namespace Yfs.Client

open Yfs.Lib
open Yfs.Store (MAXSIZE)

/-- What a user sees of an inode. -/
inductive Node where
  | file (content : List UInt8)
  | link (target : List UInt8)
  | dir (names : List (List UInt8 × Nat))
  deriving DecidableEq, Repr

abbrev FileTree := Nat → Option Node

/-- The mode bits and the link count that tell the kind of an inode. Sizes and times are left open. -/
def Stat.Describes (st : Stat) (ino : Nat) (node : Node) : Prop :=
  st.ino = ino ∧ match node with
    | .file _ => st.mode = S_IFREG ||| 0o666 ∧ st.nlink = 1
    | .link _ => st.mode = S_IFLNK ||| 0o777 ∧ st.nlink = 1
    | .dir _ => st.mode = S_IFDIR ||| 0o777 ∧ st.nlink = 2

namespace Fuse

/-- What a request makes: a name in a directory, for a new node, and the reply to it. -/
def Request.makes : Request → Option (Nat × Component × Node × (Nat → Stat → Reply))
  | .create parent name => some (parent, name, .file [], .create)
  | .mknod parent name => some (parent, name, .file [], .entry)
  | .mkdir parent name => some (parent, name, .dir [], .entry)
  | .symlink link parent name => some (parent, name, .link link, .entry)
  | _ => none

end Fuse

namespace FileTree

open Fuse

/-- The requests that are in order. The kernel sends a request to an inode of the right kind, and
`unlink` for what is no directory; a name fits in a directory entry; a read begins inside the file;
and nothing becomes larger than a file can be. -/
def Admits (T : FileTree) : Request → Prop
  | .getattr ino => T ino ≠ none
  | .setattr ino size toSet => FUSE_SET_ATTR_SIZE &&& toSet ≠ 0 → size ≤ MAXSIZE ∧ ∃ c, T ino = some (.file c)
  | .read ino _ off => ∃ c, T ino = some (.file c) ∧ off < c.length
  | .write ino data off => off + data.length ≤ MAXSIZE ∧ ∃ c, T ino = some (.file c)
  | .create parent name | .mknod parent name | .mkdir parent name =>
    name.bytes.length ≤ MAX_LENGTH ∧ ∃ names, T parent = some (.dir names)
  | .symlink link parent name =>
    name.bytes.length ≤ MAX_LENGTH ∧ 0 ∉ link ∧ link.length ≤ MAXSIZE ∧ ∃ names, T parent = some (.dir names)
  | .lookup parent _ => ∃ names, T parent = some (.dir names)
  | .unlink parent name => ∃ names, T parent = some (.dir names) ∧
    ∀ ino children, (name.bytes, ino) ∈ names → T ino ≠ some (.dir children)
  | .readlink ino => ∃ target, T ino = some (.link target)
  | .readdir ino _ _ => T ino ≠ none
  | .open _ | .statfs => True

/-- A request with its reply, and what it does to the tree. The count of a write that leaves a gap
is left open. -/
inductive Handles (L : Libfuse) (T : FileTree) : Request → Reply → FileTree → Prop where
  | getattr (found : T ino = some node) (described : Stat.Describes st ino node) :
      Handles L T (.getattr ino) (.attr st) T
  | resized (sized : FUSE_SET_ATTR_SIZE &&& toSet ≠ 0) (found : T ino = some (.file c))
      (described : Stat.Describes st ino (.file (truncate c size))) :
      Handles L T (.setattr ino size toSet) (.attr st)
        (Function.update T ino (some (.file (truncate c size))))
  | ignored (other : FUSE_SET_ATTR_SIZE &&& toSet = 0) :
      Handles L T (.setattr ino size toSet) (.err ENOSYS) T
  | read (found : T ino = some (.file c)) :
      Handles L T (.read ino size off) (.buf (readAt c off size)) T
  | written (found : T ino = some (.file c)) (counted : off ≤ c.length → count = data.length) :
      Handles L T (.write ino data off) (.write count)
        (Function.update T ino (some (.file (writeAt c off data))))
  | made (makes : request.makes = some (parent, name, node, reply))
      (found : T parent = some (.dir names)) (new : name.bytes ∉ names.map Prod.fst)
      (dead : T ino = none) (described : Stat.Describes st ino node) :
      Handles L T request (reply ino st) (Function.update (Function.update T ino (some node)) parent
        (some (.dir (names ++ [(name.bytes, ino)]))))
  | exist (makes : request.makes = some (parent, name, node, reply))
      (found : T parent = some (.dir names)) (old : name.bytes ∈ names.map Prod.fst) :
      Handles L T request (.err EEXIST) T
  | looked (found : T parent = some (.dir names)) (named : (name.bytes, ino) ∈ names)
      (live : T ino = some node) (described : Stat.Describes st ino node) :
      Handles L T (.lookup parent name) (.entry ino st) T
  | missed (found : T parent = some (.dir names)) (absent : name.bytes ∉ names.map Prod.fst) :
      Handles L T (.lookup parent name) (.err ENOENT) T
  | unlinked (found : T parent = some (.dir (before ++ (name.bytes, ino) :: after))) :
      Handles L T (.unlink parent name) (.err 0)
        (Function.update (Function.update T ino none) parent (some (.dir (before ++ after))))
  | absent (found : T parent = some (.dir names)) (absent : name.bytes ∉ names.map Prod.fst) :
      Handles L T (.unlink parent name) (.err ENOENT) T
  | readlink (found : T ino = some (.link target)) : Handles L T (.readlink ino) (.readlink target) T
  | listed (found : T ino = some (.dir names)) :
      Handles L T (.readdir ino size off) (.buf (((L.format.layout 0 names).drop off).take size)) T
  | unlisted (found : T ino = some node) (other : ∀ names, node ≠ .dir names) :
      Handles L T (.readdir ino size off) (.err ENOTDIR) T
  | opened : Handles L T (.open ino) .open T
  | statfs : Handles L T .statfs (.statfs 255 512) T

/-- A tree with nothing but its root. -/
def empty : FileTree := fun i => if i = 1 then some (.dir []) else none

/-- Requests that are in order, one after the other on an empty tree, the newest first. -/
inductive Run (L : Libfuse) : List (Request × Reply) → FileTree → Prop where
  | start : Run L [] empty
  | serve (before : Run L log T) (admitted : T.Admits request) (handles : Handles L T request reply T') :
      Run L ((request, reply) :: log) T'

end FileTree

end Yfs.Client
