import Yfs.Store.FileTable

/-! The extent service of `extent_server.cc` and `extent_client.cc`: one server over
a table of files, and clients that keep dirty extents in their caches. A call of a
client, with the RPCs and the callbacks it triggers, is one step. -/

namespace Yfs.Store.FileTable

/-- `write_file` of a string; nothing when the inode is missing. -/
def writeFile (F : FileTable) (inum : Nat) (bytes : List UInt8) (now : Clock) :
    Option FileTable := do
  let file ← F inum
  return Function.update F inum (some { file with
    bytes := bytes, atime := now.atime, mtime := now.mtime, ctime := now.ctime })

def readFile (F : FileTable) (inum : Nat) (now : Clock) : Option (List UInt8 × FileTable) := do
  let file ← F inum
  return (file.bytes, Function.update F inum (some { file with atime := now.atime }))

/-- `getattr` leaves `a` alone when the inode is missing. -/
def getattr (F : FileTable) (inum : Nat) (a : Attr) : Attr := (F inum).elim a File.attr

def removeFile (F : FileTable) (inum : Nat) : Option FileTable := do
  let _ ← F inum
  return Function.update F inum none

theorem content_getD (bytes : List UInt8) :
    content (fun p => bytes.getD p 0) bytes.length = bytes := by
  apply List.ext_getElem
  · simp [content]
  · intro p _ inside
    simp [content, inside]

section Calls

variable {F F' : FileTable} {inum : Nat} {bytes : List UInt8} {now : Clock}

theorem writeFile_none (missing : F.writeFile inum bytes now = none) : F inum = none := by
  rcases found : F inum with _ | file
  · rfl
  · simp [writeFile, found] at missing

theorem readFile_none (missing : F.readFile inum now = none) : F inum = none := by
  rcases found : F inum with _ | file
  · rfl
  · simp [readFile, found] at missing

theorem removeFile_none (missing : F.removeFile inum = none) : F inum = none := by
  rcases found : F inum with _ | file
  · rfl
  · simp [removeFile, found] at missing

theorem writeFile_some (written : F.writeFile inum bytes now = some F') :
    ∃ file, F inum = some file ∧ F' = Function.update F inum (some { file with
      bytes := bytes, atime := now.atime, mtime := now.mtime, ctime := now.ctime }) := by
  obtain ⟨file, found, same⟩ := Option.bind_eq_some_iff.mp written
  exact ⟨file, found, (Option.some.inj same).symm⟩

theorem readFile_some (read : F.readFile inum now = some (bytes, F')) :
    ∃ file, F inum = some file ∧ bytes = file.bytes ∧
      F' = Function.update F inum (some { file with atime := now.atime }) := by
  obtain ⟨file, found, same⟩ := Option.bind_eq_some_iff.mp read
  cases same
  exact ⟨file, found, rfl, rfl⟩

theorem removeFile_some (removed : F.removeFile inum = some F') :
    ∃ file, F inum = some file ∧ F' = Function.update F inum none := by
  obtain ⟨file, found, same⟩ := Option.bind_eq_some_iff.mp removed
  exact ⟨file, found, (Option.some.inj same).symm⟩

theorem alloc_cases {type : UInt32} {memory : Inode}
    (alloc : F.Step (.alloc type memory now) (.inum inum) F') :
    (inum = 0 ∧ F' = F) ∨ (F inum = none ∧ inum < INODE_NUM ∧
      F' = Function.update F inum (some (.new type now))) := by
  cases alloc with
  | full _ => exact .inl ⟨rfl, rfl⟩
  | alloc dead range => exact .inr ⟨dead, range.2, rfl⟩

/-- The table answers each call as the inode layer does. -/
theorem writeFile_step (written : F.writeFile inum bytes now = some F') :
    F.Step (.write inum (fun p => bytes.getD p 0) bytes.length now) .done F' := by
  obtain ⟨file, found, rfl⟩ := writeFile_some written
  have step : F.Step (.write inum (fun p => bytes.getD p 0) bytes.length now) .done _ := .write found
  rwa [content_getD] at step

theorem readFile_step (read : F.readFile inum now = some (bytes, F')) :
    F.Step (.read inum now) (.data bytes (.ofNat bytes.length)) F' := by
  obtain ⟨file, found, rfl, rfl⟩ := readFile_some read
  exact .read found

theorem getattr_step (F : FileTable) (inum : Nat) (a : Attr) :
    F.Step (.getattr inum a) (.attr (F.getattr inum a)) F := by
  rcases found : F inum with _ | file
  · simpa [getattr, found] using Step.absent found
  · simpa [getattr, found] using Step.getattr found

theorem removeFile_step (removed : F.removeFile inum = some F') : F.Step (.remove inum) .done F' := by
  obtain ⟨file, found, rfl⟩ := removeFile_some removed
  exact .remove found

end Calls

end Yfs.Store.FileTable

namespace Yfs.Extent

open Yfs.Lib Yfs.Store

/-- `extent_client::status`. -/
inductive Stat where
  | none | own
  deriving DecidableEq, Repr

/-- `data_cache_t`. -/
structure DataCache where
  stat : Stat
  data : List UInt8
  deriving DecidableEq, Repr

/-- `new data_cache_t()`. -/
def DataCache.new : DataCache := ⟨.none, []⟩

/-- `metadata_cache_t`. Its constructor sets `stat` only. -/
structure MetadataCache where
  stat : Stat
  metadata : Attr
  deriving DecidableEq, Repr

/-- The maps of an `extent_client`; a key that is not there reads as a null pointer. -/
structure Client where
  dataMap : Nat → Option DataCache
  metadataMap : Nat → Option MetadataCache

/-- An `extent_server` whose `inode_manager` is a table of files. -/
structure Server (Cid : Type) where
  files : FileTable
  ownerMap : Nat → Option Cid

structure World (Cid : Type) where
  server : Server Cid
  clients : Cid → Client

/-- The callbacks of `rextent_protocol`, with the client they are sent to. -/
inductive Callback (Cid : Type) where
  | flush (owner : Cid) (id : Nat)
  | clear (owner : Cid) (id : Nat)
  | syncMeta (owner : Cid) (id : Nat)
  deriving DecidableEq, Repr

/-- Where a process dies: a null `inode_t` in the server, a null cache entry or a
failed assertion in a client, and `exit(0)` in `flush`. -/
inductive Fault where
  | nullInode | nullData | nullMetadata | assertMetadata | flushNotOwning
  deriving DecidableEq, Repr

/-- What a call reads from outside: the memory of a new `metadata_cache_t` and the
times at the client, in the `write_file` of a flush and in `read_file`. -/
structure Env where
  memory : Attr
  client : Clock
  flushed : Clock
  fetched : Clock

abbrev Ext (Cid : Type) := Act (Callback Cid) Fault (World Cid)

variable {Cid : Type}

namespace World

def setFiles (W : World Cid) (files : FileTable) : World Cid :=
  { W with server := { W.server with files } }

def setOwner (W : World Cid) (id : Nat) (cid : Cid) : World Cid :=
  { W with server := { W.server with ownerMap := Function.update W.server.ownerMap id (some cid) } }

variable (W : World Cid) (files : FileTable) (cid c : Cid) (eid k : Nat) (cache : DataCache)
  (info : MetadataCache)

@[simp] theorem setFiles_files : (W.setFiles files).server.files = files := rfl

@[simp] theorem setFiles_ownerMap : (W.setFiles files).server.ownerMap = W.server.ownerMap := rfl

@[simp] theorem setFiles_clients : (W.setFiles files).clients = W.clients := rfl

@[simp] theorem setOwner_files : (W.setOwner eid cid).server.files = W.server.files := rfl

@[simp] theorem setOwner_ownerMap :
    (W.setOwner eid cid).server.ownerMap = Function.update W.server.ownerMap eid (some cid) := rfl

@[simp] theorem setOwner_clients : (W.setOwner eid cid).clients = W.clients := rfl

variable [DecidableEq Cid]

def setData (W : World Cid) (cid : Cid) (eid : Nat) (cache : DataCache) : World Cid :=
  { W with clients := Function.update W.clients cid { W.clients cid with
      dataMap := Function.update (W.clients cid).dataMap eid (some cache) } }

def setMetadata (W : World Cid) (cid : Cid) (eid : Nat) (info : MetadataCache) : World Cid :=
  { W with clients := Function.update W.clients cid { W.clients cid with
      metadataMap := Function.update (W.clients cid).metadataMap eid (some info) } }

@[simp] theorem setData_server : (W.setData cid eid cache).server = W.server := rfl

@[simp] theorem setData_dataMap : ((W.setData cid eid cache).clients c).dataMap k =
    if c = cid ∧ k = eid then some cache else (W.clients c).dataMap k := by
  by_cases same : c = cid <;> simp [setData, Function.update_apply, same]

@[simp] theorem setData_metadataMap :
    ((W.setData cid eid cache).clients c).metadataMap = (W.clients c).metadataMap := by
  by_cases same : c = cid <;> simp [setData, same]

@[simp] theorem setMetadata_server : (W.setMetadata cid eid info).server = W.server := rfl

@[simp] theorem setMetadata_dataMap :
    ((W.setMetadata cid eid info).clients c).dataMap = (W.clients c).dataMap := by
  by_cases same : c = cid <;> simp [setMetadata, same]

@[simp] theorem setMetadata_metadataMap : ((W.setMetadata cid eid info).clients c).metadataMap k =
    if c = cid ∧ k = eid then some info else (W.clients c).metadataMap k := by
  by_cases same : c = cid <;> simp [setMetadata, Function.update_apply, same]

end World

variable [DecidableEq Cid]

/-- `id &= 0x7fffffff`. -/
def mask (id : Nat) : Nat := id % 2 ^ 31

/-- A value that a missing pointer makes a fault of. -/
def orFault {α : Type} (fault : Fault) : Option α → Ext Cid α
  | none => Act.throw fault
  | some a => pure a

namespace Server

/-- With a string that fits in a file; what becomes of others is said of `Store.ExtentServer.put`. -/
def put (id : Nat) (buf : List UInt8) (now : Clock) : Ext Cid Unit := do
  let id := mask id
  let W ← Act.get
  let files ← orFault .nullInode (W.server.files.writeFile id buf now)
  Act.modify (·.setFiles files)

end Server

namespace Client

/-- `data_map[eid]`, created where it is missing. -/
def dataCache (cid : Cid) (eid : Nat) : Ext Cid DataCache := do
  let W ← Act.get
  match (W.clients cid).dataMap eid with
  | some cache => return cache
  | none =>
    Act.modify (·.setData cid eid .new)
    return .new

/-- `metadata_map[eid]`, created where it is missing. -/
def metadataCache (env : Env) (cid : Cid) (eid : Nat) : Ext Cid MetadataCache := do
  let W ← Act.get
  match (W.clients cid).metadataMap eid with
  | some info => return info
  | none =>
    Act.modify (·.setMetadata cid eid ⟨.none, env.memory⟩)
    return ⟨.none, env.memory⟩

def flush (env : Env) (cid : Cid) (eid : Nat) : Ext Cid Unit := do
  let W ← Act.get
  let cache ← orFault .nullData ((W.clients cid).dataMap eid)
  if cache.stat ≠ .own then
    Act.throw .flushNotOwning
  else
    Server.put eid cache.data env.flushed

def clearHandler (cid : Cid) (eid : Nat) : Ext Cid Unit := do
  let W ← Act.get
  let cache ← orFault .nullData ((W.clients cid).dataMap eid)
  Act.modify (·.setData cid eid { cache with stat := .none })
  let info ← orFault .nullMetadata ((W.clients cid).metadataMap eid)
  Act.modify (·.setMetadata cid eid { info with stat := .none })

def flushHandler (env : Env) (cid : Cid) (eid : Nat) : Ext Cid Unit := do
  flush env cid eid
  clearHandler cid eid

def syncMetaHandler (cid : Cid) (eid : Nat) : Ext Cid Attr := do
  let W ← Act.get
  let info ← orFault .nullMetadata ((W.clients cid).metadataMap eid)
  return info.metadata

end Client

namespace Server

/-- Send a callback to the client in `owner_map[id]`, if there is one. -/
def callOwner (id : Nat) (callback : Cid → Nat → Callback Cid) (handler : Cid → Nat → Ext Cid Unit) :
    Ext Cid Unit := do
  let W ← Act.get
  match W.server.ownerMap id with
  | some owner =>
    Act.emit (callback owner id)
    handler owner id
  | none => pure ()

def get (env : Env) (cid : Cid) (id : Nat) : Ext Cid (List UInt8) := do
  let id := mask id
  callOwner id Callback.flush (Client.flushHandler env)
  Act.modify (·.setOwner id cid)
  let W ← Act.get
  let (buf, files) ← orFault .nullInode (W.server.files.readFile id env.fetched)
  Act.modify (·.setFiles files)
  return buf

def getattr (id : Nat) : Ext Cid Attr := do
  let id := mask id
  let W ← Act.get
  match W.server.ownerMap id with
  | some owner =>
    Act.emit (.syncMeta owner id)
    Client.syncMetaHandler owner id
  | none => return W.server.files.getattr id ⟨0, 0, 0, 0, 0⟩

def remove (id : Nat) : Ext Cid Unit := do
  let id := mask id
  callOwner id Callback.clear Client.clearHandler
  let W ← Act.get
  let files ← orFault .nullInode (W.server.files.removeFile id)
  Act.modify (·.setFiles files)

end Server

namespace Client

def getattr (env : Env) (cid : Cid) (eid : Nat) : Ext Cid Attr := do
  let cache ← metadataCache env cid eid
  if cache.stat ≠ .own then
    let attr ← Server.getattr eid
    Act.modify (·.setMetadata cid eid ⟨.own, attr⟩)
    return attr
  else
    return cache.metadata

/-- The RPCs of a `get` whose extent is not in the cache. -/
def fetch (env : Env) (cid : Cid) (eid : Nat) : Ext Cid (List UInt8) := do
  let info ← metadataCache env cid eid
  Act.when (info.stat = .none) do
    let _ ← getattr env cid eid
  let buf ← Server.get env cid eid
  Act.modify (·.setData cid eid ⟨.own, buf⟩)
  return buf

def get (env : Env) (cid : Cid) (eid : Nat) : Ext Cid (List UInt8) := do
  let cache ← dataCache cid eid
  if cache.stat = .own then
    Act.when (eid ≠ 1) do
      let W ← Act.get
      let info ← orFault .assertMetadata ((W.clients cid).metadataMap eid)
      Act.modify (·.setMetadata cid eid
        { info with metadata := { info.metadata with atime := env.client.atime } })
    return cache.data
  else
    fetch env cid eid

/-- What `put` does once the client owns the extent. -/
def fill (env : Env) (cid : Cid) (eid : Nat) (buf : List UInt8) : Ext Cid Unit := do
  let info ← metadataCache env cid eid
  Act.modify (·.setMetadata cid eid { info with metadata := { info.metadata with
    size := .ofNat buf.length, atime := env.client.atime, ctime := env.client.ctime,
    mtime := env.client.mtime } })
  let cache ← dataCache cid eid
  Act.modify (·.setData cid eid { cache with data := buf })

def put (env : Env) (cid : Cid) (eid : Nat) (buf : List UInt8) : Ext Cid Unit := do
  let cache ← dataCache cid eid
  Act.when (cache.stat ≠ .own) do
    let _ ← get env cid eid
  fill env cid eid buf

def remove (eid : Nat) : Ext Cid Unit := Server.remove eid

end Client

/-- The calls of an `extent_client` apart from `create`. -/
inductive Request where
  | get (eid : Nat)
  | put (eid : Nat) (buf : List UInt8)
  | getattr (eid : Nat)
  | remove (eid : Nat)
  deriving DecidableEq, Repr

inductive Call where
  | create (type : UInt32)
  | request (r : Request)
  deriving DecidableEq, Repr

inductive Answer where
  | id (eid : Nat)
  | data (buf : List UInt8)
  | attr (a : Attr)
  | done
  deriving DecidableEq, Repr

def Request.run (env : Env) (cid : Cid) : Request → Ext Cid Answer
  | .get eid => return .data (← Client.get env cid eid)
  | .put eid buf => do
    Client.put env cid eid buf
    return .done
  | .getattr eid => return .attr (← Client.getattr env cid eid)
  | .remove eid => do
    Client.remove eid
    return .done

/-- An environment in which no time passes. -/
def Env.still : Env := ⟨⟨0, 0, 0, 0, 0⟩, ⟨0, 0, 0⟩, ⟨0, 0, 0⟩, ⟨0, 0, 0⟩⟩

/-- The state after a call, or the same state where a process dies in it. -/
def World.next (W : World Cid) (env : Env) (cid : Cid) (r : Request) : World Cid :=
  match (r.run env cid W).2 with
  | .ok (_, W') => W'
  | .error _ => W

/-- One call of a client. `create` is answered by `alloc_inode` alone. -/
inductive World.Step (W : World Cid) (cid : Cid) : Call → Answer → World Cid → Prop where
  | create (alloc : W.server.files.Step (.alloc type memory now) (.inum eid) files) :
      Step W cid (.create type) (.id eid) (W.setFiles files)
  | request (ran : (r.run env cid W).2 = .ok (answer, W')) :
      Step W cid (.request r) answer W'

/-- A call in a run, with the state it was made in. -/
structure Event (Cid : Type) where
  before : World Cid
  cid : Cid
  call : Call
  answer : Answer

/-- The calls made from a state, the newest first, and the state they lead to. -/
inductive World.Run (start : World Cid) : List (Event Cid) → World Cid → Prop where
  | nil : Run start [] start
  | cons (run : Run start log W) (step : W.Step cid call answer W') :
      Run start (⟨W, cid, call, answer⟩ :: log) W'

/-- A server that has just been started over some files, and clients with empty caches. -/
structure World.Initial (W : World Cid) : Prop where
  files : ∀ id, W.server.files id ≠ none → id < INODE_NUM
  ownerMap : ∀ id, W.server.ownerMap id = none
  dataMap : ∀ cid id, (W.clients cid).dataMap id = none
  metadataMap : ∀ cid id, (W.clients cid).metadataMap id = none

omit [DecidableEq Cid] in
/-- The root directory that the constructor of `inode_manager` makes, and nothing else. -/
def World.boot (now : Clock) : World Cid :=
  { server := ⟨Function.update (fun _ => none) 1 (some (.new T_DIR now)), fun _ => none⟩
    clients := fun _ => ⟨fun _ => none, fun _ => none⟩ }

omit [DecidableEq Cid] in
theorem World.boot_initial (now : Clock) : (World.boot now : World Cid).Initial where
  files id live := by
    have root : id = 1 := by
      by_contra other
      simp [boot, other] at live
    rw [root]
    decide
  ownerMap _ := rfl
  dataMap _ _ := rfl
  metadataMap _ _ := rfl

end Yfs.Extent
