import Yfs.Store.BlockManager
import Yfs.Lib.Act

/-! The inode layer of `inode_manager.cc`. -/

namespace Yfs.Store

open Yfs.Lib

def NDIRECT : Nat := 100
def NINDIRECT : Nat := BLOCK_SIZE / 4
def MAXFILE : Nat := NDIRECT + NINDIRECT
def NBLOCKS (size : Nat) : Nat := (size - 1) / BLOCK_SIZE + 1

/-- The largest size of a file. -/
def MAXSIZE : Nat := MAXFILE * BLOCK_SIZE

/-- The block count of a file, `size == 0 ? 0 : NBLOCKS(size)`. -/
def blockCount (size : Nat) : Nat := if size = 0 then 0 else NBLOCKS size

/-- `extent_protocol::types`. -/
def T_DIR : UInt32 := 1
def T_FILE : UInt32 := 2
def T_SYMLINK : UInt32 := 3

/-- `inode_t`. -/
structure Inode where
  type : Int16
  size : UInt32
  atime : UInt32
  mtime : UInt32
  ctime : UInt32
  blocks : Fin (NDIRECT + 1) → UInt32

/-- `node->blocks[k] = id`. -/
def Inode.setBlock (node : Inode) (k : Fin (NDIRECT + 1)) (id : UInt32) : Inode :=
  { node with blocks := Function.update node.blocks k id }

/-- The 32-bit word with index `w` of a block. -/
def word (b : Block) (w : Nat) : UInt32 := .ofNat (load b (4 * w) 4)

def setWord (b : Block) (w : Nat) (v : UInt32) : Block := store b (4 * w) 4 v.toNat

/-- An inode as it lies at the start of a block: a 16-bit type, two bytes of
padding and 32-bit words. -/
def Inode.decode (b : Block) : Inode :=
  { type := (UInt16.ofNat (load b 0 2)).toInt16, size := word b 1, atime := word b 2,
    mtime := word b 3, ctime := word b 4, blocks := fun k => word b (5 + k) }

def Inode.encode (node : Inode) (b : Block) : Block :=
  let b := store b 0 2 node.type.toUInt16.toNat
  let b := setWord b 1 node.size
  let b := setWord b 2 node.atime
  let b := setWord b 3 node.mtime
  let b := setWord b 4 node.ctime
  storeArray b 20 4 (NDIRECT + 1) fun k =>
    if inside : k < NDIRECT + 1 then (node.blocks ⟨k, inside⟩).toNat else 0

/-- `extent_protocol::attr`. -/
structure Attr where
  type : UInt32
  atime : UInt32
  mtime : UInt32
  ctime : UInt32
  size : UInt32
  deriving DecidableEq, Repr

/-- The attributes that `getattr` copies from an inode. -/
def Inode.attr (node : Inode) : Attr :=
  { type := node.type.toInt32.toUInt32, atime := node.atime, mtime := node.mtime,
    ctime := node.ctime, size := node.size }

/-- Points at which the code leaves its defined behaviour or the process: a null
`inode_t`, a block buffer that `read_block` left unset, an index behind the end
of the indirect block, and the exits of `alloc_block` and of the constructor. -/
inductive Fault where
  | nullInode | unsetBuffer | overrun | outOfBlocks | rootInode
  deriving DecidableEq, Repr

/-- What a call reads from `time(0)`. -/
structure Clock where
  atime : UInt32
  mtime : UInt32
  ctime : UInt32

structure InodeManager where
  nextInum : Nat
  bm : BlockManager

/-- A section of the inode layer. It emits the blocks that `alloc_block` returns. -/
abbrev Manage := Act UInt32 Fault InodeManager

namespace InodeManager

def allocBlock : Manage UInt32 := fun im =>
  match im.bm.allocBlock with
  | none => ([], .error .outOfBlocks)
  | some (id, bm) => ([id], .ok (id, { im with bm }))

def freeBlock (id : UInt32) : Manage Unit :=
  .modify fun im => { im with bm := im.bm.freeBlock id }

/-- `read_block` into a fresh buffer whose bytes are used afterwards. -/
def readBlock (id : UInt32) : Manage Block := fun im =>
  if BLOCK_NUM ≤ id.toNat then ([], .error .unsetBuffer)
  else ([], .ok (im.bm.disk.readBlock id fun _ => 0, im))

def setDisk (im : InodeManager) (disk : Disk) : InodeManager := { im with bm := { im.bm with disk } }

def writeBlock (id : UInt32) (buf : Block) (size : Nat) : Manage Unit :=
  .modify fun im => im.setDisk (im.bm.disk.writeBlock id buf size)

/-- The block that holds an inode. -/
def inodeBlock (im : InodeManager) (inum : Nat) : UInt32 := .ofNat (IBLOCK inum im.bm.nblocks.toNat)

/-- `inode_manager::get_inode`. The index `inum % IPB` into the block is 0. -/
def getInode (inum : Nat) : Manage (Option Inode) := do
  if INODE_NUM ≤ inum then return none
  let im ← Act.get
  let buf ← readBlock (im.inodeBlock inum)
  let node := Inode.decode buf
  if node.type = 0 then return none
  return some node

/-- `inode_manager::put_inode`. -/
def putInode (inum : Nat) (node : Inode) : Manage Unit := do
  let im ← Act.get
  let buf ← readBlock (im.inodeBlock inum)
  writeBlock (im.inodeBlock inum) (node.encode buf) BLOCK_SIZE

/-- `inode_manager::get_block_id`. -/
def getBlockId (node : Inode) (index : Nat) : Manage UInt32 := do
  if direct : index < NDIRECT then return node.blocks ⟨index, Nat.lt_succ_of_lt direct⟩
  else
    let buf ← readBlock (node.blocks (Fin.last NDIRECT))
    if NINDIRECT ≤ index - NDIRECT then Act.throw .overrun
    else return word buf (index - NDIRECT)

/-- The part of `set_block_id` that gives the inode an indirect block. -/
def ensureIndirect (node : Inode) : Manage Inode := do
  if node.blocks (Fin.last NDIRECT) = 0 then
    let block ← allocBlock
    return node.setBlock (Fin.last NDIRECT) block
  else return node

/-- `inode_manager::set_block_id`, with the inode it leaves. -/
def setBlockId (node : Inode) (index : Nat) (id : UInt32) : Manage Inode := do
  if direct : index < NDIRECT then return node.setBlock ⟨index, Nat.lt_succ_of_lt direct⟩ id
  else
    let node ← ensureIndirect node
    let buf ← readBlock (node.blocks (Fin.last NDIRECT))
    if NINDIRECT ≤ index - NDIRECT then Act.throw .overrun
    else
      writeBlock (node.blocks (Fin.last NDIRECT)) (setWord buf (index - NDIRECT) id) BLOCK_SIZE
      return node

/-- The inode that `alloc_inode` fills in: the memory `malloc` returned, with all
fields but `blocks` set. -/
def newInode (type : UInt32) (memory : Inode) (now : Clock) : Inode :=
  { memory with type := type.toUInt16.toInt16, size := 0, atime := now.atime, mtime := now.mtime,
                ctime := now.ctime }

/-- The first of the `count` inums from `inum` on that has no inode. -/
def scan (inum : Nat) : Nat → Manage (Option Nat)
  | 0 => return none
  | count + 1 => do
    match ← getInode inum with
    | none => return some inum
    | some node => if node.type = 0 then return some inum else scan (inum + 1) count

/-- The inum that the two loops of `alloc_inode` find. -/
def findInum : Manage (Option Nat) := do
  let im ← Act.get
  match ← scan im.nextInum (INODE_NUM - im.nextInum) with
  | some inum => return some inum
  | none => scan 1 (im.nextInum - 1)

/-- `inode_manager::alloc_inode`; both loops write the inode in the same way. -/
def allocInode (type : UInt32) (memory : Inode) (now : Clock) : Manage Nat := do
  match ← findInum with
  | none => return 0
  | some inum =>
    putInode inum (newInode type memory now)
    Act.modify fun im => { im with nextInum := inum + 1 }
    return inum

/-- `node` where the code uses the pointer without a check. -/
def deref : Option Inode → Manage Inode
  | none => Act.throw .nullInode
  | some node => pure node

/-- `inode_manager::free_inode`. -/
def freeInode (inum : Nat) : Manage Unit := do
  match ← getInode inum with
  | none => return
  | some node => putInode inum { node with type := 0 }

/-- `inode_manager::read_file`: the buffer and its size. -/
def readFile (inum : Nat) (now : Clock) : Manage ((Nat → UInt8) × UInt32) := do
  let node ← deref (← getInode inum)
  let blocks := blockCount node.size.toNat
  let buf ← Act.loop blocks (fun i buf => do
    let block ← readBlock (← getBlockId node i)
    let size := if i = blocks - 1 then node.size.toNat - i * BLOCK_SIZE else BLOCK_SIZE
    return copy buf (i * BLOCK_SIZE) block size) (fun _ => 0)
  putInode inum { node with atime := now.atime }
  return (buf, node.size)

/-- `inode_manager::write_file`. -/
def writeFile (inum : Nat) (buf : Nat → UInt8) (size : Nat) (now : Clock) : Manage Unit := do
  let node ← deref (← getInode inum)
  let oldBlocks := blockCount node.size.toNat
  let newBlocks := blockCount size
  let node := { node with size := .ofNat size }
  let node ← Act.loop (newBlocks - oldBlocks) (fun index node => do
    let id ← allocBlock
    setBlockId node (oldBlocks + index) id) node
  Act.loop (oldBlocks - newBlocks) (fun index _ => do
    freeBlock (← getBlockId node (newBlocks + index))) ()
  Act.loop newBlocks (fun index _ => do
    let bsize := if index = newBlocks - 1 then size - index * BLOCK_SIZE else BLOCK_SIZE
    writeBlock (← getBlockId node index) (fun k => buf (BLOCK_SIZE * index + k)) bsize) ()
  putInode inum { node with atime := now.atime, mtime := now.mtime, ctime := now.ctime }

/-- `inode_manager::getattr`, which leaves its result alone if there is no inode. -/
def getattr (inum : Nat) (a : Attr) : Manage Attr := do
  match ← getInode inum with
  | none => return a
  | some node => return node.attr

/-- `inode_manager::remove_file`. -/
def removeFile (inum : Nat) : Manage Unit := do
  let node ← deref (← getInode inum)
  Act.loop (blockCount node.size.toNat) (fun i _ => do freeBlock (← getBlockId node i)) ()
  freeInode inum

def create (nblocks : UInt32) : InodeManager := { nextInum := 1, bm := .create nblocks }

/-- `inode_manager::inode_manager`, run on the manager that `create` gives. -/
def construct (memory : Inode) (now : Clock) : Manage Unit := do
  let root ← allocInode T_DIR memory now
  if root ≠ 1 then Act.throw .rootInode

end InodeManager

end Yfs.Store
