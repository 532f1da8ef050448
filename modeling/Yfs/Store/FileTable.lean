import Yfs.Store.Blocks

/-! The table of files that the inode layer implements, and the relation between
a table and the state of an inode manager. -/

namespace Yfs.Store

open Yfs.Lib BlockManager InodeManager

/-- What an inum stands for: the type and the content of a file. -/
structure File where
  type : UInt32
  atime : UInt32
  mtime : UInt32
  ctime : UInt32
  bytes : List UInt8

/-- The attributes of a file. -/
def File.attr (file : File) : Attr :=
  { type := file.type, atime := file.atime, mtime := file.mtime, ctime := file.ctime,
    size := .ofNat file.bytes.length }

/-- A new, empty file. -/
def File.new (type : UInt32) (now : Clock) : File :=
  { type, atime := now.atime, mtime := now.mtime, ctime := now.ctime, bytes := [] }

abbrev FileTable := Nat → Option File

/-- The calls of the inode layer, with the memory `malloc` returns and the times
they read. -/
inductive Op where
  | alloc (type : UInt32) (memory : Inode) (now : Clock)
  | write (inum : Nat) (buf : Nat → UInt8) (size : Nat) (now : Clock)
  | read (inum : Nat) (now : Clock)
  | getattr (inum : Nat) (a : Attr)
  | remove (inum : Nat)

inductive Reply where
  | inum (inum : Nat)
  | done
  | data (bytes : List UInt8) (size : UInt32)
  | attr (a : Attr)
  deriving DecidableEq, Repr

/-- The bytes of a buffer with a size. -/
def content (buf : Nat → UInt8) (size : Nat) : List UInt8 := (List.range size).map buf

/-- Run a call. The data a read gives are the first `size` bytes of its buffer. -/
def Op.run : Op → Manage Reply
  | .alloc type memory now => return .inum (← allocInode type memory now)
  | .write inum buf size now => do
    writeFile inum buf size now
    return .done
  | .read inum now => do
    let (buf, size) ← readFile inum now
    return .data (content buf size.toNat) size
  | .getattr inum a => return .attr (← InodeManager.getattr inum a)
  | .remove inum => do
    removeFile inum
    return .done

/-- The inums whose pointer to an indirect block is left over from the memory that
`malloc` returned, after a call. -/
def Op.leftover (stale : Nat → Prop) : Op → Reply → Nat → Prop
  | .alloc _ memory _, .inum i => Function.update stale i (memory.blocks (Fin.last NDIRECT) ≠ 0)
  | _, _ => stale

/-- What a call answers and does in the table of files. -/
inductive FileTable.Step : FileTable → Op → Reply → FileTable → Prop where
  | alloc (dead : F i = none) (range : 1 ≤ i ∧ i < INODE_NUM) :
      Step F (.alloc type memory now) (.inum i) (Function.update F i (some (.new type now)))
  | full (live : ∀ i, 1 ≤ i → i < INODE_NUM → F i ≠ none) :
      Step F (.alloc type memory now) (.inum 0) F
  | write (found : F i = some file) :
      Step F (.write i buf size now) .done (Function.update F i (some { file with
        bytes := content buf size, atime := now.atime, mtime := now.mtime, ctime := now.ctime }))
  | read (found : F i = some file) :
      Step F (.read i now) (.data file.bytes (.ofNat file.bytes.length))
        (Function.update F i (some { file with atime := now.atime }))
  | getattr (found : F i = some file) :
      Step F (.getattr i a) (.attr file.attr) F
  | absent (dead : F i = none) : Step F (.getattr i a) (.attr a) F
  | remove (found : F i = some file) : Step F (.remove i) .done (Function.update F i none)

/-- The inode of an inum on a disk. -/
def nodeAt (d : Disk) (i : Nat) : Inode := Inode.decode (d (IBLOCK i BLOCK_NUM))

/-- The block at `IBLOCK i BLOCK_NUM` and the blocks of `l` hold a file. -/
structure Stored (clean : Prop) (d : Disk) (i : Nat) (file : File) (l : Layout) : Prop where
  kind : file.type = T_DIR ∨ file.type = T_FILE ∨ file.type = T_SYMLINK
  type : (nodeAt d i).type = file.type.toUInt16.toInt16
  atime : (nodeAt d i).atime = file.atime
  mtime : (nodeAt d i).mtime = file.mtime
  ctime : (nodeAt d i).ctime = file.ctime
  size : (nodeAt d i).size.toNat = file.bytes.length
  count : l.data.length = blockCount file.bytes.length
  maps : Maps clean d (nodeAt d i) l
  filled : Filled d l.data (fun p => file.bytes.getD p 0) file.bytes.length

/-- What the disk holds for an inum, dead or live. -/
def Slot (clean : Prop) (d : Disk) (i : Nat) (l : Layout) : Option File → Prop
  | none => (nodeAt d i).type = 0 ∧ l = .empty
  | some file => Stored clean d i file l

theorem iblock_eq (i : Nat) : IBLOCK i BLOCK_NUM = 11 + i := by
  simp [IBLOCK, BLOCK_NUM, BPB, BLOCK_SIZE, IPB]
  omega

theorem OnDisk.ne_iblock {id : UInt32} (onDisk : OnDisk id) {i : Nat} (range : i < INODE_NUM) :
    id.toNat ≠ IBLOCK i BLOCK_NUM := by
  have bound := (onDisk_iff.mp onDisk).1
  simp only [INODE_NUM] at range
  rw [iblock_eq]
  omega

theorem Filled.congr {d d' : Disk} {data : List UInt32} {f : Nat → UInt8} {n : Nat}
    (filled : Filled d data f n) (same : ∀ id ∈ data, d' id.toNat = d id.toNat) :
    Filled d' data f n := by
  intro p small id named
  rw [same id (List.mem_of_getElem? named)]
  exact filled p small id named

/-- What an inum stands for depends on its inode and its own blocks only. -/
theorem Slot.congr {clean : Prop} {d d' : Disk} {i : Nat} {l : Layout} {f : Option File}
    (slot : Slot clean d i l f) (node : d' (IBLOCK i BLOCK_NUM) = d (IBLOCK i BLOCK_NUM))
    (same : ∀ id ∈ l.owned, d' id.toNat = d id.toNat) : Slot clean d' i l f := by
  have decoded : nodeAt d' i = nodeAt d i := by rw [nodeAt, nodeAt, node]
  cases f with
  | none => exact ⟨decoded ▸ slot.1, slot.2⟩
  | some file =>
    refine ⟨slot.kind, decoded ▸ slot.type, decoded ▸ slot.atime, decoded ▸ slot.mtime,
      decoded ▸ slot.ctime, decoded ▸ slot.size, slot.count, ?_, ?_⟩
    · rw [decoded]
      exact slot.maps.congr fun id present k _ => by rw [same id (Layout.mem_owned.mpr (.inl present))]
    · exact slot.filled.congr fun id member => same id (Layout.mem_owned.mpr (.inr member))

/-- A manager represents a table of files. A `stale` inum has an inode whose
pointer to the indirect block may be left over from earlier memory. -/
structure Represents (stale : Nat → Prop) (F : FileTable) (L : Nat → Layout) (im : InodeManager) :
    Prop where
  sound : im.bm.Sound
  nextInum : 1 ≤ im.nextInum ∧ im.nextInum ≤ INODE_NUM
  slot : ∀ i < INODE_NUM, Slot (¬ stale i) im.bm.disk i (L i) (F i)
  nodup : ∀ i, (L i).owned.Nodup
  marked : ∀ i, ∀ id ∈ (L i).owned, im.bm.usingBlocks id ≠ 0
  apart : ∀ i j, i ≠ j → ∀ id ∈ (L i).owned, id ∉ (L j).owned
  outside : ∀ i, ¬ (1 ≤ i ∧ i < INODE_NUM) → F i = none

/-- A call has been answered as in the table of files, and the manager represents
the table after it. -/
def Refines (stale : Nat → Prop) (F : FileTable) (op : Op) (r : Reply) (t : InodeManager) : Prop :=
  ∃ F' L', F.Step op r F' ∧ Represents (op.leftover stale r) F' L' t

/-- Every marked block belongs to a live file. -/
def Accounted (F : FileTable) (L : Nat → Layout) (im : InodeManager) : Prop :=
  ∀ id, im.bm.usingBlocks id ≠ 0 → ∃ i, F i ≠ none ∧ id ∈ (L i).owned

/-- The call gives back every block of the file it removes: the file has no
indirect block. -/
def Op.Releases (L : Nat → Layout) : Op → Prop
  | .remove i => (L i).indirect = none
  | _ => True

/-- `Refines`, with what becomes of the marked blocks and of the file that a call
removes. -/
def Conserves (stale : Nat → Prop) (F : FileTable) (L : Nat → Layout) (im : InodeManager) (op : Op)
    (r : Reply) (t : InodeManager) : Prop :=
  ∃ F' L', F.Step op r F' ∧ Represents (op.leftover stale r) F' L' t ∧
    (Accounted F L im → (Accounted F' L' t ↔ op.Releases L)) ∧
    ∀ i, op = .remove i → L' = Function.update L i .empty

theorem Conserves.refines {stale : Nat → Prop} {F : FileTable} {L : Nat → Layout}
    {im t : InodeManager} {op : Op} {r : Reply} (conserves : Conserves stale F L im op r t) :
    Refines stale F op r t := by
  obtain ⟨F', L', step, rep, -⟩ := conserves
  exact ⟨F', L', step, rep⟩

end Yfs.Store
