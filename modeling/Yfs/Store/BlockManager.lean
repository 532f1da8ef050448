import Mathlib.Logic.Function.Basic
import Yfs.Lib.Bytes

/-! The disk and the block allocator of `inode_manager.cc`. -/

namespace Yfs.Store

open Yfs.Lib

def BLOCK_SIZE : Nat := 512
def BLOCK_NUM : Nat := 1024 * 1024 * 16 / 512
def INODE_NUM : Nat := 1024
/-- Inodes per block. -/
def IPB : Nat := 1
/-- Bitmap bits per block. -/
def BPB : Nat := BLOCK_SIZE * 8
/-- Block containing inode `i`. -/
def IBLOCK (i nblocks : Nat) : Nat := nblocks / BPB + i / IPB + 3

/-- The bytes of a block or of a block buffer, the first `BLOCK_SIZE` of which count. -/
abbrev Block := Nat → UInt8

/-- `disk::blocks`. -/
abbrev Disk := Nat → Block

/-- `disk::disk`. -/
def Disk.fresh : Disk := fun _ _ => 0

/-- `disk::read_block` into a buffer; a block that is not on the disk leaves the
buffer as it was. -/
def Disk.readBlock (d : Disk) (id : UInt32) (buf : Block) : Block :=
  if BLOCK_NUM ≤ id.toNat then buf else copy buf 0 (d id.toNat) BLOCK_SIZE

/-- `disk::write_block`: a block that is not on the disk is ignored. -/
def Disk.writeBlock (d : Disk) (id : UInt32) (buf : Block) (size : Nat) : Disk :=
  if BLOCK_NUM ≤ id.toNat then d
  else Function.update d id.toNat (copy (copy (d id.toNat) 0 (fun _ => 0) size) 0 buf size)

/-- `block_manager`. `usingBlocks` has the value 0 where the map has no entry. -/
structure BlockManager where
  disk : Disk
  usingBlocks : UInt32 → Int
  nextBlock : UInt32
  nblocks : UInt32

namespace BlockManager

/-- `block_manager::block_manager`, where the memory of `sb.nblocks` holds
`nblocks` before construction. -/
def create (nblocks : UInt32) : BlockManager :=
  { disk := .fresh, usingBlocks := fun _ => 0,
    nextBlock := .ofNat (IBLOCK INODE_NUM nblocks.toNat + 1), nblocks := .ofNat BLOCK_NUM }

/-- The first block that `alloc_block` may return. -/
def start (bm : BlockManager) : Nat := IBLOCK INODE_NUM bm.nblocks.toNat + 1

/-- The block at an offset from the start, in `uint32_t` arithmetic. -/
def blockAt (bm : BlockManager) (off : Nat) : UInt32 := .ofNat (bm.start + off)

/-- The first of the `count` offsets from `off` on whose block is not in use. -/
def scan (bm : BlockManager) (off : Nat) : Nat → Option Nat
  | 0 => none
  | count + 1 =>
    if bm.usingBlocks (bm.blockAt off) = 0 then some off else bm.scan (off + 1) count

/-- Mark the block at an offset and move the cursor behind it. -/
def take (bm : BlockManager) (off : Nat) : UInt32 × BlockManager :=
  (bm.blockAt off,
    { bm with usingBlocks := Function.update bm.usingBlocks (bm.blockAt off) 1,
              nextBlock := .ofNat (off + 1) })

/-- `block_manager::alloc_block`; `none` is its `exit(0)`. -/
def allocBlock (bm : BlockManager) : Option (UInt32 × BlockManager) :=
  match bm.scan bm.nextBlock.toNat (BLOCK_NUM - bm.nextBlock.toNat) with
  | some off => some (bm.take off)
  | none => (bm.scan 0 bm.nextBlock.toNat).map bm.take

/-- `block_manager::free_block`. -/
def freeBlock (bm : BlockManager) (id : UInt32) : BlockManager :=
  { bm with usingBlocks := Function.update bm.usingBlocks id 0 }

variable {bm : BlockManager}

theorem scan_some {off count found : Nat} (scanned : bm.scan off count = some found) :
    off ≤ found ∧ found < off + count ∧ bm.usingBlocks (bm.blockAt found) = 0 ∧
      ∀ k, off ≤ k → k < found → bm.usingBlocks (bm.blockAt k) ≠ 0 := by
  induction count generalizing off with
  | zero => cases scanned
  | succ count ih =>
    rw [scan] at scanned
    split at scanned
    · rename_i free
      cases scanned
      exact ⟨le_refl _, by omega, free, fun k low high => by omega⟩
    · rename_i used
      obtain ⟨low, high, free, before⟩ := ih scanned
      refine ⟨by omega, by omega, free, fun k from_ upto => ?_⟩
      by_cases same : k = off
      · rw [same]
        exact used
      · exact before k (by omega) upto

theorem scan_none {off count : Nat} (scanned : bm.scan off count = none) :
    ∀ k, off ≤ k → k < off + count → bm.usingBlocks (bm.blockAt k) ≠ 0 := by
  induction count generalizing off with
  | zero => intros; omega
  | succ count ih =>
    rw [scan] at scanned
    split at scanned
    · cases scanned
    · rename_i used
      intro k low high
      by_cases same : k = off
      · rw [same]
        exact used
      · exact ih scanned k (by omega) (by omega)

/-- What `alloc_block` does: the offset it takes is the first free one from the
cursor to the end of the scan, or, if there is none, the first free one below
the cursor. -/
theorem allocBlock_cases (bm : BlockManager) :
    (∃ off, bm.allocBlock = some (bm.take off) ∧ bm.nextBlock.toNat ≤ off ∧ off < BLOCK_NUM ∧
        bm.usingBlocks (bm.blockAt off) = 0 ∧
        ∀ k, bm.nextBlock.toNat ≤ k → k < off → bm.usingBlocks (bm.blockAt k) ≠ 0) ∨
    (∀ k, bm.nextBlock.toNat ≤ k → k < BLOCK_NUM → bm.usingBlocks (bm.blockAt k) ≠ 0) ∧
      ((∃ off, bm.allocBlock = some (bm.take off) ∧ off < bm.nextBlock.toNat ∧
          bm.usingBlocks (bm.blockAt off) = 0 ∧ ∀ k < off, bm.usingBlocks (bm.blockAt k) ≠ 0) ∨
        bm.allocBlock = none ∧ ∀ k < bm.nextBlock.toNat, bm.usingBlocks (bm.blockAt k) ≠ 0) := by
  unfold allocBlock
  cases upper : bm.scan bm.nextBlock.toNat (BLOCK_NUM - bm.nextBlock.toNat) with
  | some off =>
    obtain ⟨low, high, free, before⟩ := scan_some upper
    exact .inl ⟨off, rfl, low, by omega, free, before⟩
  | none =>
    refine .inr ⟨fun k low high => scan_none upper k low (by omega), ?_⟩
    cases lower : bm.scan 0 bm.nextBlock.toNat with
    | some off =>
      obtain ⟨-, high, free, before⟩ := scan_some lower
      exact .inl ⟨off, rfl, by omega, free, fun k small => before k (Nat.zero_le _) small⟩
    | none => exact .inr ⟨rfl, fun k small => scan_none lower k (Nat.zero_le _) (by omega)⟩

end BlockManager

end Yfs.Store
