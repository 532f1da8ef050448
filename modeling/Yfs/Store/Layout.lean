import Mathlib.Data.UInt
import Yfs.Store.Manager

/-! How a file lies on the disk: its inode, the data blocks the inode names
directly or through the indirect block, and the bytes in them. -/

namespace Yfs.Store

open Yfs.Lib

theorem word_congr {b b' : Block} {w : Nat} (same : ∀ k < BLOCK_SIZE, b k = b' k) (inside : w < NINDIRECT) :
    word b w = word b' w := by
  simp only [NINDIRECT, BLOCK_SIZE] at inside same
  rw [word, word, load_congr 4 (4 * w) fun k low high => same k (by omega)]

theorem word_setWord {b : Block} {w : Nat} {v : UInt32} : word (setWord b w v) w = v := by
  rw [word, setWord, load_store, Nat.mod_eq_of_lt (by simpa using v.toNat_lt), UInt32.ofNat_toNat]

theorem word_setWord_other {b : Block} {w w' : Nat} {v : UInt32} (different : w' ≠ w) :
    word (setWord b w v) w' = word b w' := by
  rw [word, setWord, load_store_apart (by omega), ← word]

theorem decode_congr {b b' : Block} (same : ∀ k < BLOCK_SIZE, b k = b' k) :
    Inode.decode b = Inode.decode b' := by
  have words (w) (inside : w < NINDIRECT) : word b w = word b' w := word_congr same inside
  have half : load b 0 2 = load b' 0 2 := load_congr 2 0 fun k _ high => same k (by
    simp only [BLOCK_SIZE]
    omega)
  simp only [Inode.decode, half, Inode.mk.injEq, true_and]
  refine ⟨words 1 ?_, words 2 ?_, words 3 ?_, words 4 ?_, funext fun k => words (5 + k) ?_⟩
  all_goals simp only [NINDIRECT, BLOCK_SIZE, NDIRECT] at *; omega

/-- What is stored for an inode is read back. -/
theorem decode_encode (node : Inode) (b : Block) : Inode.decode (node.encode b) = node := by
  rcases node with ⟨type, size, atime, mtime, ctime, blocks⟩
  simp only [Inode.encode, Inode.decode, Inode.mk.injEq, word]
  refine ⟨?_, ?_, ?_, ?_, ?_, funext fun k => ?_⟩
  · rw [load_storeArray_apart (by omega)]
    simp only [setWord]
    rw [load_store_apart (by omega), load_store_apart (by omega), load_store_apart (by omega),
      load_store_apart (by omega), load_store, Nat.mod_eq_of_lt (by simpa using type.toUInt16.toNat_lt)]
    simp
  · rw [load_storeArray_apart (by omega)]
    simp only [setWord]
    rw [load_store_apart (by omega), load_store_apart (by omega), load_store_apart (by omega),
      load_store, Nat.mod_eq_of_lt (by simpa using size.toNat_lt), UInt32.ofNat_toNat]
  · rw [load_storeArray_apart (by omega)]
    simp only [setWord]
    rw [load_store_apart (by omega), load_store_apart (by omega),
      load_store, Nat.mod_eq_of_lt (by simpa using atime.toNat_lt), UInt32.ofNat_toNat]
  · rw [load_storeArray_apart (by omega)]
    simp only [setWord]
    rw [load_store_apart (by omega), load_store,
      Nat.mod_eq_of_lt (by simpa using mtime.toNat_lt), UInt32.ofNat_toNat]
  · rw [load_storeArray_apart (by omega)]
    simp only [setWord]
    rw [load_store, Nat.mod_eq_of_lt (by simpa using ctime.toNat_lt), UInt32.ofNat_toNat]
  · rw [show 4 * (5 + k.val) = 20 + 4 * k.val by omega, load_storeArray 4 _ k.isLt, dif_pos k.isLt,
      Nat.mod_eq_of_lt (by simpa using (blocks k).toNat_lt), UInt32.ofNat_toNat]

theorem Inode.setBlock_self {node : Inode} {k : Fin (NDIRECT + 1)} {id : UInt32} :
    (node.setBlock k id).blocks k = id := by simp [setBlock]

theorem Inode.setBlock_other {node : Inode} {j k : Fin (NDIRECT + 1)} {id : UInt32} (different : j ≠ k) :
    (node.setBlock k id).blocks j = node.blocks j := by simp [setBlock, different]

/-- The blocks of a file: its data blocks in order, and its indirect block. -/
structure Layout where
  data : List UInt32
  indirect : Option UInt32

def Layout.empty : Layout := { data := [], indirect := none }

/-- All blocks that belong to the file. -/
def Layout.owned (l : Layout) : List UInt32 := l.indirect.toList ++ l.data

@[simp] theorem Layout.owned_empty : Layout.empty.owned = [] := rfl

theorem Layout.mem_owned {l : Layout} {id : UInt32} :
    id ∈ l.owned ↔ l.indirect = some id ∨ id ∈ l.data := by
  simp [owned]

theorem Layout.nodup_append {l : Layout} {id : UInt32} (nodup : l.owned.Nodup) (fresh : id ∉ l.owned) :
    ({ l with data := l.data ++ [id] } : Layout).owned.Nodup := by
  have same : ({ l with data := l.data ++ [id] } : Layout).owned = l.owned ++ [id] := by
    simp [Layout.owned]
  rw [same]
  exact nodup.append (List.nodup_singleton id) (by simpa using fresh)

theorem Layout.mem_append {l : Layout} {id x : UInt32} :
    x ∈ ({ l with data := l.data ++ [id] } : Layout).owned ↔ x ∈ l.owned ∨ x = id := by
  simp [Layout.mem_owned, or_assoc]

/-- The data block with an index, as `get_block_id` finds it on a disk. -/
def blockIdOf (d : Disk) (node : Inode) (index : Nat) : UInt32 :=
  if direct : index < NDIRECT then node.blocks ⟨index, Nat.lt_succ_of_lt direct⟩
  else word (d (node.blocks (Fin.last NDIRECT)).toNat) (index - NDIRECT)

/-- An inode names the blocks of a layout. `clean` says that an inode without an
indirect block has a zero pointer to it. -/
structure Maps (clean : Prop) (d : Disk) (node : Inode) (l : Layout) : Prop where
  fits : l.data.length ≤ MAXFILE
  ids : ∀ k (inside : k < l.data.length), blockIdOf d node k = l.data[k]
  pointer : ∀ id, l.indirect = some id → node.blocks (Fin.last NDIRECT) = id
  needed : NDIRECT < l.data.length → l.indirect ≠ none
  unset : clean → l.indirect = none → node.blocks (Fin.last NDIRECT) = 0

/-- Only the indirect block of the disk matters for the names. -/
theorem Maps.congr {clean : Prop} {d d' : Disk} {node : Inode} {l : Layout} (maps : Maps clean d node l)
    (same : ∀ id, l.indirect = some id → ∀ k < BLOCK_SIZE, d' id.toNat k = d id.toNat k) :
    Maps clean d' node l := by
  refine { maps with ids := fun k inside => ?_ }
  rw [← maps.ids k inside, blockIdOf, blockIdOf]
  split
  · rfl
  · rename_i indirect
    obtain ⟨id, present⟩ := Option.ne_none_iff_exists'.mp (maps.needed (by omega))
    have fits := maps.fits
    rw [maps.pointer id present]
    exact word_congr (same id present) (by simp only [MAXFILE] at fits; omega)

/-- Cutting data blocks off the end. -/
theorem Maps.take {clean : Prop} {d : Disk} {node : Inode} {l : Layout} (maps : Maps clean d node l)
    (n : Nat) : Maps clean d node { l with data := l.data.take n } := by
  have bound := List.length_take_le' n l.data
  refine ⟨le_trans bound maps.fits, fun k inside => ?_, maps.pointer,
    fun long => maps.needed (lt_of_lt_of_le long bound), maps.unset⟩
  rw [maps.ids k (lt_of_lt_of_le inside bound), List.getElem_take]

/-- Fields of the inode other than `blocks` do not matter for the names. -/
theorem Maps.of_blocks {clean : Prop} {d : Disk} {node node' : Inode} {l : Layout}
    (maps : Maps clean d node l) (same : node'.blocks = node.blocks) : Maps clean d node' l := by
  refine ⟨maps.fits, fun k inside => ?_, ?_, maps.needed, ?_⟩
  · rw [← maps.ids k inside, blockIdOf, blockIdOf, same]
  · rw [same]
    exact maps.pointer
  · rw [same]
    exact maps.unset

/-- The data blocks hold the first `n` bytes of `f`. -/
def Filled (d : Disk) (data : List UInt32) (f : Nat → UInt8) (n : Nat) : Prop :=
  ∀ p < n, ∀ id, data[p / BLOCK_SIZE]? = some id → d id.toNat (p % BLOCK_SIZE) = f p

end Yfs.Store
