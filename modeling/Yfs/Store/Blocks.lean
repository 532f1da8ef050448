import Yfs.Store.Allocation
import Yfs.Store.Layout

/-! What the inode layer does to the blocks of one file: `write_file` grows or
shrinks the file, fills its blocks and stores its inode, and touches no block
that belongs to another file. -/

namespace Yfs.Store

open Yfs.Lib BlockManager

/-- The computation returns, and `Q` relates its result and final state, if every
block it allocates lies below `BLOCK_NUM`. -/
abbrev Does (m : Manage α) (im : InodeManager) (Q : α → InodeManager → Prop) : Prop :=
  m.Meets (fun id => id.toNat < BLOCK_NUM) im Q

/-- An allocator that has marked data blocks of the disk only. -/
structure BlockManager.Sound (bm : BlockManager) : Prop where
  nblocks : bm.nblocks = .ofNat BLOCK_NUM
  cursor : bm.nextBlock.toNat < 2 ^ 21
  range : ∀ id, bm.usingBlocks id ≠ 0 → OnDisk id

theorem BlockManager.Sound.create (nblocks : UInt32) : (create nblocks).Sound := by
  have marks := create_marks nblocks
  exact ⟨marks.nblocks, marks.cursor, fun id used => absurd ((marks.used id).mp used) (by simp)⟩

theorem BlockManager.Sound.start {bm : BlockManager} (sound : bm.Sound) : bm.start = 1036 := by
  rw [BlockManager.start, sound.nblocks]
  rfl

theorem BlockManager.Sound.freeBlock {bm : BlockManager} (sound : bm.Sound) (id : UInt32) :
    (bm.freeBlock id).Sound := by
  refine ⟨sound.nblocks, sound.cursor, fun other used => sound.range other fun free => used ?_⟩
  simp only [BlockManager.freeBlock, Function.update_apply]
  split <;> simp [free]

namespace InodeManager

variable {im : InodeManager}

/-- A block below `BLOCK_NUM` that was free, is a data block and is now marked. -/
theorem allocBlock_does (sound : im.bm.Sound) :
    Does allocBlock im fun id t => im.bm.usingBlocks id = 0 ∧ OnDisk id ∧ t.bm.Sound ∧
      t.nextInum = im.nextInum ∧ t.bm.disk = im.bm.disk ∧
      t.bm.usingBlocks = Function.update im.bm.usingBlocks id 1 := by
  have start := sound.start
  have cursor := sound.cursor
  have taken (off) (small : off + 1 < 2 ^ 21) (free : im.bm.usingBlocks (im.bm.blockAt off) = 0)
      (returned : im.bm.allocBlock = some (im.bm.take off)) :
      Does allocBlock im fun id t => im.bm.usingBlocks id = 0 ∧ OnDisk id ∧ t.bm.Sound ∧
        t.nextInum = im.nextInum ∧ t.bm.disk = im.bm.disk ∧
        t.bm.usingBlocks = Function.update im.bm.usingBlocks id 1 := by
    intro emitted
    simp only [allocBlock, returned, BlockManager.take] at emitted ⊢
    have below := emitted _ (List.mem_singleton_self _)
    have place : (im.bm.blockAt off).toNat = 1036 + off := toNat_blockAt start (by omega)
    have onDisk : OnDisk (im.bm.blockAt off) := by
      rw [onDisk_iff]
      exact ⟨by omega, below⟩
    refine ⟨_, _, rfl, free, onDisk, ⟨sound.nblocks, ?_, fun id used => ?_⟩, rfl, rfl, rfl⟩
    · rw [UInt32.toNat_ofNat_of_lt' (by simp [UInt32.size]; omega)]
      exact small
    · by_cases same : id = im.bm.blockAt off
      · rw [same]
        exact onDisk
      · exact sound.range id (by simpa [same] using used)
  rcases im.bm.allocBlock_cases with ⟨off, returned, -, high, free, -⟩ |
    ⟨upper, ⟨off, returned, high, free, -⟩ | ⟨-, lower⟩⟩
  · simp only [BLOCK_NUM] at high
    exact taken off (by omega) free returned
  · exact taken off (by omega) free returned
  · -- The scan covers offsets behind the end of the disk, which are never marked.
    have unmarked : im.bm.usingBlocks (im.bm.blockAt 32767) = 0 := by
      by_contra used
      have last := sound.range _ used
      rw [onDisk_iff, toNat_blockAt start (by omega)] at last
      omega
    rcases Nat.lt_or_ge 32767 im.bm.nextBlock.toNat with below | above
    · exact absurd unmarked (lower _ below)
    · exact absurd unmarked (upper _ above (by simp [BLOCK_NUM]))

@[simp] theorem setDisk_disk {d : Disk} : (im.setDisk d).bm.disk = d := rfl

@[simp] theorem setDisk_usingBlocks {d : Disk} :
    (im.setDisk d).bm.usingBlocks = im.bm.usingBlocks := rfl

@[simp] theorem setDisk_nextInum {d : Disk} : (im.setDisk d).nextInum = im.nextInum := rfl

theorem setDisk_sound {d : Disk} (sound : im.bm.Sound) : (im.setDisk d).bm.Sound :=
  ⟨sound.nblocks, sound.cursor, sound.range⟩

theorem readBlock_does {id : UInt32} {Q : Block → InodeManager → Prop} (inside : id.toNat < BLOCK_NUM)
    (holds : ∀ buf : Block, (∀ k < BLOCK_SIZE, buf k = im.bm.disk id.toNat k) → Q buf im) :
    Does (readBlock id) im Q := by
  intro _
  simp only [readBlock, Nat.not_le.mpr inside, if_false]
  refine ⟨_, _, rfl, holds _ fun k small => ?_⟩
  rw [Disk.readBlock, if_neg (by omega), copy, if_pos (by omega), Nat.sub_zero]

/-- The disk after `write_block`, byte by byte. -/
theorem writeBlock_does {id : UInt32} {buf : Block} {size : Nat} {Q : Unit → InodeManager → Prop}
    (inside : id.toNat < BLOCK_NUM)
    (holds : ∀ d : Disk, (∀ b k, d b k = if b = id.toNat ∧ k < size then buf k else im.bm.disk b k) →
      Q () (im.setDisk d)) :
    Does (writeBlock id buf size) im Q := by
  refine .modify (holds _ fun b k => ?_)
  rw [Disk.writeBlock, if_neg (by omega)]
  by_cases same : b = id.toNat
  · subst same
    simp only [Function.update_self, copy, Nat.zero_add, Nat.zero_le, true_and, Nat.sub_zero]
    split <;> rfl
  · simp [same]

/-- What an operation on one file may rely on and must keep: the blocks of other
files, whether the file's inode came without a leftover pointer, the disk as it
was, and the inode cursor. -/
structure Context where
  others : UInt32 → Prop
  clean : Prop
  disk : Disk
  nextInum : Nat

/-- Treat a block as one of the others for a while. -/
def Context.keep (ctx : Context) (id : UInt32) : Context :=
  { ctx with others := fun x => ctx.others x ∨ x = id }

/-- The file that an operation works on: its inode in memory and its blocks. The
disk differs from the context's only in these blocks. -/
structure Working (ctx : Context) (node : Inode) (l : Layout) (im : InodeManager) : Prop where
  sound : im.bm.Sound
  maps : Maps ctx.clean im.bm.disk node l
  nodup : l.owned.Nodup
  marked : ∀ id ∈ l.owned, im.bm.usingBlocks id ≠ 0
  others : ∀ id, ctx.others id → im.bm.usingBlocks id ≠ 0 ∧ id ∉ l.owned
  frame : ∀ b, (∀ id ∈ l.owned, id.toNat ≠ b) → im.bm.disk b = ctx.disk b
  nextInum : im.nextInum = ctx.nextInum

/-- Every marked block belongs to the file or to another one. -/
def Tight (ctx : Context) (l : Layout) (im : InodeManager) : Prop :=
  ∀ x, im.bm.usingBlocks x ≠ 0 → ctx.others x ∨ x ∈ l.owned

section Working

variable {ctx : Context} {node : Inode} {l : Layout} {id : UInt32}

theorem Working.onDisk (work : Working ctx node l im) (owned : id ∈ l.owned) : OnDisk id :=
  work.sound.range id (work.marked id owned)

theorem Working.indirect_onDisk (work : Working ctx node l im) (present : l.indirect = some id) :
    OnDisk id := work.onDisk (Layout.mem_owned.mpr (.inl present))

theorem getBlockId_eq {k : Nat} (maps : Maps clean im.bm.disk node l)
    (onDisk : ∀ id, l.indirect = some id → OnDisk id) (found : l.data[k]? = some id) :
    getBlockId node k im = ([], .ok (id, im)) := by
  obtain ⟨inside, same⟩ := List.getElem?_eq_some_iff.mp found
  have fits := maps.fits
  have named := maps.ids k inside
  rw [same, blockIdOf] at named
  unfold getBlockId
  split
  · rename_i direct
    rw [dif_pos direct] at named
    rw [named]
    rfl
  · rename_i indirect
    rw [dif_neg indirect] at named
    obtain ⟨block, present⟩ := Option.ne_none_iff_exists'.mp (maps.needed (by omega))
    have inside := (onDisk block present).2
    simp only [MAXFILE] at fits
    have read : word (im.bm.disk.readBlock block fun _ => 0) (k - NDIRECT) = id := by
      rw [← named, maps.pointer block present]
      refine word_congr (fun j small => ?_) (by omega)
      rw [Disk.readBlock, if_neg (by omega), copy, if_pos (by omega), Nat.sub_zero]
    simp only [bind, Act.bind, readBlock, maps.pointer block present, Nat.not_le.mpr inside, if_false,
      show ¬ NINDIRECT ≤ k - NDIRECT by omega, List.nil_append, read]
    rfl

theorem getBlockId_does {k : Nat} (maps : Maps clean im.bm.disk node l)
    (onDisk : ∀ id, l.indirect = some id → OnDisk id) (found : l.data[k]? = some id)
    {Q : UInt32 → InodeManager → Prop} (holds : Q id im) : Does (getBlockId node k) im Q :=
  fun _ => ⟨id, im, by rw [getBlockId_eq maps onDisk found], holds⟩

/-- A freshly allocated block belongs to nobody. -/
theorem Working.alloc (work : Working ctx node l im) :
    Does allocBlock im fun id t => ¬ ctx.others id ∧ Working (ctx.keep id) node l t ∧
      (Tight ctx l im → Tight (ctx.keep id) l t) := by
  refine (allocBlock_does work.sound).mono ?_
  rintro id t ⟨free, -, sound, nextInum, disk, marks⟩
  have used (x) (before : im.bm.usingBlocks x ≠ 0) : t.bm.usingBlocks x ≠ 0 := by
    rw [marks, Function.update_apply]
    split <;> simp [before]
  refine ⟨fun other => (work.others id other).1 free, ⟨sound, ?_, work.nodup, ?_, ?_, ?_, ?_⟩, ?_⟩
  · rw [disk]
    exact work.maps
  · exact fun x owned => used x (work.marked x owned)
  · rintro x (other | rfl)
    · exact ⟨used x (work.others x other).1, (work.others x other).2⟩
    · exact ⟨by simp [marks], fun owned => work.marked x owned free⟩
  · rw [disk]
    exact work.frame
  · exact nextInum.trans work.nextInum
  · intro tight x marked
    by_cases same : x = id
    · exact .inl (.inr same)
    · have before : im.bm.usingBlocks x ≠ 0 := by simpa [marks, same] using marked
      exact (tight x before).imp_left .inl

/-- A kept block becomes the file's next data block once the names agree. -/
theorem Working.append (work : Working (ctx.keep id) node l im) (fresh : ¬ ctx.others id)
    {node' : Inode} {t : InodeManager} (nextInum : t.nextInum = im.nextInum) (sound : t.bm.Sound)
    (marks : t.bm.usingBlocks = im.bm.usingBlocks)
    (maps : Maps ctx.clean t.bm.disk node' { l with data := l.data ++ [id] })
    (frame : ∀ b, (∀ x ∈ l.owned, x.toNat ≠ b) → t.bm.disk b = im.bm.disk b) :
    Working ctx node' { l with data := l.data ++ [id] } t := by
  have kept := work.others id (.inr rfl)
  refine ⟨sound, maps, Layout.nodup_append work.nodup kept.2, ?_, ?_, ?_, ?_⟩
  · intro x member
    rw [marks]
    rcases Layout.mem_append.mp member with owned | rfl
    · exact work.marked x owned
    · exact kept.1
  · intro x other
    have before := work.others x (.inl other)
    refine ⟨marks ▸ before.1, fun member => ?_⟩
    rcases Layout.mem_append.mp member with owned | rfl
    · exact before.2 owned
    · exact fresh other
  · intro b apart
    have outside (x) (owned : x ∈ l.owned) := apart x (Layout.mem_append.mpr (.inl owned))
    exact (frame b outside).trans (work.frame b outside)
  · exact nextInum.trans work.nextInum

theorem Tight.append {t : InodeManager} (tight : Tight (ctx.keep id) l im)
    (marks : t.bm.usingBlocks = im.bm.usingBlocks) : Tight ctx { l with data := l.data ++ [id] } t := by
  intro x marked
  rw [marks] at marked
  rcases tight x marked with (other | rfl) | owned
  · exact .inl other
  · exact .inr (Layout.mem_append.mpr (.inr rfl))
  · exact .inr (Layout.mem_append.mpr (.inl owned))

/-- The indirect block exists after the first part of `set_block_id`. -/
theorem Working.ensure (work : Working ctx node l im) (clean : ctx.clean) :
    Does (ensureIndirect node) im fun node' t =>
      ({ node' with blocks := node.blocks } : Inode) = node ∧
        ∃ block, Working ctx node' { l with indirect := some block } t ∧
          (Tight ctx l im → Tight ctx { l with indirect := some block } t) := by
  unfold ensureIndirect
  cases present : l.indirect with
  | some block =>
    have pointer := work.maps.pointer block present
    rw [if_neg (by rw [pointer]; exact (work.indirect_onDisk present).ne_zero)]
    refine .pure ⟨rfl, block, ?_⟩
    rw [← present]
    exact ⟨work, id⟩
  | none =>
    rw [if_pos (work.maps.unset clean present)]
    refine work.alloc.bind ?_
    rintro block t ⟨fresh, work, tight⟩
    have kept := work.others block (.inr rfl)
    have owned (x) : x ∈ ({ l with indirect := some block } : Layout).owned ↔ x = block ∨ x ∈ l.owned := by
      simp [Layout.mem_owned, present, eq_comm]
    have direct : l.data.length ≤ NDIRECT := by
      by_contra long
      exact work.maps.needed (by omega) present
    refine .pure ⟨rfl, block, ?_, fun before x marked => ?_⟩
    · refine ⟨work.sound, ⟨work.maps.fits, ?_, ?_, ?_, ?_⟩, ?_, ?_, ?_, ?_, work.nextInum⟩
      · intro k inside
        have small : k < NDIRECT := lt_of_lt_of_le inside direct
        rw [← work.maps.ids k inside, blockIdOf, blockIdOf, dif_pos small, dif_pos small,
          Inode.setBlock_other]
        exact Fin.ne_of_lt small
      · intro x same
        cases same
        exact Inode.setBlock_self
      · exact fun _ => by simp
      · exact fun _ absent => by simp at absent
      · have before := work.nodup
        simp only [Layout.owned, present, Option.toList_none, List.nil_append] at before
        simp only [Layout.owned, Option.toList_some, List.singleton_append, List.nodup_cons]
        exact ⟨fun member => kept.2 (Layout.mem_owned.mpr (.inr member)), before⟩
      · intro x member
        rcases (owned x).mp member with rfl | member
        · exact kept.1
        · exact work.marked x member
      · intro x other
        have before := work.others x (.inl other)
        refine ⟨before.1, fun member => ?_⟩
        rcases (owned x).mp member with rfl | member
        · exact fresh other
        · exact before.2 member
      · intro b apart
        exact work.frame b fun x member => apart x ((owned x).mpr (.inr member))
    · rcases tight before x marked with (other | rfl) | member
      · exact .inl other
      · exact .inr ((owned x).mpr (.inl rfl))
      · exact .inr ((owned x).mpr (.inr member))

/-- `set_block_id` with the next index gives the file one more data block. -/
theorem Working.setBlockId (work : Working (ctx.keep id) node l im) (fresh : ¬ ctx.others id)
    (room : l.data.length < MAXFILE) (clean : ctx.clean ∨ l.data.length < NDIRECT) :
    Does (setBlockId node l.data.length id) im fun node' t =>
      ({ node' with blocks := node.blocks } : Inode) = node ∧
        ∃ l', Working ctx node' l' t ∧ l'.data = l.data ++ [id] ∧
          (Tight (ctx.keep id) l im → Tight ctx l' t) := by
  unfold InodeManager.setBlockId
  split
  · rename_i direct
    refine .pure ⟨rfl, _, work.append fresh rfl work.sound rfl ?_ fun _ _ => rfl, rfl,
      fun tight => tight.append rfl⟩
    have last : (Fin.last NDIRECT) ≠ ⟨l.data.length, Nat.lt_succ_of_lt direct⟩ :=
      (Fin.ne_of_lt direct).symm
    refine ⟨by simpa using Nat.succ_le_of_lt room, ?_, ?_, ?_, ?_⟩
    · intro k inside
      simp only [List.length_append, List.length_singleton] at inside
      rcases Nat.lt_or_ge k l.data.length with before | after
      · rw [List.getElem_append_left before, ← work.maps.ids k before, blockIdOf, blockIdOf,
          dif_pos (lt_trans before direct), dif_pos (lt_trans before direct), Inode.setBlock_other]
        exact Fin.ne_of_lt before
      · obtain rfl : k = l.data.length := by omega
        rw [blockIdOf, dif_pos direct, Inode.setBlock_self]
        simp
    · intro x present
      rw [Inode.setBlock_other last]
      exact work.maps.pointer x present
    · intro long
      simp only [List.length_append, List.length_singleton] at long
      omega
    · intro clean absent
      rw [Inode.setBlock_other last]
      exact work.maps.unset clean absent
  · rename_i indirect
    refine (work.ensure (clean.resolve_right indirect)).bind ?_
    clear work
    rintro node' t ⟨fields, block, work, tight⟩
    have pointer := work.maps.pointer block rfl
    have onDisk := work.indirect_onDisk rfl
    rw [pointer]
    refine .seq (readBlock_does onDisk.2 fun buf read => ?_)
    simp only [MAXFILE] at room
    rw [if_neg (by omega)]
    refine .seq (writeBlock_does onDisk.2 fun d written => .pure
      ⟨fields, { data := l.data ++ [id], indirect := some block }, ?_, rfl,
        fun before => (tight before).append rfl⟩)
    · refine work.append fresh rfl (setDisk_sound work.sound) rfl ?_ ?_
      · have changed : ∀ k < BLOCK_SIZE, d block.toNat k = setWord buf (l.data.length - NDIRECT) id k :=
          fun k small => by rw [written, if_pos ⟨rfl, small⟩]
        refine ⟨by simpa [MAXFILE] using Nat.succ_le_of_lt room, ?_, work.maps.pointer, fun _ => by simp,
          fun _ absent => by simp at absent⟩
        intro k inside
        simp only [List.length_append, List.length_singleton] at inside
        rcases Nat.lt_or_ge k l.data.length with before | after
        · rw [List.getElem_append_left before, ← work.maps.ids k before, blockIdOf, blockIdOf]
          split
          · rfl
          · rw [pointer, setDisk_disk, word_congr changed (by omega), word_setWord_other (by omega)]
            exact word_congr read (by omega)
        · obtain rfl : k = l.data.length := by omega
          rw [blockIdOf, dif_neg indirect, pointer, setDisk_disk, word_congr changed (by omega),
            word_setWord]
          simp
      · intro b apart
        funext k
        rw [setDisk_disk, written,
          if_neg fun both => apart block (Layout.mem_owned.mpr (.inl rfl)) both.1.symm]

/-- The growing loop of `write_file`. -/
theorem Working.grow (work : Working ctx node l im) (n : Nat) (room : l.data.length + n ≤ MAXFILE)
    (clean : ctx.clean ∨ l.data.length + n ≤ NDIRECT) :
    Does (Act.loop n (fun index node => do
      let id ← allocBlock
      InodeManager.setBlockId node (l.data.length + index) id) node) im fun node' t =>
        ({ node' with blocks := node.blocks } : Inode) = node ∧
          ∃ l', Working ctx node' l' t ∧ l'.data.length = l.data.length + n ∧
            (Tight ctx l im → Tight ctx l' t) := by
  refine Act.Meets.loop (fun k node' t => ({ node' with blocks := node.blocks } : Inode) = node ∧
    ∃ l', Working ctx node' l' t ∧ l'.data.length = l.data.length + k ∧
      (Tight ctx l im → Tight ctx l' t)) ⟨rfl, l, work, rfl, id⟩ n ?_
  rintro k small node' t ⟨fields, l', work', count, tight⟩
  refine work'.alloc.bind ?_
  rintro id s ⟨fresh, kept, marked⟩
  rw [← count]
  have clean' : ctx.clean ∨ l'.data.length < NDIRECT := clean.imp_right fun bound => by omega
  refine (kept.setBlockId fresh (by omega) clean').mono ?_
  rintro node'' s' ⟨fields', l'', work'', data, named⟩
  refine ⟨?_, l'', work'', by rw [data]; simp; omega, fun before => named (marked (tight before))⟩
  rw [← fields, ← fields']

/-- A block of nobody can be freed. -/
theorem Working.free (work : Working ctx node l im) (apart : id ∉ l.owned) (other : ¬ ctx.others id) :
    Working ctx node l { im with bm := im.bm.freeBlock id } := by
  have used (x) (different : x ≠ id) :
      (im.bm.freeBlock id).usingBlocks x = im.bm.usingBlocks x := by
    simp [BlockManager.freeBlock, different]
  refine ⟨work.sound.freeBlock id, work.maps, work.nodup, ?_, ?_, work.frame, work.nextInum⟩
  · intro x owned
    rw [used x fun same => apart (same ▸ owned)]
    exact work.marked x owned
  · intro x belongs
    rw [used x fun same => other (same ▸ belongs)]
    exact work.others x belongs

theorem Working.data_nodup (work : Working ctx node l im) : l.data.Nodup :=
  (List.nodup_append.mp work.nodup).2.1

/-- Cut the blocks behind the first `n` off a file that is not yet changed. -/
theorem Working.take (work : Working ctx node l im) (same : im.bm.disk = ctx.disk) (n : Nat) :
    Working ctx node { l with data := l.data.take n } im := by
  have smaller {x} (member : x ∈ ({ l with data := l.data.take n } : Layout).owned) : x ∈ l.owned := by
    rw [Layout.mem_owned] at member ⊢
    exact member.imp_right List.mem_of_mem_take
  refine ⟨work.sound, work.maps.take n, ?_, fun x member => work.marked x (smaller member), ?_,
    fun b _ => by rw [same], work.nextInum⟩
  · exact work.nodup.sublist ((List.take_sublist n l.data).append_left _)
  · exact fun x other => ⟨(work.others x other).1, fun member => (work.others x other).2 (smaller member)⟩

/-- The freeing loops of `write_file` and `remove_file`. -/
theorem Working.shrink (work : Working ctx node l im) (same : im.bm.disk = ctx.disk) {n : Nat}
    (small : n ≤ l.data.length) :
    Does (Act.loop (l.data.length - n) (fun index _ => do
      InodeManager.freeBlock (← getBlockId node (n + index))) ()) im fun _ t =>
        Working ctx node { l with data := l.data.take n } t ∧ t.bm.disk = ctx.disk ∧
          (Tight ctx l im → Tight ctx { l with data := l.data.take n } t) := by
  -- After `k` rounds the blocks from `n` to `n + k` are no longer marked.
  refine (Act.Meets.loop (fun k _ t => Working ctx node { l with data := l.data.take n } t ∧
    t.bm.disk = ctx.disk ∧ ∀ x, t.bm.usingBlocks x ≠ 0 → im.bm.usingBlocks x ≠ 0 ∧
      ∀ j < k, l.data[n + j]? ≠ some x) ⟨work.take same n, same, fun x marked => ⟨marked, by simp⟩⟩
        _ ?_).mono ?_
  · rintro k inside - t ⟨work', same', marks⟩
    obtain ⟨block, found⟩ : ∃ block, l.data[n + k]? = some block :=
      ⟨_, List.getElem?_eq_getElem (by omega)⟩
    have maps : Maps ctx.clean t.bm.disk node l := by
      rw [same', ← same]
      exact work.maps
    refine .seq (getBlockId_does maps (fun _ present => work.indirect_onDisk present) found ?_)
    have member := List.mem_of_getElem? found
    have owned := Layout.mem_owned.mpr (.inr member)
    refine .modify ⟨work'.free ?_ fun other => (work.others _ other).2 owned, same', fun x marked => ?_⟩
    · rw [Layout.mem_owned]
      rintro (pointer | kept)
      · exact (List.nodup_append.mp work.nodup).2.2 _ (by simpa using pointer) _ member rfl
      · obtain ⟨j, equal⟩ := List.mem_iff_getElem?.mp kept
        rw [List.getElem?_take] at equal
        split at equal
        · have index := (List.getElem?_inj (by omega) work.data_nodup).mp (found.trans equal.symm)
          omega
        · cases equal
    · have different : x ≠ block := by
        rintro rfl
        simp [BlockManager.freeBlock] at marked
      obtain ⟨before, cut⟩ := marks x (by simpa [BlockManager.freeBlock, different] using marked)
      refine ⟨before, fun j small named => ?_⟩
      rcases Nat.lt_succ_iff_lt_or_eq.mp small with earlier | rfl
      · exact cut j earlier named
      · exact different (Option.some.inj (named.symm.trans found))
  · rintro - t ⟨work', same', marks⟩
    refine ⟨work', same', fun tight x marked => ?_⟩
    obtain ⟨before, cut⟩ := marks x marked
    rcases tight x before with other | owned
    · exact .inl other
    · refine .inr (Layout.mem_owned.mpr ((Layout.mem_owned.mp owned).imp_right fun member => ?_))
      obtain ⟨j, found⟩ := List.mem_iff_getElem?.mp member
      obtain ⟨inside, -⟩ := List.getElem?_eq_some_iff.mp found
      rcases Nat.lt_or_ge j n with kept | gone
      · exact List.mem_iff_getElem?.mpr ⟨j, by rw [List.getElem?_take, if_pos kept, found]⟩
      · exact absurd (by rw [Nat.add_sub_cancel' gone]; exact found) (cut (j - n) (by omega))

/-- The disk may change inside the file's data blocks. -/
theorem Working.write (work : Working ctx node l im) (member : id ∈ l.data) {d : Disk}
    (written : ∀ b, b ≠ id.toNat → d b = im.bm.disk b) : Working ctx node l (im.setDisk d) := by
  refine ⟨setDisk_sound work.sound, work.maps.congr ?_, work.nodup, work.marked, work.others, ?_,
    work.nextInum⟩
  · intro block present k _
    have apart := (List.nodup_append.mp work.nodup).2.2 block (by simp [present]) id member
    rw [setDisk_disk, written _ fun same => apart (UInt32.toNat_inj.mp same)]
  · intro b apart
    rw [setDisk_disk, written b (apart id (Layout.mem_owned.mpr (.inr member))).symm]
    exact work.frame b apart

theorem lt_blockCount {size p : Nat} (inside : p < size) : p / BLOCK_SIZE < blockCount size := by
  simp only [blockCount, NBLOCKS, BLOCK_SIZE, show size ≠ 0 by omega, if_false]
  omega

/-- The blocks of a file have room for it. -/
theorem lt_blocks {size p : Nat} (inside : p < size) : p < blockCount size * BLOCK_SIZE := by
  have above : (p / BLOCK_SIZE + 1) * BLOCK_SIZE ≤ blockCount size * BLOCK_SIZE :=
    Nat.mul_le_mul_right _ (lt_blockCount inside)
  have place := Nat.div_add_mod p BLOCK_SIZE
  have bound : p % BLOCK_SIZE < BLOCK_SIZE := Nat.mod_lt _ (by simp [BLOCK_SIZE])
  rw [Nat.mul_comm] at place
  rw [Nat.add_mul] at above
  omega

/-- The bytes in the block with an index, as the copying loops count them. -/
theorem chunk_eq {size index : Nat} (inside : index < blockCount size) :
    (if index = blockCount size - 1 then size - index * BLOCK_SIZE else BLOCK_SIZE) =
      min BLOCK_SIZE (size - index * BLOCK_SIZE) := by
  have positive : size ≠ 0 := by
    rintro rfl
    simp [blockCount] at inside
  simp only [blockCount, NBLOCKS, BLOCK_SIZE, positive, if_false] at inside ⊢
  split <;> omega

/-- The copying loop of `write_file`. -/
theorem Working.fill (work : Working ctx node l im) (buf : Nat → UInt8) {size : Nat}
    (count : l.data.length = blockCount size) :
    Does (Act.loop (blockCount size) (fun index _ => do
      let bsize := if index = blockCount size - 1 then size - index * BLOCK_SIZE else BLOCK_SIZE
      InodeManager.writeBlock (← getBlockId node index) (fun k => buf (BLOCK_SIZE * index + k)) bsize) ())
        im fun _ t => Working ctx node l t ∧ Filled t.bm.disk l.data buf size ∧
          t.bm.usingBlocks = im.bm.usingBlocks := by
  refine (Act.Meets.loop (fun k _ t => Working ctx node l t ∧
    Filled t.bm.disk l.data buf (min size (k * BLOCK_SIZE)) ∧ t.bm.usingBlocks = im.bm.usingBlocks)
      ⟨work, ?_, rfl⟩ _ ?_).mono ?_
  · intro p small
    omega
  · rintro index inside - t ⟨work, filled, marks⟩
    obtain ⟨block, found⟩ : ∃ block, l.data[index]? = some block :=
      ⟨_, List.getElem?_eq_getElem (by omega)⟩
    have member := List.mem_of_getElem? found
    refine .seq (getBlockId_does work.maps (fun _ present => work.indirect_onDisk present) found ?_)
    rw [chunk_eq inside]
    refine writeBlock_does (work.onDisk (Layout.mem_owned.mpr (.inr member))).2 fun d written => ?_
    refine ⟨work.write member fun b different => ?_, ?_, marks⟩
    · funext k
      rw [written, if_neg fun both => different both.1]
    · intro p small id named
      have place : p = p / BLOCK_SIZE * BLOCK_SIZE + p % BLOCK_SIZE := by
        rw [Nat.mul_comm, Nat.div_add_mod]
      have bound : p % BLOCK_SIZE < BLOCK_SIZE := Nat.mod_lt _ (by simp [BLOCK_SIZE])
      rw [setDisk_disk, written]
      by_cases here : p / BLOCK_SIZE = index
      · rw [here, found] at named
        cases named
        rw [here] at place
        have short : p % BLOCK_SIZE < min BLOCK_SIZE (size - index * BLOCK_SIZE) := by omega
        rw [if_pos ⟨rfl, short⟩, Nat.mul_comm, ← place]
      · have different : id ≠ block := by
          rintro rfl
          have index := (List.getElem?_inj (by omega) work.data_nodup).mp (found.trans named.symm)
          exact here index.symm
        rw [if_neg fun both => different (UInt32.toNat_inj.mp both.1)]
        refine filled p ?_ id named
        have earlier : p / BLOCK_SIZE < index := by
          have upto : p < (index + 1) * BLOCK_SIZE := by omega
          have below := Nat.div_lt_of_lt_mul (by rwa [Nat.mul_comm] at upto)
          omega
        have above : (p / BLOCK_SIZE + 1) * BLOCK_SIZE ≤ index * BLOCK_SIZE :=
          Nat.mul_le_mul_right _ earlier
        rw [Nat.add_mul] at above
        omega
  · rintro - t ⟨work, filled, marks⟩
    refine ⟨work, fun p small => filled p ?_, marks⟩
    have room := lt_blocks small
    omega

end Working

end InodeManager

end Yfs.Store
