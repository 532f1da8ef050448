import Mathlib.Data.Finset.Card
import Mathlib.Data.UInt
import Yfs.Store.BlockManager

/-! Runs of `alloc_block` and `free_block`. Offsets are relative to the first data
block, but the scan runs up to the size of the disk, so an allocation is on the
disk exactly when the scan meets a free block before it runs off the end. From any
cursor the two loops find a free block if there is one. -/

namespace Yfs.Store.BlockManager

/-- The number of data blocks on the disk. -/
def dataBlocks : Nat := BLOCK_NUM - (IBLOCK INODE_NUM BLOCK_NUM + 1)

/-- A data block that `disk::read_block` and `disk::write_block` do not ignore. -/
def OnDisk (id : UInt32) : Prop :=
  IBLOCK (INODE_NUM - 1) BLOCK_NUM < id.toNat ∧ id.toNat < BLOCK_NUM

/-- Runs from a fresh block manager: the blocks that are allocated and, for each
call of `alloc_block` so far, the state before it and the block it returned. -/
inductive History (memory : UInt32) :
    BlockManager → Finset UInt32 → List (BlockManager × UInt32) → Prop where
  | fresh : History memory (create memory) ∅ []
  | alloc {id : UInt32} (before : History memory bm allocated log) (room : allocated.card < dataBlocks)
      (returned : bm.allocBlock = some (id, bm')) :
      History memory bm' (insert id allocated) ((bm, id) :: log)
  | free {id : UInt32} (before : History memory bm allocated log) (member : id ∈ allocated) :
      History memory (bm.freeBlock id) (allocated.erase id) log

/-- A call of the allocator, with the block that it returns or is given. -/
inductive Call where
  | alloc (id : UInt32)
  | free (id : UInt32)

/-- The calls made on a block manager, and the block manager they lead to. -/
inductive Calls : BlockManager → List Call → BlockManager → Prop where
  | nil : Calls bm [] bm
  | alloc {id : UInt32} (returned : bm.allocBlock = some (id, bm₁)) (rest : Calls bm₁ calls bm') :
      Calls bm (.alloc id :: calls) bm'
  | free {id : UInt32} (rest : Calls (bm.freeBlock id) calls bm') : Calls bm (.free id :: calls) bm'

/-- The cursor has wrapped past the scan's end, or a block between it and the end
of the disk is free. -/
def Roomy (bm : BlockManager) : Prop :=
  BLOCK_NUM ≤ bm.nextBlock.toNat ∨
    ∃ off, bm.nextBlock.toNat ≤ off ∧ bm.start + off < BLOCK_NUM ∧
      bm.usingBlocks (bm.blockAt off) = 0

/-- The allocator's marks are the allocated blocks, and its arithmetic does not wrap. -/
structure Marks (bm : BlockManager) (allocated : Finset UInt32) : Prop where
  nblocks : bm.nblocks = .ofNat BLOCK_NUM
  cursor : bm.nextBlock.toNat < 2 ^ 21
  used : ∀ id, bm.usingBlocks id ≠ 0 ↔ id ∈ allocated

variable {bm bm' : BlockManager} {nblocks : UInt32} {allocated : Finset UInt32}
  {log : List (BlockManager × UInt32)}

theorem Marks.start (marks : Marks bm allocated) : bm.start = 1036 := by
  rw [BlockManager.start, marks.nblocks]
  rfl

theorem toNat_blockAt (start : bm.start = 1036) {off : Nat} (small : off < 2 ^ 21) :
    (bm.blockAt off).toNat = 1036 + off := by
  rw [blockAt, start, UInt32.toNat_ofNat_of_lt' (by simp [UInt32.size]; omega)]

theorem onDisk_iff {id : UInt32} : OnDisk id ↔ 1034 < id.toNat ∧ id.toNat < 32768 := Iff.rfl

theorem OnDisk.ne_zero {id : UInt32} (onDisk : OnDisk id) : id ≠ 0 := by
  rintro rfl
  simp [onDisk_iff] at onDisk

theorem create_marks (nblocks : UInt32) : Marks (create nblocks) ∅ := by
  refine ⟨rfl, ?_, by simp [create]⟩
  have bound := nblocks.toNat_lt
  have cursor : IBLOCK INODE_NUM nblocks.toNat + 1 = nblocks.toNat / 4096 + 1028 := by
    simp [IBLOCK, BPB, BLOCK_SIZE, INODE_NUM, IPB]
  rw [create, cursor, UInt32.toNat_ofNat_of_lt' (by simp [UInt32.size]; omega)]
  omega

theorem Marks.take (marks : Marks bm allocated) {off : Nat} (small : off + 1 < 2 ^ 21) :
    Marks (bm.take off).2 (insert (bm.blockAt off) allocated) := by
  refine ⟨marks.nblocks, ?_, fun id => ?_⟩
  · rw [BlockManager.take, UInt32.toNat_ofNat_of_lt' (by simp [UInt32.size]; omega)]
    exact small
  · by_cases same : id = bm.blockAt off
    · simp [BlockManager.take, same]
    · simp [BlockManager.take, same, ← marks.used]

theorem Marks.free (marks : Marks bm allocated) (id : UInt32) :
    Marks (bm.freeBlock id) (allocated.erase id) := by
  refine ⟨marks.nblocks, marks.cursor, fun other => ?_⟩
  by_cases same : other = id
  · simp [freeBlock, same]
  · simp [freeBlock, same, ← marks.used]

/-- The block that is returned was not allocated, and it is marked. -/
theorem Marks.alloc (marks : Marks bm allocated) {id : UInt32}
    (returned : bm.allocBlock = some (id, bm')) :
    ∃ off, off + 1 < 2 ^ 21 ∧ id = bm.blockAt off ∧ bm' = (bm.take off).2 ∧ id ∉ allocated := by
  have cursor := marks.cursor
  rcases bm.allocBlock_cases with ⟨off, taken, -, high, free, -⟩ |
    ⟨-, ⟨off, taken, high, free, -⟩ | ⟨exit, -⟩⟩
  · obtain ⟨rfl, rfl⟩ := Prod.mk.inj (Option.some.inj (returned.symm.trans taken))
    refine ⟨off, ?_, rfl, rfl, fun member => (marks.used _).mpr member free⟩
    simp only [BLOCK_NUM] at high
    omega
  · obtain ⟨rfl, rfl⟩ := Prod.mk.inj (Option.some.inj (returned.symm.trans taken))
    exact ⟨off, by omega, rfl, rfl, fun member => (marks.used _).mpr member free⟩
  · rw [exit] at returned
    cases returned

theorem History.marks (history : History nblocks bm allocated log) : Marks bm allocated := by
  induction history with
  | fresh => exact create_marks nblocks
  | alloc before room returned ih =>
    obtain ⟨off, small, same, next, -⟩ := ih.alloc returned
    rw [same, next]
    exact ih.take small
  | free before member ih => exact ih.free _

theorem History.allocated_log (history : History nblocks bm allocated log) {id : UInt32}
    (member : id ∈ allocated) : ∃ state, (state, id) ∈ log := by
  induction history with
  | fresh => simp at member
  | alloc before room returned ih =>
    rcases Finset.mem_insert.mp member with same | old
    · subst same
      exact ⟨_, List.mem_cons_self⟩
    · obtain ⟨state, logged⟩ := ih old
      exact ⟨state, List.mem_cons_of_mem _ logged⟩
  | free before _ ih => exact ih (Finset.mem_of_mem_erase member)

/-- Fewer allocated blocks than data blocks leave a data block free. -/
theorem Marks.exists_free (marks : Marks bm allocated) (room : allocated.card < dataBlocks) :
    ∃ off, off < dataBlocks ∧ bm.usingBlocks (bm.blockAt off) = 0 := by
  by_contra none
  push Not at none
  have injective : Set.InjOn bm.blockAt (Finset.range dataBlocks) := by
    intro i low j high same
    have small (k) (inside : k ∈ Finset.range dataBlocks) : k < 2 ^ 21 := by
      have bound := Finset.mem_range.mp inside
      simp only [dataBlocks, BLOCK_NUM] at bound
      omega
    have equal := congrArg UInt32.toNat same
    rw [toNat_blockAt marks.start (small i low), toNat_blockAt marks.start (small j high)] at equal
    omega
  have covered : (Finset.range dataBlocks).image bm.blockAt ⊆ allocated := by
    intro id member
    obtain ⟨off, small, rfl⟩ := Finset.mem_image.mp member
    exact (marks.used _).mp (none off (Finset.mem_range.mp small))
  have count := Finset.card_le_card covered
  rw [Finset.card_image_of_injOn injective, Finset.card_range] at count
  omega

/-- As long as all allocated blocks are on the disk, the next one is on the disk
exactly when there is room before the end. -/
theorem Marks.alloc_onDisk (marks : Marks bm allocated)
    (onDisk : ∀ id ∈ allocated, OnDisk id) (room : allocated.card < dataBlocks) {id : UInt32}
    (returned : bm.allocBlock = some (id, bm')) : OnDisk id ↔ bm.Roomy := by
  have start := marks.start
  have cursor := marks.cursor
  rcases bm.allocBlock_cases with ⟨off, taken, low, high, free, before⟩ | ⟨upper, lower⟩
  · obtain ⟨rfl, rfl⟩ := Prod.mk.inj (Option.some.inj (returned.symm.trans taken))
    simp only [BLOCK_NUM] at high
    have place : (bm.blockAt off).toNat = 1036 + off := toNat_blockAt start (by omega)
    rw [onDisk_iff, place]
    constructor
    · intro inside
      exact .inr ⟨off, low, by simp only [start, BLOCK_NUM]; omega, free⟩
    · rintro (wrapped | ⟨other, from_, upto, unused⟩)
      · simp only [BLOCK_NUM] at wrapped
        omega
      · have first : off ≤ other := by
          by_contra above
          exact before other from_ (by omega) unused
        simp only [start, BLOCK_NUM] at upto
        omega
  · -- The scan from the cursor found nothing: the cursor is behind the scan's end,
    -- for otherwise the last offset, which lies off the disk, would be allocated.
    have wrapped : BLOCK_NUM ≤ bm.nextBlock.toNat := by
      by_contra inside
      simp only [BLOCK_NUM] at inside
      have last := onDisk _ ((marks.used _).mp (upper 32767 (by omega) (by simp [BLOCK_NUM])))
      rw [onDisk_iff, toNat_blockAt start (by omega)] at last
      omega
    refine iff_of_true ?_ (.inl wrapped)
    obtain ⟨free, inside, unused⟩ := marks.exists_free room
    simp only [dataBlocks, BLOCK_NUM, IBLOCK, BPB, BLOCK_SIZE, INODE_NUM, IPB] at inside
    rcases lower with ⟨off, taken, high, -, before⟩ | ⟨exit, -⟩
    · obtain ⟨rfl, rfl⟩ := Prod.mk.inj (Option.some.inj (returned.symm.trans taken))
      have first : off ≤ free := by
        by_contra above
        exact before free (by omega) unused
      have place : (bm.blockAt off).toNat = 1036 + off := toNat_blockAt start (by omega)
      rw [onDisk_iff, place]
      omega
    · rw [exit] at returned
      cases returned

/-- Along every run, all blocks returned are on the disk exactly when there was
room before the end at every allocation. -/
theorem History.onDisk_iff_roomy (history : History nblocks bm allocated log) :
    (∀ entry ∈ log, OnDisk entry.2) ↔ ∀ entry ∈ log, entry.1.Roomy := by
  induction history with
  | fresh => simp
  | free _ _ ih => exact ih
  | alloc before room returned ih =>
    rw [List.forall_mem_cons, List.forall_mem_cons, ← ih]
    refine and_congr_left fun earlier => before.marks.alloc_onDisk (fun id member => ?_) room returned
    obtain ⟨state, logged⟩ := before.allocated_log member
    exact earlier _ logged

/-- A block manager that has taken and freed the blocks at the first offsets. -/
private def churned (n : Nat) : BlockManager := { create 0 with nextBlock := .ofNat (1028 + n) }

private theorem churned_alloc {n : Nat} (small : n < 31740) :
    (churned n).allocBlock = some ((churned n).take (1028 + n)) := by
  have cursor : (churned n).nextBlock.toNat = 1028 + n := by
    rw [churned, UInt32.toNat_ofNat_of_lt' (by simp [UInt32.size]; omega)]
  rcases (churned n).allocBlock_cases with ⟨off, taken, low, -, -, before⟩ | ⟨upper, -⟩
  · rcases Nat.eq_or_lt_of_le low with same | above
    · rw [taken, ← same, cursor]
    · exact absurd rfl (before _ (le_refl _) above)
  · exact absurd rfl (upper _ (le_refl _) (by simp only [cursor, BLOCK_NUM]; omega))

private theorem churned_history (n : Nat) (small : n ≤ 30704) :
    ∃ log, History 0 (churned n) ∅ log := by
  induction n with
  | zero => exact ⟨[], .fresh⟩
  | succ n ih =>
    obtain ⟨log, history⟩ := ih (by omega)
    have taken := history.alloc (by simp [dataBlocks, BLOCK_NUM, IBLOCK, BPB, BLOCK_SIZE, INODE_NUM, IPB])
      (churned_alloc (by omega))
    have freed := taken.free (Finset.mem_insert_self _ _)
    have same : ((churned n).take (1028 + n)).2.freeBlock ((churned n).blockAt (1028 + n)) =
        churned (n + 1) := by
      simp only [take, freeBlock, Function.update_idem, churned, create, Nat.add_assoc]
      congr 1
      exact Function.update_eq_self_iff.mpr rfl
    have emptied : (insert ((churned n).blockAt (1028 + n)) ∅ : Finset UInt32).erase
        ((churned n).blockAt (1028 + n)) = ∅ := by simp
    rw [emptied] at freed
    exact ⟨_, same ▸ freed⟩

theorem alloc_off_disk : ∃ bm allocated log, ∃ entry ∈ log,
    History 0 bm allocated log ∧ entry.2 = 32768 ∧ ¬ OnDisk entry.2 := by
  obtain ⟨log, history⟩ := churned_history 30704 (le_refl _)
  have last := history.alloc (by simp [dataBlocks, BLOCK_NUM, IBLOCK, BPB, BLOCK_SIZE, INODE_NUM, IPB])
    (churned_alloc (by omega))
  refine ⟨_, _, _, _, List.mem_cons_self, last, rfl, ?_⟩
  rw [onDisk_iff]
  decide

theorem History.onDisk_iff_roomy_first : ∃ bm, History 0 bm {2064} [(create 0, 2064)] ∧
    ((∀ entry ∈ [(create 0, (2064 : UInt32))], OnDisk entry.2) ↔
      ∀ entry ∈ [(create 0, (2064 : UInt32))], entry.1.Roomy) := by
  have first : History 0 ((churned 0).take 1028).2 {2064} [(create 0, 2064)] :=
    History.alloc .fresh (by simp [dataBlocks, BLOCK_NUM, IBLOCK, BPB, BLOCK_SIZE, INODE_NUM, IPB])
      (churned_alloc (n := 0) (by omega))
  exact ⟨_, first, first.onDisk_iff_roomy⟩

section Circular

variable {id : UInt32} {calls : List Call}

/-- The block that is returned was free, and only its mark changes. -/
theorem allocBlock_some (returned : bm.allocBlock = some (id, bm')) :
    bm.usingBlocks id = 0 ∧ bm'.usingBlocks = Function.update bm.usingBlocks id 1 := by
  rcases bm.allocBlock_cases with ⟨off, taken, -, -, free, -⟩ |
    ⟨-, ⟨off, taken, -, free, -⟩ | ⟨exit, -⟩⟩
  · obtain ⟨rfl, rfl⟩ := Prod.mk.inj (Option.some.inj (returned.symm.trans taken))
    exact ⟨free, rfl⟩
  · obtain ⟨rfl, rfl⟩ := Prod.mk.inj (Option.some.inj (returned.symm.trans taken))
    exact ⟨free, rfl⟩
  · rw [exit] at returned
    cases returned

/-- The two loops have looked at every data block when they give up. -/
theorem allocBlock_none (nblocks : bm.nblocks = .ofNat BLOCK_NUM) (exit : bm.allocBlock = none)
    (low : IBLOCK INODE_NUM BLOCK_NUM + 1 ≤ id.toNat) (high : id.toNat < BLOCK_NUM) :
    bm.usingBlocks id ≠ 0 := by
  have start : bm.start = IBLOCK INODE_NUM BLOCK_NUM + 1 := by
    rw [BlockManager.start, nblocks]
    rfl
  obtain ⟨off, place⟩ := Nat.exists_eq_add_of_le low
  have same : bm.blockAt off = id := by
    rw [blockAt, start, ← place, UInt32.ofNat_toNat]
  rw [← same]
  rcases bm.allocBlock_cases with ⟨_, taken, -⟩ | ⟨upper, ⟨_, taken, -⟩ | ⟨-, lower⟩⟩
  · rw [exit] at taken
    cases taken
  · rw [exit] at taken
    cases taken
  · rcases Nat.lt_or_ge off bm.nextBlock.toNat with below | above
    · exact lower off below
    · exact upper off above (by omega)

theorem Calls.split {before after : List Call} (run : Calls bm (before ++ after) bm') :
    ∃ middle, Calls bm before middle ∧ Calls middle after bm' := by
  induction before generalizing bm with
  | nil => exact ⟨bm, .nil, run⟩
  | cons call before ih =>
    cases run with
    | alloc returned rest =>
      obtain ⟨middle, first, second⟩ := ih rest
      exact ⟨middle, .alloc returned first, second⟩
    | free rest =>
      obtain ⟨middle, first, second⟩ := ih rest
      exact ⟨middle, .free first, second⟩

/-- A marked block stays marked until it is freed. -/
theorem Calls.marked (run : Calls bm calls bm') (marked : bm.usingBlocks id ≠ 0)
    (kept : .free id ∉ calls) : bm'.usingBlocks id ≠ 0 := by
  induction run with
  | nil => exact marked
  | alloc returned _ ih =>
    refine ih ?_ fun member => kept (List.mem_cons_of_mem _ member)
    rw [(allocBlock_some returned).2, Function.update_apply]
    split <;> simp [marked]
  | free _ ih =>
    rename_i other _
    have different : id ≠ other := by
      rintro rfl
      exact kept List.mem_cons_self
    refine ih ?_ fun member => kept (List.mem_cons_of_mem _ member)
    simpa [freeBlock, different] using marked

/-- From every cursor and whatever is marked, `alloc_block` takes a free block and marks
only that one, or all data blocks are marked. No block is returned twice unless it has
been freed in between. -/
theorem allocBlock_circular (nblocks : bm.nblocks = .ofNat BLOCK_NUM) :
    (∀ id bm', bm.allocBlock = some (id, bm') → bm.usingBlocks id = 0 ∧ bm'.usingBlocks id ≠ 0 ∧
      ∀ other, other ≠ id → bm'.usingBlocks other = bm.usingBlocks other) ∧
    (bm.allocBlock = none → ∀ id : UInt32, IBLOCK INODE_NUM BLOCK_NUM + 1 ≤ id.toNat →
      id.toNat < BLOCK_NUM → bm.usingBlocks id ≠ 0) ∧
    ∀ before id between after bm', Calls bm (before ++ .alloc id :: (between ++ .alloc id :: after)) bm' →
      .free id ∈ between := by
  refine ⟨fun id bm' returned => ?_, fun exit id => allocBlock_none nblocks exit, ?_⟩
  · obtain ⟨free, marks⟩ := allocBlock_some returned
    refine ⟨free, by simp [marks], fun other different => ?_⟩
    rw [marks, Function.update_of_ne different]
  · intro before id between after bm' run
    obtain ⟨_, -, rest⟩ := run.split
    cases rest with
    | alloc first rest =>
      obtain ⟨_, middle, rest⟩ := rest.split
      cases rest with
      | alloc second _ =>
        by_contra kept
        have marked := middle.marked (by simp [(allocBlock_some first).2]) kept
        exact marked (allocBlock_some second).1

/-- A cursor that the unset superblock has left at the end of its range. -/
private def farthest : BlockManager := { create 5 with nextBlock := 4294967295 }

theorem allocBlock_circular_farthest : (farthest.take 0).1 = 1036 ∧ farthest.usingBlocks 1036 = 0 ∧
    (farthest.take 0).2.usingBlocks 1036 ≠ 0 := by
  have returned : farthest.allocBlock = some (1036, (farthest.take 0).2) := by
    rcases farthest.allocBlock_cases with ⟨off, taken, low, high, -⟩ |
      ⟨-, ⟨off, taken, -, -, before⟩ | ⟨-, lower⟩⟩
    · simp only [BLOCK_NUM] at high
      have cursor : farthest.nextBlock.toNat = 4294967295 := rfl
      omega
    · rcases Nat.eq_zero_or_pos off with first | later
      · rw [taken, first]
        rfl
      · exact absurd rfl (before 0 later)
    · exact absurd rfl (lower 0 (by decide))
  obtain ⟨free, marked, -⟩ := (@allocBlock_circular farthest rfl).1 _ _ returned
  exact ⟨rfl, free, marked⟩

end Circular

end Yfs.Store.BlockManager
