import Yfs.Store.Refinement

/-! Files do not share blocks as long as no file grows past its direct blocks
through a pointer left over from the memory of an earlier inode. -/

namespace Yfs.Store

open Yfs.Lib BlockManager InodeManager

/-- Inum `i` is live and has `id` as one of its data blocks or its indirect block. -/
def InodeManager.Uses (im : InodeManager) (i : Nat) (id : UInt32) : Prop :=
  ∃ node, (getInode i im).2 = .ok (some node, im) ∧
    ((∃ k < blockCount node.size.toNat, (getBlockId node k im).2 = .ok (id, im)) ∨
      NDIRECT < blockCount node.size.toNat ∧ node.blocks (Fin.last NDIRECT) = id)

/-- The calls of a run with the allocation of the root directory, which the
constructor makes, in front. -/
def history (memory : Inode) (now : Clock) (trace : List (Op × Reply)) : List (Op × Reply) :=
  (.alloc T_DIR memory now, .inum 1) :: trace

section

variable {stale : Nat → Prop} {F : FileTable} {L : Nat → Layout} {im : InodeManager} {i : Nat}
  {id : UInt32}

theorem Represents.owned_of_uses (rep : Represents stale F L im) (uses : im.Uses i id) :
    id ∈ (L i).owned := by
  obtain ⟨node, found, blocks⟩ := uses
  obtain ⟨file, present, rfl⟩ := rep.node_iff.mp found
  have stored := rep.stored present
  rw [Layout.mem_owned]
  rcases blocks with data | ⟨long, pointer⟩
  · exact .inr ((rep.data_iff present).mpr data)
  · rw [stored.size, ← stored.count] at long
    obtain ⟨block, indirect⟩ := Option.ne_none_iff_exists'.mp (stored.maps.needed long)
    rw [stored.maps.pointer block indirect] at pointer
    exact .inl (pointer ▸ indirect)

theorem getBlockId_silent (node : Inode) (k : Nat) : (getBlockId node k).Silent := by
  unfold getBlockId
  split
  · exact .pure
  · refine .bind (readBlock_silent _) fun buf => ?_
    split
    · exact .throw
    · exact .pure

theorem read_silent (i : Nat) (now : Clock) : (Op.read i now).run.Silent := by
  refine .bind (.bind (getInode_silent i) fun found => .bind ?_ fun node => ?_) fun _ => .pure
  · cases found with
    | none => exact .throw
    | some node => exact .pure
  · refine .bind (.loop (fun k buf => ?_) _ _) fun buf => .bind (putInode_silent _ _) fun _ => .pure
    exact .bind (getBlockId_silent _ _) fun _ => .bind (readBlock_silent _) fun _ => .pure

/-- What a read answers. -/
theorem Represents.read_eq (rep : Represents stale F L im) {file : File} (found : F i = some file)
    (now : Clock) : ∃ t, (Op.read i now).run im =
      ([], .ok (.data file.bytes (.ofNat file.bytes.length), t)) := by
  obtain ⟨r, t, returned, _, _, step, _⟩ := (rep.read found now).returns (read_silent i now)
  cases step with
  | read found' =>
    rw [found] at found'
    cases found'
    exact ⟨t, returned⟩

end

/-- In every state that a run reaches without writing through a leftover pointer,
no two live inums share a block, and a further such write changes neither the
inode of another inum nor what a read of another live inum answers. -/
theorem isolated {nblocks : UInt32} {memory : Inode} {now : Clock} {trace : List (Op × Reply)}
    {t : InodeManager} (run : Run (fun im op => op.Valid im) (.fresh nblocks memory now) trace t)
    (guarded : Guarded (fun _ => False) (history memory now trace)) :
    (∀ i j, i ≠ j → ∀ id, t.Uses i id → ¬ t.Uses j id) ∧
    ∀ i buf size now' events u, (Op.write i buf size now').Valid t →
      (Op.write i buf size now').Spares (leftovers (fun _ => False) (history memory now trace)) →
      (Op.write i buf size now').run t = (events, .ok (.done, u)) →
      (∀ id ∈ events, id.toNat < BLOCK_NUM) →
      (∀ j < INODE_NUM, j ≠ i → u.bm.disk (IBLOCK j BLOCK_NUM) = t.bm.disk (IBLOCK j BLOCK_NUM)) ∧
      ∀ j, j ≠ i → t.live j = true → ∀ at_, ∃ r t' u',
        (Op.read j at_).run t = ([], .ok (r, t')) ∧ (Op.read j at_).run u = ([], .ok (r, u')) := by
  obtain ⟨-, L, rep, -⟩ := construct_eq nblocks memory now
  obtain ⟨F, L', -, after⟩ := run.represents rep guarded.2
  refine ⟨fun i j different id mine other => ?_, ?_⟩
  · exact after.apart i j different id (after.owned_of_uses mine) (after.owned_of_uses other)
  · intro i buf size now' events u valid spares returned below
    obtain ⟨file, found⟩ := Option.ne_none_iff_exists'.mp ((after.live_iff i).mp valid.1)
    obtain ⟨r, v, same, ⟨G, L'', step, rep', -⟩, table⟩ :=
      after.write found buf valid.2 spares now' (by rw [returned]; exact below)
    rw [returned] at same
    cases same
    refine ⟨table, fun j different live at_ => ?_⟩
    obtain ⟨other, present⟩ := Option.ne_none_iff_exists'.mp ((after.live_iff j).mp live)
    have kept : G j = some other := by
      cases step with
      | write => simp [different, present]
    obtain ⟨t', before⟩ := after.read_eq present at_
    obtain ⟨u', later⟩ := rep'.read_eq kept at_
    exact ⟨_, t', u', before, later⟩

theorem InodeManager.uses_direct {im : InodeManager} {i : Nat} {id : UInt32}
    (evidence : im.bm.nblocks = .ofNat BLOCK_NUM ∧ i < INODE_NUM ∧ (nodeAt im.bm.disk i).type ≠ 0 ∧
      0 < blockCount (nodeAt im.bm.disk i).size.toNat ∧ (nodeAt im.bm.disk i).blocks 0 = id) :
    im.Uses i id := by
  obtain ⟨node, read, block⟩ := firstBlock im i id evidence
  exact ⟨node, read, .inl block⟩

/-- The indirect block of a live inum with more blocks than direct pointers. -/
theorem InodeManager.uses_pointer {im : InodeManager} {i : Nat} {id : UInt32}
    (evidence : im.bm.nblocks = .ofNat BLOCK_NUM ∧ i < INODE_NUM ∧ (nodeAt im.bm.disk i).type ≠ 0 ∧
      NDIRECT < blockCount (nodeAt im.bm.disk i).size.toNat ∧
      (nodeAt im.bm.disk i).blocks (Fin.last NDIRECT) = id) : im.Uses i id := by
  obtain ⟨nblocks, range, live, long, pointer⟩ := evidence
  exact ⟨nodeAt im.bm.disk i, getInode_live nblocks range live, .inr ⟨long, pointer⟩⟩

private def midnight : Clock := { atime := 0, mtime := 0, ctime := 0 }
private def start : InodeManager := .fresh 0 Inode.zero midnight

/-- Memory in which the place of `blocks[NDIRECT]` holds the id of a block. -/
private def recycled : Inode :=
  { Inode.zero with blocks := fun k => if k = Fin.last NDIRECT then 2064 else 0 }

private def firstAlloc : Op := .alloc T_FILE Inode.zero midnight
private def shortWrite : Op := .write 2 (fun _ => 1) 3 midnight
private def secondAlloc : Op := .alloc T_FILE recycled midnight
private def longWrite : Op := .write 3 (fun _ => 2) 51201 midnight

private def short : InodeManager := shortWrite.after (firstAlloc.after start)
private def long : InodeManager := longWrite.after (secondAlloc.after short)

private theorem short_run : Run (fun im op => op.Valid im) start
    [(firstAlloc, .inum 2), (shortWrite, .done), (secondAlloc, .inum 3)] (secondAlloc.after short) := by
  have first : Run (fun im op => op.Valid im) start [(firstAlloc, .inum 2)] (firstAlloc.after start) :=
    .step .nil firstAlloc (.inr (.inl rfl)) (Op.run_eq [] (.inum 2) (by decide +kernel)) (by simp)
  have second := first.step shortWrite ⟨by decide +kernel, by decide⟩
    (Op.run_eq [2064] .done (by decide +kernel)) (below_of_all (by decide +kernel))
  exact second.step secondAlloc (.inr (.inl rfl))
    (Op.run_eq [] (.inum 3) (by decide +kernel)) (by simp)

theorem isolated_short : (secondAlloc.after short).Uses 2 2064 ∧ ¬ (secondAlloc.after short).Uses 3 2064 := by
  have first : (secondAlloc.after short).Uses 2 2064 := uses_direct (by decide +kernel)
  have guarded : Guarded (fun _ => False) (history Inode.zero midnight
      [(firstAlloc, .inum 2), (shortWrite, .done), (secondAlloc, .inum 3)]) :=
    ⟨trivial, trivial, fun _ => by decide, trivial, trivial⟩
  exact ⟨first, (isolated short_run guarded).1 2 3 (by decide) 2064 first⟩

/-- The second file has taken the first one's data block for its indirect block. -/
theorem leftover_pointer_shares : ∃ trace t, Run (fun im op => op.Valid im) start trace t ∧
    t.Uses 2 2064 ∧ t.Uses 3 2064 := by
  have grown := short_run.step longWrite ⟨by decide +kernel, by decide⟩
    (Op.run_eq ((List.range 101).map fun k => .ofNat (2065 + k)) .done
      (by decide +kernel)) (below_of_all (by decide +kernel))
  exact ⟨_, long, grown, uses_direct (by decide +kernel), uses_pointer (by decide +kernel)⟩

end Yfs.Store
