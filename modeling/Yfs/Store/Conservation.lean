import Yfs.Store.Refinement

/-! Every marked block belongs to exactly one live file as long as no file with an
indirect block is removed: `remove_file` frees the data blocks only. -/

namespace Yfs.Store

open Yfs.Lib BlockManager InodeManager

/-- Inum `i` is live, and `id` is one of its data blocks below the block count or
its indirect block, which `set_block_id` keeps once the pointer to it is set. -/
def InodeManager.Holds (im : InodeManager) (i : Nat) (id : UInt32) : Prop :=
  ∃ node, (getInode i im).2 = .ok (some node, im) ∧
    ((∃ k < blockCount node.size.toNat, (getBlockId node k im).2 = .ok (id, im)) ∨
      node.blocks (Fin.last NDIRECT) ≠ 0 ∧ node.blocks (Fin.last NDIRECT) = id)

/-- `using_blocks` marks exactly the blocks that one live inum has. -/
def InodeManager.Conserved (im : InodeManager) : Prop :=
  ∀ id, im.bm.usingBlocks id ≠ 0 ↔ ∃! i, im.Holds i id

/-- The call does not remove a file whose inode has a pointer to an indirect block. -/
def Op.Frees (im : InodeManager) : Op → Prop
  | .remove i => ∀ node, (getInode i im).2 = .ok (some node, im) → node.blocks (Fin.last NDIRECT) = 0
  | _ => True

section

variable {F : FileTable} {L : Nat → Layout} {im t : InodeManager} {i : Nat} {id : UInt32}

/-- Without leftovers the pointer is set exactly if there is an indirect block. -/
theorem Represents.indirect_iff (rep : Represents (fun _ => False) F L im) {file : File}
    (found : F i = some file) : (L i).indirect = some id ↔
      (nodeAt im.bm.disk i).blocks (Fin.last NDIRECT) ≠ 0 ∧
        (nodeAt im.bm.disk i).blocks (Fin.last NDIRECT) = id := by
  have maps := (rep.stored found).maps
  constructor
  · intro present
    rw [maps.pointer id present]
    exact ⟨((rep.working found).indirect_onDisk present).ne_zero, rfl⟩
  · rintro ⟨set, pointer⟩
    cases present : (L i).indirect with
    | none => exact absurd (maps.unset not_false present) set
    | some block => rw [← pointer, maps.pointer block present]

theorem Represents.holds_iff (rep : Represents (fun _ => False) F L im) :
    im.Holds i id ↔ F i ≠ none ∧ id ∈ (L i).owned := by
  constructor
  · rintro ⟨node, read, blocks⟩
    obtain ⟨file, found, rfl⟩ := rep.node_iff.mp read
    refine ⟨by simp [found], Layout.mem_owned.mpr ?_⟩
    rwa [rep.indirect_iff found, rep.data_iff found, or_comm]
  · rintro ⟨live, owned⟩
    obtain ⟨file, found⟩ := Option.ne_none_iff_exists'.mp live
    refine ⟨nodeAt im.bm.disk i, rep.node_iff.mpr ⟨file, found, rfl⟩, ?_⟩
    rwa [or_comm, ← rep.data_iff found, ← rep.indirect_iff found, ← Layout.mem_owned]

theorem Represents.conserved_iff (rep : Represents (fun _ => False) F L im) :
    im.Conserved ↔ Accounted F L im := by
  constructor
  · intro conserved id marked
    obtain ⟨i, holds, -⟩ := (conserved id).mp marked
    exact ⟨i, rep.holds_iff.mp holds⟩
  · intro accounted id
    constructor
    · intro marked
      obtain ⟨i, live, owned⟩ := accounted id marked
      refine ⟨i, rep.holds_iff.mpr ⟨live, owned⟩, fun j holds => ?_⟩
      by_contra different
      exact rep.apart j i different id (rep.holds_iff.mp holds).2 owned
    · rintro ⟨i, holds, -⟩
      exact rep.marked i id (rep.holds_iff.mp holds).2

theorem Represents.frees_iff (rep : Represents (fun _ => False) F L im) {op : Op}
    (valid : op.Valid im) : op.Frees im ↔ op.Releases L := by
  cases op with
  | remove i =>
    obtain ⟨file, found⟩ := Option.ne_none_iff_exists'.mp ((rep.live_iff i).mp valid)
    constructor
    · intro frees
      refine Option.eq_none_iff_forall_ne_some.mpr fun id present => ?_
      exact ((rep.indirect_iff found).mp present).1 (frees _ (rep.node_iff.mpr ⟨file, found, rfl⟩))
    · intro released node read
      obtain ⟨_, found', rfl⟩ := rep.node_iff.mp read
      exact (rep.stored found').maps.unset not_false released
  | _ => exact Iff.rfl

/-- One call keeps the accounts exactly if it frees what it removes. -/
theorem Represents.conserved_step (rep : Represents (fun _ => False) F L im)
    (accounted : Accounted F L im) {op : Op} (valid : op.Valid im) (zero : op.ZeroFilled)
    (returned : op.run im = (events, .ok (r, t))) (below : ∀ id ∈ events, id.toNat < BLOCK_NUM) :
    ∃ F' L', Represents (fun _ => False) F' L' t ∧ (Accounted F' L' t ↔ op.Frees im) ∧
      ∀ i, op = .remove i → L' = Function.update L i .empty := by
  obtain ⟨F', L', -, after, kept, removed⟩ :=
    Does.returned (rep.conserves valid op.spares_clean) returned below
  rw [op.leftover_zero zero] at after
  exact ⟨F', L', after, (kept accounted).trans (rep.frees_iff valid).symm, removed⟩

/-- Where the accounts are kept, a removed file has lost all its blocks. -/
theorem Represents.unmarked (rep : Represents (fun _ => False) F L im) {F' : FileTable}
    (after : Accounted F' (Function.update L i .empty) t) (held : im.Holds i id) :
    t.bm.usingBlocks id = 0 := by
  by_contra marked
  obtain ⟨j, -, owned⟩ := after id marked
  by_cases here : j = i
  · rw [here, Function.update_self] at owned
    simp at owned
  · rw [Function.update_of_ne here] at owned
    exact rep.apart j i here id owned (rep.holds_iff.mp held).2

/-- A whole run. -/
theorem Run.accounted {nblocks : UInt32} {now : Clock} {trace : List (Op × Reply)}
    (run : Run (fun im op => (op.Valid im ∧ op.ZeroFilled) ∧ op.Frees im)
      (.fresh nblocks Inode.zero now) trace t) :
    ∃ F L, Represents (fun _ => False) F L t ∧ Accounted F L t := by
  induction run with
  | nil =>
    obtain ⟨-, L, rep, accounted⟩ := construct_eq nblocks Inode.zero now
    rw [Op.leftover_zero (.alloc T_DIR Inode.zero now) rfl] at rep
    exact ⟨_, L, rep, accounted⟩
  | step before op admitted returned below ih =>
    obtain ⟨F, L, rep, accounted⟩ := ih
    obtain ⟨⟨valid, zero⟩, frees⟩ := admitted
    obtain ⟨F', L', after, kept, -⟩ := rep.conserved_step accounted valid zero returned below
    exact ⟨F', L', after, kept.mpr frees⟩

end

/-- In every state that a run reaches without removing a file that has an indirect
block, the marked blocks are those that exactly one live inum has. A further call
keeps this, and leaves no block of a file it removes marked, exactly if it does
not remove such a file either. -/
theorem conserved_iff_frees {nblocks : UInt32} {now : Clock} {trace : List (Op × Reply)}
    {t : InodeManager} (run : Run (fun im op => (op.Valid im ∧ op.ZeroFilled) ∧ op.Frees im)
      (.fresh nblocks Inode.zero now) trace t) :
    t.Conserved ∧ ∀ (op : Op) (events : List UInt32) (r : Reply) (u : InodeManager),
      op.Valid t → op.ZeroFilled → op.run t = (events, .ok (r, u)) →
      (∀ id ∈ events, id.toNat < BLOCK_NUM) →
      ((u.Conserved ∧ ∀ i, op = .remove i → ∀ id, t.Holds i id → u.bm.usingBlocks id = 0) ↔
        op.Frees t) := by
  obtain ⟨F, L, rep, accounted⟩ := run.accounted
  refine ⟨rep.conserved_iff.mpr accounted, fun op events r u valid zero returned below => ?_⟩
  obtain ⟨F', L', after, kept, removed⟩ := rep.conserved_step accounted valid zero returned below
  constructor
  · rintro ⟨conserved, -⟩
    exact kept.mp (after.conserved_iff.mp conserved)
  · intro frees
    have accounted' := kept.mpr frees
    refine ⟨after.conserved_iff.mpr accounted', fun i same id held => ?_⟩
    rw [removed i same] at accounted'
    exact rep.unmarked accounted' held

private def dawn : Clock := { atime := 9, mtime := 10, ctime := 11 }
private def scratchAlloc : Op := .alloc T_FILE Inode.zero dawn
private def narrowWrite : Op := .write 2 (fun _ => 4) 5 dawn
private def wideWrite : Op := .write 2 (fun _ => 4) 51202 dawn
private def unlinked : Op := .remove 2

private def allocated : InodeManager := scratchAlloc.after (.fresh 0 Inode.zero dawn)
private def narrow : InodeManager := narrowWrite.after allocated
private def wide : InodeManager := wideWrite.after allocated

private theorem allocated_run : Run (fun im op => (op.Valid im ∧ op.ZeroFilled) ∧ op.Frees im)
    (.fresh 0 Inode.zero dawn) [(scratchAlloc, .inum 2)] allocated :=
  .step .nil scratchAlloc ⟨⟨.inr (.inl rfl), rfl⟩, trivial⟩
    (Op.run_eq [] (.inum 2) (by decide +kernel)) (by simp)

private theorem wide_run : Run (fun im op => (op.Valid im ∧ op.ZeroFilled) ∧ op.Frees im)
    (.fresh 0 Inode.zero dawn) [(scratchAlloc, .inum 2), (wideWrite, .done)] wide :=
  allocated_run.step wideWrite ⟨⟨⟨by decide +kernel, by decide⟩, trivial⟩, trivial⟩
    (Op.run_eq ((List.range 102).map fun k => .ofNat (2064 + k)) .done (by decide +kernel))
    (below_of_all (by decide +kernel))

/-- The data block of a short file is free once the file is removed. -/
theorem conserved_iff_frees_narrow : narrow.Holds 2 2064 ∧ (unlinked.after narrow).Conserved ∧
    (unlinked.after narrow).bm.usingBlocks 2064 = 0 := by
  have run := allocated_run.step narrowWrite ⟨⟨⟨by decide +kernel, by decide⟩, trivial⟩, trivial⟩
    (Op.run_eq [2064] .done (by decide +kernel)) (below_of_all (by decide +kernel))
  obtain ⟨node, read, block⟩ := firstBlock narrow 2 2064 (by decide +kernel)
  have held : narrow.Holds 2 2064 := ⟨node, read, .inl block⟩
  have returned : unlinked.run narrow = ([], .ok (.done, unlinked.after narrow)) :=
    Op.run_eq [] .done (by decide +kernel)
  have frees : unlinked.Frees narrow := by
    intro node read
    rw [getInode_live (by decide +kernel) (by decide) (by decide +kernel)] at read
    cases read
    decide +kernel
  obtain ⟨conserved, freed⟩ := ((conserved_iff_frees run).2 unlinked [] .done _
    (by decide +kernel : narrow.live 2 = true) trivial returned (by simp)).mpr frees
  exact ⟨held, conserved, freed 2 rfl 2064 held⟩

/-- A file of 101 data blocks is removed, and its indirect block stays marked. -/
theorem remove_keeps_indirect : ∃ trace t u,
    Run (fun im op => op.Valid im ∧ op.ZeroFilled) (.fresh 0 Inode.zero dawn) trace t ∧
      unlinked.Valid t ∧ unlinked.run t = ([], .ok (.done, u)) ∧
      t.Holds 2 2165 ∧ u.bm.usingBlocks 2165 ≠ 0 ∧ ¬ u.Conserved := by
  have ⟨nblocks, type, pointer⟩ : wide.bm.nblocks = .ofNat BLOCK_NUM ∧
      (nodeAt wide.bm.disk 2).type ≠ 0 ∧ (nodeAt wide.bm.disk 2).blocks (Fin.last NDIRECT) = 2165 := by
    decide +kernel
  have ⟨answer, marked⟩ : unlinked.answer wide = ([], some .done) ∧
      (unlinked.after wide).bm.usingBlocks 2165 ≠ 0 := by decide +kernel
  have returned := Op.run_eq [] .done answer
  have read := getInode_live nblocks (by decide) type
  have live : unlinked.Valid wide := by simp [unlinked, Op.Valid, InodeManager.live, read]
  obtain ⟨F, L, rep, accounted⟩ := wide_run.accounted
  obtain ⟨F', L', after, kept, -⟩ := rep.conserved_step accounted live trivial returned (by simp)
  refine ⟨_, wide, _, wide_run.mono fun _ _ admitted => admitted.1, live, returned,
    ⟨_, read, .inr ⟨by rw [pointer]; decide, pointer⟩⟩, marked, fun conserved => ?_⟩
  have unset := kept.mp (after.conserved_iff.mp conserved) _ read
  rw [pointer] at unset
  exact absurd unset (by decide)

end Yfs.Store
