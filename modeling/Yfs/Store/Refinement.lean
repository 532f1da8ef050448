import Yfs.Store.Operations

/-! Runs of the inode layer from a freshly constructed manager follow the table of
files. -/

namespace Yfs.Store

open Yfs.Lib BlockManager InodeManager

/-- `get_inode` finds an inode. -/
def InodeManager.live (im : InodeManager) (i : Nat) : Bool :=
  match (getInode i im).2 with
  | .ok (some _, _) => true
  | _ => false

/-- Runs in which each call is allowed in the state it meets, returns, and
allocates blocks below `BLOCK_NUM` only. -/
inductive Run (allowed : InodeManager → Op → Prop) (im : InodeManager) :
    List (Op × Reply) → InodeManager → Prop where
  | nil : Run allowed im [] im
  | step (before : Run allowed im trace t) (op : Op) (admitted : allowed t op)
      (returned : op.run t = (events, .ok (r, u))) (below : ∀ id ∈ events, id.toNat < BLOCK_NUM) :
      Run allowed im (trace ++ [(op, r)]) u

theorem Run.mono {allowed allowed' : InodeManager → Op → Prop} {im t : InodeManager}
    {trace : List (Op × Reply)} (run : Run allowed im trace t)
    (weaker : ∀ s op, allowed s op → allowed' s op) : Run allowed' im trace t := by
  induction run with
  | nil => exact .nil
  | step before op admitted returned below ih => exact ih.step op (weaker _ op admitted) returned below

/-- Runs of the table of files. -/
inductive FileTable.Run (F : FileTable) : List (Op × Reply) → FileTable → Prop where
  | nil : Run F [] F
  | step (before : Run F trace G) (taken : G.Step op r H) : Run F (trace ++ [(op, r)]) H

/-- The table with the root directory only. -/
def FileTable.root (now : Clock) : FileTable :=
  Function.update (fun _ => none) 1 (some (.new T_DIR now))

/-- Memory filled with zero bytes. -/
def Inode.zero : Inode :=
  { type := 0, size := 0, atime := 0, mtime := 0, ctime := 0, blocks := fun _ => 0 }

section Runs

variable {stale : Nat → Prop} {F : FileTable} {L : Nat → Layout} {im t : InodeManager}

theorem create_represents (nblocks : UInt32) :
    Represents (fun _ => False) (fun _ => none) (fun _ => .empty) (InodeManager.create nblocks) := by
  refine ⟨.create nblocks, ⟨le_refl _, ?_⟩, fun i _ => ⟨rfl, rfl⟩, by simp, by simp, by simp,
    fun _ _ => rfl⟩
  simp [InodeManager.create, INODE_NUM]

/-- The manager after construction. -/
def InodeManager.fresh (nblocks : UInt32) (memory : Inode) (now : Clock) : InodeManager :=
  match (construct memory now (InodeManager.create nblocks)).2 with
  | .ok (_, im) => im
  | .error _ => InodeManager.create nblocks

/-- The constructor returns with the root directory at inum 1. -/
theorem construct_does (nblocks : UInt32) (memory : Inode) (now : Clock) :
    Does (construct memory now) (InodeManager.create nblocks) fun _ t =>
      ∃ L, Represents ((Op.alloc T_DIR memory now).leftover (fun _ => False) (.inum 1))
        (.root now) L t ∧ Accounted (.root now) L t := by
  have rep := create_represents nblocks
  refine .seq (.seq (rep.findInum_next (by simp [InodeManager.create, INODE_NUM]) rfl ?_))
  refine rep.place (.inl rfl) memory now ⟨le_refl _, by simp [INODE_NUM]⟩ fun t after marks => .pure
    ⟨_, after, fun id marked => absurd ?_ marked⟩
  rw [marks]
  rfl

theorem readBlock_silent (id : UInt32) : (readBlock id).Silent := by
  intro im
  unfold readBlock
  split <;> rfl

theorem getInode_silent (i : Nat) : (getInode i).Silent := by
  unfold getInode
  split
  · exact .pure
  · refine .bind .get fun im => .bind (readBlock_silent _) fun buf => ?_
    dsimp only
    split
    · exact .pure
    · exact .pure

theorem putInode_silent (i : Nat) (node : Inode) : (putInode i node).Silent :=
  .bind .get fun _ => .bind (readBlock_silent _) fun _ => .modify

theorem scan_silent (count : Nat) : ∀ i, (InodeManager.scan i count).Silent := by
  induction count with
  | zero => exact fun _ => .pure
  | succ count ih =>
    intro i
    refine .bind (getInode_silent i) fun found => ?_
    cases found with
    | none => exact .pure
    | some node =>
      dsimp only
      split
      · exact .pure
      · exact ih (i + 1)

/-- `alloc_inode` allocates no block. -/
theorem allocInode_silent (type : UInt32) (memory : Inode) (now : Clock) :
    (allocInode type memory now).Silent := by
  refine .bind (.bind .get fun im => .bind (scan_silent _ _) fun found => ?_) fun found => ?_
  · cases found with
    | none => exact scan_silent _ _
    | some inum => exact .pure
  · cases found with
    | none => exact .pure
    | some inum => exact .bind (putInode_silent _ _) fun _ => .bind .modify fun _ => .pure

theorem construct_silent (memory : Inode) (now : Clock) : (construct memory now).Silent := by
  refine .bind (allocInode_silent _ _ _) fun root => ?_
  split
  · exact .throw
  · exact .pure

theorem construct_eq (nblocks : UInt32) (memory : Inode) (now : Clock) :
    construct memory now (InodeManager.create nblocks) = ([], .ok ((), .fresh nblocks memory now)) ∧
      ∃ L, Represents ((Op.alloc T_DIR memory now).leftover (fun _ => False) (.inum 1)) (.root now) L
        (.fresh nblocks memory now) ∧ Accounted (.root now) L (.fresh nblocks memory now) := by
  obtain ⟨_, im, built, rep⟩ := (construct_does nblocks memory now).returns (construct_silent _ _)
  have same : InodeManager.fresh nblocks memory now = im := by
    unfold fresh
    generalize construct memory now (InodeManager.create nblocks) = out at built
    rw [built]
  rw [same]
  exact ⟨built, rep⟩

theorem Represents.live_iff (rep : Represents stale F L im) (i : Nat) :
    im.live i = true ↔ F i ≠ none := by
  by_cases range : i < INODE_NUM
  · rw [live, getInode_eq rep.sound.nblocks range, Ne, ← rep.dead_iff range]
    by_cases dead : (nodeAt im.bm.disk i).type = 0 <;> simp [dead]
  · rw [rep.outside i fun both => range both.2]
    have outside : getInode i im = ([], .ok (none, im)) := by
      unfold getInode
      rw [if_pos (by omega)]
      rfl
    simp [live, outside]

theorem Represents.node_iff (rep : Represents stale F L im) {i : Nat} {node : Inode} :
    (getInode i im).2 = .ok (some node, im) ↔ ∃ file, F i = some file ∧ node = nodeAt im.bm.disk i := by
  constructor
  · intro read
    have live : im.live i = true := by simp [InodeManager.live, read]
    obtain ⟨file, found⟩ := Option.ne_none_iff_exists'.mp ((rep.live_iff i).mp live)
    rw [getInode_eq rep.sound.nblocks (rep.range found).2] at read
    split at read
    · simp at read
    · exact ⟨file, found, by simpa using read.symm⟩
  · rintro ⟨file, found, rfl⟩
    exact getInode_live rep.sound.nblocks (rep.range found).2 (rep.type_ne_zero found)

/-- `get_block_id` finds the data blocks of a live inum below the block count. -/
theorem Represents.data_iff (rep : Represents stale F L im) {i : Nat} {file : File}
    (found : F i = some file) {id : UInt32} :
    id ∈ (L i).data ↔ ∃ k < blockCount (nodeAt im.bm.disk i).size.toNat,
      (getBlockId (nodeAt im.bm.disk i) k im).2 = .ok (id, im) := by
  have stored := rep.stored found
  have onDisk (block) (present : (L i).indirect = some block) :=
    (rep.working found).indirect_onDisk present
  rw [stored.size, ← stored.count, List.mem_iff_getElem]
  refine exists_congr fun k => ?_
  constructor
  · rintro ⟨inside, same⟩
    refine ⟨inside, ?_⟩
    rw [getBlockId_eq stored.maps onDisk (List.getElem?_eq_getElem inside), same]
  · rintro ⟨inside, returned⟩
    rw [getBlockId_eq stored.maps onDisk (List.getElem?_eq_getElem inside)] at returned
    simp only [Except.ok.injEq, Prod.mk.injEq, and_true] at returned
    exact ⟨inside, returned⟩

/-- The first direct block of a live inum that is not empty. -/
theorem InodeManager.firstBlock (im : InodeManager) (i : Nat) (id : UInt32)
    (evidence : im.bm.nblocks = .ofNat BLOCK_NUM ∧ i < INODE_NUM ∧ (nodeAt im.bm.disk i).type ≠ 0 ∧
      0 < blockCount (nodeAt im.bm.disk i).size.toNat ∧ (nodeAt im.bm.disk i).blocks 0 = id) :
    ∃ node, (getInode i im).2 = .ok (some node, im) ∧
      ∃ k < blockCount node.size.toNat, (getBlockId node k im).2 = .ok (id, im) := by
  obtain ⟨nblocks, range, live, long, block⟩ := evidence
  refine ⟨_, getInode_live nblocks range live, 0, long, ?_⟩
  rw [← block, getBlockId, dif_pos (by decide)]
  rfl

/-- Calls on live inums, with sizes that fit. -/
def Op.Valid (im : InodeManager) : Op → Prop
  | .alloc type _ _ => type = T_DIR ∨ type = T_FILE ∨ type = T_SYMLINK
  | .write i _ size _ => im.live i = true ∧ size ≤ MAXFILE * BLOCK_SIZE
  | .read i _ => im.live i = true
  | .getattr _ _ => True
  | .remove i => im.live i = true

/-- The call does not write through a leftover pointer to an indirect block. -/
def Op.Spares (stale : Nat → Prop) : Op → Prop
  | .write i _ size _ => stale i → size ≤ NDIRECT * BLOCK_SIZE
  | _ => True

/-- One call, with its accounts. -/
theorem Represents.conserves (rep : Represents stale F L im) {op : Op} (valid : op.Valid im)
    (spares : op.Spares stale) : Does op.run im (Conserves stale F L im op) := by
  have live (i) (found : im.live i = true) : ∃ file, F i = some file :=
    Option.ne_none_iff_exists'.mp ((rep.live_iff i).mp found)
  cases op with
  | alloc type memory now => exact rep.alloc valid memory now
  | write i buf size now =>
    obtain ⟨file, found⟩ := live i valid.1
    exact (rep.write found buf valid.2 spares now).mono fun _ _ both => both.1
  | read i now =>
    obtain ⟨file, found⟩ := live i valid
    exact rep.read found now
  | getattr i a => exact rep.getattr i a
  | remove i =>
    obtain ⟨file, found⟩ := live i valid
    exact rep.remove found

/-- One call. -/
theorem Represents.run (rep : Represents stale F L im) {op : Op} (valid : op.Valid im)
    (spares : op.Spares stale) : Does op.run im (Refines stale F op) :=
  (rep.conserves valid spares).mono fun _ _ conserves => conserves.refines

/-- A call that has returned with its blocks below `BLOCK_NUM` did what it does. -/
theorem Does.returned {op : Op} {Q : Reply → InodeManager → Prop} (does : Does op.run im Q)
    (returned : op.run im = (events, .ok (r, t))) (below : ∀ id ∈ events, id.toNat < BLOCK_NUM) :
    Q r t := by
  obtain ⟨r', t', same, holds⟩ := does (by rw [returned]; exact below)
  rw [returned] at same
  cases same
  exact holds

/-- The inums with a leftover pointer after a trace. -/
def leftovers (stale : Nat → Prop) (trace : List (Op × Reply)) : Nat → Prop :=
  trace.foldl (fun stale entry => entry.1.leftover stale entry.2) stale

/-- No call of the trace writes through a leftover pointer. -/
def Guarded (stale : Nat → Prop) : List (Op × Reply) → Prop
  | [] => True
  | (op, r) :: rest => op.Spares stale ∧ Guarded (op.leftover stale r) rest

theorem guarded_append {trace : List (Op × Reply)} {op : Op} {r : Reply} :
    Guarded stale (trace ++ [(op, r)]) ↔ Guarded stale trace ∧ op.Spares (leftovers stale trace) := by
  induction trace generalizing stale with
  | nil => simp [Guarded, leftovers]
  | cons entry rest ih => simp [Guarded, leftovers, ih, and_assoc]

theorem leftovers_append {trace : List (Op × Reply)} {op : Op} {r : Reply} :
    leftovers stale (trace ++ [(op, r)]) = op.leftover (leftovers stale trace) r := by
  simp [leftovers]

/-- A whole run. -/
theorem Run.represents (rep : Represents stale F L im)
    (run : Run (fun im op => op.Valid im) im trace t) (guarded : Guarded stale trace) :
    ∃ G L', F.Run trace G ∧ Represents (leftovers stale trace) G L' t := by
  induction run with
  | nil => exact ⟨F, L, .nil, rep⟩
  | step before op admitted returned below ih =>
    obtain ⟨earlier, spares⟩ := guarded_append.mp guarded
    obtain ⟨G, L', followed, rep'⟩ := ih earlier
    obtain ⟨H, L'', step, after⟩ := Does.returned (rep'.run admitted spares) returned below
    rw [leftovers_append]
    exact ⟨H, L'', followed.step step, after⟩

end Runs

/-- `malloc` returns zero-filled memory to the call. -/
def Op.ZeroFilled : Op → Prop
  | .alloc _ memory _ => memory = Inode.zero
  | _ => True

theorem Op.leftover_zero (op : Op) (zero : op.ZeroFilled) (r : Reply) :
    op.leftover (fun _ => False) r = fun _ => False := by
  cases op with
  | alloc type memory now =>
    cases r with
    | inum i =>
      have memory_zero : memory = Inode.zero := zero
      funext j
      by_cases same : j = i <;> simp [Op.leftover, memory_zero, Inode.zero, same]
    | _ => rfl
  | _ => rfl

theorem Op.spares_clean (op : Op) : op.Spares fun _ => False := by
  cases op <;> simp [Op.Spares]

/-- With zero-filled memory nothing is left over. -/
theorem Run.clean {im t : InodeManager} {trace : List (Op × Reply)}
    (run : Run (fun im op => op.Valid im ∧ op.ZeroFilled) im trace t) :
    Run (fun im op => op.Valid im) im trace t ∧ Guarded (fun _ => False) trace ∧
      leftovers (fun _ => False) trace = fun _ => False := by
  induction run with
  | nil => exact ⟨.nil, trivial, rfl⟩
  | step before op admitted returned below ih =>
    obtain ⟨valid, guarded, clean⟩ := ih
    refine ⟨.step valid op admitted.1 returned below, guarded_append.mpr ⟨guarded, ?_⟩, ?_⟩
    · rw [clean]
      exact Op.spares_clean _
    · rw [leftovers_append, clean]
      exact op.leftover_zero admitted.2 _

/-- The inode layer refines the table of files. Every run of calls with zero-filled
memory from a fresh manager answers as the table does; in the state it reaches
the live inums are those of the table, and every further call returns with an
answer of the table. -/
theorem refines_fileTable {nblocks : UInt32} {now : Clock} {trace : List (Op × Reply)}
    {t : InodeManager} (run : Run (fun im op => op.Valid im ∧ op.ZeroFilled)
      (.fresh nblocks Inode.zero now) trace t) :
    ∃ F, (FileTable.root now).Run trace F ∧ (∀ i, t.live i = true ↔ F i ≠ none) ∧
      ∀ op : Op, op.Valid t → op.ZeroFilled → Does op.run t fun r _ => ∃ G, F.Step op r G := by
  obtain ⟨-, L, rep, -⟩ := construct_eq nblocks Inode.zero now
  rw [Op.leftover_zero (.alloc T_DIR Inode.zero now) rfl] at rep
  obtain ⟨valid, guarded, clean⟩ := run.clean
  obtain ⟨F, L', followed, after⟩ := valid.represents rep guarded
  rw [clean] at after
  refine ⟨F, followed, after.live_iff, fun op valid _ => (after.run valid op.spares_clean).mono ?_⟩
  rintro r _ ⟨G, _, step, _⟩
  exact ⟨G, step⟩

/-- The blocks a call allocates and its answer. -/
def Op.answer (op : Op) (im : InodeManager) : List UInt32 × Option Reply :=
  ((op.run im).1, match (op.run im).2 with
    | .ok (r, _) => some r
    | .error _ => none)

/-- The state after a call. -/
def Op.after (op : Op) (im : InodeManager) : InodeManager :=
  match (op.run im).2 with
  | .ok (_, t) => t
  | .error _ => im

theorem Op.run_eq {op : Op} {im : InodeManager} (events : List UInt32) (r : Reply)
    (same : op.answer im = (events, some r)) : op.run im = (events, .ok (r, op.after im)) := by
  rw [answer] at same
  rw [after]
  generalize op.run im = out at same
  rcases out with ⟨emitted, fault | ⟨r', t⟩⟩
  · simp at same
  · simp only [Prod.mk.injEq, Option.some.injEq] at same
    rw [same.1, same.2]

theorem below_of_all {events : List UInt32}
    (all : (events.all fun id => decide (id.toNat < BLOCK_NUM)) = true) :
    ∀ id ∈ events, id.toNat < BLOCK_NUM := by
  simpa using all

private def noon : Clock := { atime := 5, mtime := 6, ctime := 7 }
private def sampleAlloc : Op := .alloc T_FILE Inode.zero noon
private def sampleWrite : Op := .write 2 (fun k => .ofNat (7 + k)) 3 noon
private def sampleRead : Op := .read 2 noon

theorem refines_fileTable_written : ∃ F, (FileTable.root noon).Run
    [(sampleAlloc, .inum 2), (sampleWrite, .done), (sampleRead, .data [7, 8, 9] 3)] F := by
  have first : Run (fun im op => op.Valid im ∧ op.ZeroFilled) (.fresh 0 Inode.zero noon)
      [(sampleAlloc, .inum 2)] (sampleAlloc.after (.fresh 0 Inode.zero noon)) :=
    .step .nil sampleAlloc ⟨.inr (.inl rfl), rfl⟩ (Op.run_eq [] (.inum 2) (by decide +kernel)) (by simp)
  have second := first.step sampleWrite ⟨⟨by decide +kernel, by decide⟩, trivial⟩
    (Op.run_eq [2064] .done (by decide +kernel)) (below_of_all (by decide +kernel))
  have third := second.step sampleRead
    ⟨(by decide +kernel : InodeManager.live _ 2 = true), trivial⟩
    (Op.run_eq [] (.data [7, 8, 9] 3) (by decide +kernel)) (by simp)
  obtain ⟨F, followed, -⟩ := refines_fileTable third
  exact ⟨F, followed⟩

end Yfs.Store
