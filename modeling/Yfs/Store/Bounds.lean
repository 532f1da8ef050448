import Yfs.Store.Isolation

/-! `extent_server::put` of a string of any length. `write_file` takes the size as an
`int`, and no check keeps the file below the size that an inode can address. -/

namespace Yfs.Store

open Yfs.Lib BlockManager InodeManager

/-- `extent_protocol::xxstatus`. -/
inductive ExtentStatus where
  | ok | rpcerr | noent | ioerr
  deriving DecidableEq, Repr

/-- The faults of the inode layer, and those of a negative size: an index before the
start of `node->blocks`, and a negative length given to `memset`. -/
inductive SizeFault where
  | store (fault : Fault)
  | negativeIndex
  | negativeLength
  deriving DecidableEq, Repr

/-- `NBLOCKS(size)` in the arithmetic of `int`, which rounds towards zero; `size - 1` wraps around
at the least `int`. -/
def intBlocks (size : Int) : Int :=
  if size = 0 then 0 else (Int.bmod (size - 1) (2 ^ 32)).tdiv BLOCK_SIZE + 1

/-- `int size = buf.size();` -/
def intSize (length : Nat) : Int := Int.bmod length (2 ^ 32)

namespace InodeManager

/-- `bm->write_block(get_block_id(node, index), buf + BLOCK_SIZE * index, bsize)`. -/
def writeChunk (node : Inode) (buf : Nat → UInt8) (index : Nat) (bsize : Int) :
    Act UInt32 SizeFault InodeManager Unit := do
  let id ← (getBlockId node index).mapFault .store
  if bsize < 0 ∧ id.toNat < BLOCK_NUM then Act.throw .negativeLength
  else (writeBlock id (fun k => buf (BLOCK_SIZE * index + k)) bsize.toNat).mapFault .store

/-- `inode_manager::write_file` with a size that may be negative. -/
def writeFileInt (inum : Nat) (buf : Nat → UInt8) (size : Int) (now : Clock) :
    Act UInt32 SizeFault InodeManager Unit := do
  let node ← (getInode inum >>= deref).mapFault .store
  let oldBlocks := blockCount node.size.toNat
  let newBlocks := intBlocks size
  let node := { node with size := .ofInt size }
  let node ← Act.loop (newBlocks - oldBlocks).toNat (fun index node => (do
    let id ← allocBlock
    setBlockId node (oldBlocks + index) id).mapFault .store) node
  Act.loop (oldBlocks - newBlocks).toNat (fun index _ => do
    if newBlocks + index < 0 then Act.throw .negativeIndex
    else (do freeBlock (← getBlockId node (newBlocks + index).toNat)).mapFault .store) ()
  Act.loop newBlocks.toNat (fun index _ =>
    writeChunk node buf index (if index = newBlocks - 1 then size - index * BLOCK_SIZE else BLOCK_SIZE)) ()
  (putInode inum { node with atime := now.atime, mtime := now.mtime, ctime := now.ctime }).mapFault .store

theorem intBlocks_natCast {size : Nat} (small : size < 2 ^ 31) : intBlocks size = blockCount size := by
  unfold intBlocks blockCount NBLOCKS
  by_cases empty : size = 0
  · simp [empty]
  · have positive : ((size : Int) - 1) = ((size - 1 : Nat) : Int) := by omega
    have within : Int.bmod ((size - 1 : Nat) : Int) (2 ^ 32) = ((size - 1 : Nat) : Int) :=
      Int.bmod_eq_of_le (by omega) (by omega)
    rw [if_neg (by exact_mod_cast empty), if_neg empty, positive, within, ← Int.ofNat_tdiv]
    rfl

theorem writeChunk_natCast (node : Inode) (buf : Nat → UInt8) (index bsize : Nat) :
    writeChunk node buf index bsize =
      (do
        writeBlock (← getBlockId node index)
          (fun k => buf (BLOCK_SIZE * index + k)) bsize).mapFault .store := by
  have positive : ¬ (bsize : Int) < 0 := by omega
  simp only [writeChunk, positive, false_and, if_false, Int.toNat_natCast, Act.mapFault_bind]

/-- The chunks of a size that is not negative have lengths that are not negative. -/
theorem chunk_natCast {size k : Nat} (inside : k < blockCount size) :
    (if (k : Int) = blockCount size - 1 then (size : Int) - k * BLOCK_SIZE else BLOCK_SIZE) =
      ((if k = blockCount size - 1 then size - k * BLOCK_SIZE else BLOCK_SIZE : Nat) : Int) := by
  have reached : k * BLOCK_SIZE < size := by
    by_contra short
    exact absurd (blockCount_le.mpr (Nat.le_of_not_lt short)) (Nat.not_le_of_lt inside)
  split <;> split <;> omega

/-- For a size that is not negative this is the `write_file` of the inode layer. -/
theorem writeFileInt_natCast (inum : Nat) (buf : Nat → UInt8) {size : Nat} (small : size < 2 ^ 31)
    (now : Clock) :
    writeFileInt inum buf size now = (writeFile inum buf size now).mapFault .store := by
  have allocate (old : Nat) : ((blockCount size : Int) - old).toNat = blockCount size - old := by omega
  have release (old : Nat) : ((old : Int) - blockCount size).toNat = old - blockCount size := by omega
  have inside (k : Nat) : ¬ (blockCount size : Int) + k < 0 := by omega
  have index (k : Nat) : ((blockCount size : Int) + k).toNat = blockCount size + k := by omega
  have writes (node : Inode) : Act.loop (blockCount size) (fun k (_ : Unit) => writeChunk node buf k
        (if (k : Int) = blockCount size - 1 then (size : Int) - k * BLOCK_SIZE else BLOCK_SIZE)) () =
      Act.loop (blockCount size) (fun k _ => (do
        writeBlock (← getBlockId node k) (fun p => buf (BLOCK_SIZE * k + p))
          (if k = blockCount size - 1 then size - k * BLOCK_SIZE else BLOCK_SIZE)).mapFault .store) () := by
    refine Act.loop_congr _ (fun k inside _ => ?_) ()
    rw [chunk_natCast inside, writeChunk_natCast]
  have sized : UInt32.ofInt size = .ofNat size := by
    have wrapped : ((size : Int) % 2 ^ 32).toNat = size % 2 ^ 32 := by omega
    rw [UInt32.ofInt, wrapped, UInt32.ofNat_mod_size]
  simp only [writeFileInt, writeFile, intBlocks_natCast small, allocate, release, inside, index, writes,
    sized, if_false, Int.toNat_natCast, Act.mapFault_bind, Act.mapFault_loop, Act.bind_assoc]

end InodeManager

/-- `extent_server::put`. -/
def ExtentServer.put (id : Nat) (buf : List UInt8) (now : Clock) :
    Act UInt32 SizeFault InodeManager ExtentStatus := do
  writeFileInt (id % 2 ^ 31) (fun k => buf.getD k 0) (intSize buf.length) now
  return .ok

/-- No index behind the end of an indirect block. -/
def Inside (m : Manage α) (im : InodeManager) : Prop :=
  Act.Ensures (fun _ => True) (· ≠ .overrun) m im fun _ _ => True

section Inside

variable {im : InodeManager} {α β : Type}

theorem Inside.bind {m : Manage α} {f : α → Manage β} (first : Inside m im) (rest : ∀ a t, Inside (f a) t) :
    Inside (m >>= f) im := .seq (first.mono fun a t _ => rest a t)

theorem Inside.loop {body : Nat → β → Manage β} (n : Nat) (round : ∀ k < n, ∀ b t, Inside (body k b) t)
    (b : β) :
    Inside (Act.loop n body b) im :=
  Act.Ensures.loop (fun _ _ => True) trivial n fun k small b t _ => round k small b t

theorem inside_pure {a : α} : Inside (pure a) im := .pure trivial

theorem inside_readBlock (id : UInt32) : Inside (readBlock id) im := by
  unfold Inside Act.Ensures readBlock
  split <;> simp

theorem inside_allocBlock : Inside InodeManager.allocBlock im := by
  unfold Inside Act.Ensures InodeManager.allocBlock
  split <;> simp

theorem inside_writeBlock (id : UInt32) (buf : Block) (size : Nat) : Inside (writeBlock id buf size) im :=
  .modify trivial

theorem inside_getInode (i : Nat) : Inside (getInode i) im := by
  unfold getInode
  split
  · exact inside_pure
  · refine Inside.bind (.get trivial) fun s t => Inside.bind (inside_readBlock _) fun buf u => ?_
    dsimp only
    split <;> exact inside_pure

theorem inside_putInode (i : Nat) (node : Inode) : Inside (putInode i node) im :=
  Inside.bind (.get trivial) fun _ _ => Inside.bind (inside_readBlock _) fun _ _ => inside_writeBlock _ _ _

theorem inside_getBlockId (node : Inode) {k : Nat} (fits : k < MAXFILE) : Inside (getBlockId node k) im := by
  unfold getBlockId
  split
  · exact inside_pure
  · refine Inside.bind (inside_readBlock _) fun buf t => ?_
    rw [if_neg (by simp only [MAXFILE] at fits; omega)]
    exact inside_pure

theorem inside_setBlockId (node : Inode) {k : Nat} (id : UInt32) (fits : k < MAXFILE) :
    Inside (setBlockId node k id) im := by
  unfold setBlockId
  split
  · exact inside_pure
  · refine Inside.bind ?_ fun node t => Inside.bind (inside_readBlock _) fun buf u => ?_
    · unfold ensureIndirect
      split
      · exact Inside.bind inside_allocBlock fun _ _ => inside_pure
      · exact inside_pure
    · rw [if_neg (by simp only [MAXFILE] at fits; omega)]
      exact Inside.bind (inside_writeBlock _ _ _) fun _ _ => inside_pure

/-- A call that starts with `get_inode` of a live inum. -/
theorem Inside.live {f : Inode → Manage β} {i : Nat} {node : Inode}
    (found : (getInode i im).2 = .ok (some node, im)) (rest : Inside (f node) im) :
    Inside (getInode i >>= fun result => deref result >>= f) im := by
  refine .seq ⟨(inside_getInode i).1, (inside_getInode i).2.1, ?_⟩
  intro result t returned
  cases found.symm.trans returned
  exact .seq (.pure rest)

theorem inside_readFile {i : Nat} {node : Inode} (found : (getInode i im).2 = .ok (some node, im))
    (fits : node.size.toNat ≤ MAXSIZE) (now : Clock) : Inside (readFile i now) im := by
  have count : blockCount node.size.toNat ≤ MAXFILE := blockCount_le.mpr fits
  refine Inside.live found (Inside.bind (Inside.loop _ (fun k small buf t => ?_) _) fun buf t => ?_)
  · refine Inside.bind (inside_getBlockId node (by omega)) fun id u => ?_
    exact Inside.bind (inside_readBlock id) fun _ _ => inside_pure
  · exact Inside.bind (inside_putInode _ _) fun _ _ => inside_pure

theorem inside_removeFile {i : Nat} {node : Inode} (found : (getInode i im).2 = .ok (some node, im))
    (fits : node.size.toNat ≤ MAXSIZE) : Inside (removeFile i) im := by
  have count : blockCount node.size.toNat ≤ MAXFILE := blockCount_le.mpr fits
  refine Inside.live found (Inside.bind (Inside.loop _ (fun k small _ t => ?_) _) fun _ t => ?_)
  · exact Inside.bind (inside_getBlockId node (by omega)) fun id u => .modify trivial
  · refine Inside.bind (inside_getInode i) fun result u => ?_
    cases result with
    | none => exact inside_pure
    | some node => exact inside_putInode _ _

theorem inside_writeFile {i : Nat} {node : Inode} (found : (getInode i im).2 = .ok (some node, im))
    (fits : node.size.toNat ≤ MAXSIZE) (buf : Nat → UInt8) {size : Nat} (small : size ≤ MAXSIZE)
    (now : Clock) :
    Inside (writeFile i buf size now) im := by
  have old : blockCount node.size.toNat ≤ MAXFILE := blockCount_le.mpr fits
  have new : blockCount size ≤ MAXFILE := blockCount_le.mpr small
  refine Inside.live found (Inside.bind (Inside.loop _ (fun k inside node' t => ?_) _) fun node' t => ?_)
  · exact Inside.bind inside_allocBlock fun id u => inside_setBlockId node' id (by omega)
  · refine Inside.bind (Inside.loop _ (fun k inside _ u => ?_) _) fun _ u => ?_
    · exact Inside.bind (inside_getBlockId node' (by omega)) fun id v => .modify trivial
    · refine Inside.bind (Inside.loop _ (fun k inside _ v => ?_) _) fun _ v => inside_putInode _ _
      exact Inside.bind (inside_getBlockId node' (by omega)) fun id w => inside_writeBlock _ _ _

end Inside

/-- The calls on an inum stay inside the indirect block, and a string that is too long is
refused with nothing changed. -/
structure Bounded (im : InodeManager) (id : Nat) (buf : List UInt8) (now : Clock) : Prop where
  put : (ExtentServer.put id buf now im).2 ≠ .error (.store .overrun)
  read : (readFile (id % 2 ^ 31) now im).2 ≠ .error .overrun
  remove : (removeFile (id % 2 ^ 31) im).2 ≠ .error .overrun
  refuses : MAXSIZE < buf.length → ∃ status t,
    (ExtentServer.put id buf now im).2 = .ok (status, t) ∧ status ≠ .ok ∧ t = im

theorem put_status {im t : InodeManager} {id : Nat} {buf : List UInt8} {now : Clock} {status : ExtentStatus}
    (returned : (ExtentServer.put id buf now im).2 = .ok (status, t)) : status = .ok := by
  obtain ⟨_, _, -, last⟩ := Act.returns_bind.mp returned
  exact (Act.returns_pure.mp last).1

theorem intSize_natCast {length : Nat} (fits : length ≤ MAXSIZE) : intSize length = length := by
  have small : length ≤ 116736 := by
    simpa [MAXSIZE, MAXFILE, NDIRECT, NINDIRECT, BLOCK_SIZE] using fits
  exact Int.bmod_eq_of_le (by omega) (by omega)

theorem put_eq {id : Nat} {buf : List UInt8} (fits : buf.length ≤ MAXSIZE) (now : Clock) :
    ExtentServer.put id buf now = (do
      writeFile (id % 2 ^ 31) (fun k => buf.getD k 0) buf.length now
      return ExtentStatus.ok).mapFault .store := by
  have size := intSize_natCast fits
  have small : buf.length < 2 ^ 31 := Nat.lt_of_le_of_lt fits (by decide)
  simp only [ExtentServer.put, size, writeFileInt_natCast _ _ small, Act.mapFault_bind, Act.mapFault_pure]

theorem bounded_of_fits {im : InodeManager} {id : Nat} {node : Inode}
    (found : (getInode (id % 2 ^ 31) im).2 = .ok (some node, im)) (small : node.size.toNat ≤ MAXSIZE)
    {buf : List UInt8} (fits : buf.length ≤ MAXSIZE) (now : Clock) : Bounded im id buf now := by
  have written : Inside (do
      writeFile (id % 2 ^ 31) (fun k => buf.getD k 0) buf.length now
      return ExtentStatus.ok) im :=
    Inside.bind (inside_writeFile found small _ fits now) fun _ _ => inside_pure
  refine ⟨?_, ?_, ?_, fun long => absurd fits (Nat.not_le_of_lt long)⟩
  · rw [put_eq fits]
    intro overrun
    obtain ⟨early, stopped, same⟩ := Act.mapFault_stops _ overrun
    cases same
    exact written.2.1 _ stopped rfl
  · exact fun overrun => (inside_readFile found small now).2.1 _ overrun rfl
  · exact fun overrun => (inside_removeFile found small).2.1 _ overrun rfl

/-- The size of every live inode after a run that writes no more than fits. -/
theorem Run.size_le {nblocks : UInt32} {memory : Inode} {now : Clock} {trace : List (Op × Reply)}
    {t : InodeManager} (run : Run (fun im op => op.Valid im) (.fresh nblocks memory now) trace t)
    (guarded : Guarded (fun _ => False) (history memory now trace)) {i : Nat} {node : Inode}
    (found : (getInode i t).2 = .ok (some node, t)) : node.size.toNat ≤ MAXSIZE := by
  obtain ⟨-, L, rep, -⟩ := construct_eq nblocks memory now
  obtain ⟨F, L', -, after⟩ := run.represents rep guarded.2
  obtain ⟨file, present, rfl⟩ := after.node_iff.mp found
  have stored := after.stored present
  have fits := stored.maps.fits
  rw [stored.count] at fits
  rw [stored.size]
  exact blockCount_le.mp fits

/-- A string is stored inside the bounds of the indirect block exactly when it is not
longer than an inode can address; no longer one is refused. -/
theorem bounded_iff_fits (buf : List UInt8) (clock : Clock) :
    (∀ im id node, (getInode (id % 2 ^ 31) im).2 = .ok (some node, im) → node.size.toNat ≤ MAXSIZE →
      (Bounded im id buf clock ↔ buf.length ≤ MAXSIZE)) ∧
    ∀ nblocks memory now trace t, Run (fun im op => op.Valid im) (.fresh nblocks memory now) trace t →
      Guarded (fun _ => False) (history memory now trace) →
      ∀ i node, (getInode i t).2 = .ok (some node, t) → node.size.toNat ≤ MAXSIZE := by
  constructor
  · intro im id node found small
    constructor
    · intro bounded
      by_contra long
      obtain ⟨status, t, returned, refused, -⟩ := bounded.refuses (Nat.lt_of_not_le long)
      exact refused (put_status returned)
    · intro fits
      exact bounded_of_fits found small fits clock
  · intro nblocks memory now trace t run guarded i node found
    exact run.size_le guarded found

private def dayClock : Clock := { atime := 21, mtime := 22, ctime := 23 }

private theorem fresh_root : ∃ node, (getInode 1 (.fresh 0 Inode.zero dayClock)).2 =
    .ok (some node, .fresh 0 Inode.zero dayClock) ∧ node.size.toNat ≤ MAXSIZE := by
  obtain ⟨-, L, rep, -⟩ := construct_eq 0 Inode.zero dayClock
  have root : FileTable.root dayClock 1 = some (.new T_DIR dayClock) := rfl
  refine ⟨_, rep.node_iff.mpr ⟨_, root, rfl⟩, ?_⟩
  rw [(rep.stored root).size]
  exact Nat.zero_le _

theorem bounded_iff_fits_root : Bounded (.fresh 0 Inode.zero dayClock) 1 [7] dayClock := by
  obtain ⟨node, found, small⟩ := fresh_root
  exact ((bounded_iff_fits [7] dayClock).1 _ 1 node found small).mpr (by decide)

/-- One byte more than an inode can address, put to the empty root. -/
theorem long_put_not_bounded :
    ¬ Bounded (.fresh 0 Inode.zero dayClock) 1 (List.replicate (MAXSIZE + 1) 7) dayClock := by
  intro bounded
  have long : MAXSIZE < (List.replicate (MAXSIZE + 1) (7 : UInt8)).length := by simp
  obtain ⟨status, t, returned, refused, -⟩ := bounded.refuses long
  exact refused (put_status returned)

end Yfs.Store
