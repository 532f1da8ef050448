import Yfs.Store.FileTable

/-! Each call of the inode layer takes a manager that represents a table of files
to one that represents the table after the call. -/

namespace Yfs.Store

open Yfs.Lib BlockManager InodeManager

namespace InodeManager

variable {im : InodeManager} {i : Nat}

theorem toNat_inodeBlock (nblocks : im.bm.nblocks = .ofNat BLOCK_NUM) (range : i < INODE_NUM) :
    (im.inodeBlock i).toNat = IBLOCK i BLOCK_NUM := by
  simp only [INODE_NUM] at range
  rw [inodeBlock, nblocks]
  have same : IBLOCK i (UInt32.ofNat BLOCK_NUM).toNat = IBLOCK i BLOCK_NUM := rfl
  rw [same, iblock_eq, UInt32.toNat_ofNat_of_lt' (by simp [UInt32.size]; omega)]

theorem inodeBlock_onDisk (nblocks : im.bm.nblocks = .ofNat BLOCK_NUM) (range : i < INODE_NUM) :
    (im.inodeBlock i).toNat < BLOCK_NUM := by
  rw [toNat_inodeBlock nblocks range, iblock_eq]
  simp only [INODE_NUM, BLOCK_NUM] at range ⊢
  omega

theorem getInode_eq (nblocks : im.bm.nblocks = .ofNat BLOCK_NUM) (range : i < INODE_NUM) : getInode i im =
    ([], .ok (if (nodeAt im.bm.disk i).type = 0 then none else some (nodeAt im.bm.disk i), im)) := by
  have onDisk := inodeBlock_onDisk nblocks range
  have decoded : Inode.decode (im.bm.disk.readBlock (im.inodeBlock i) fun _ => 0) =
      nodeAt im.bm.disk i := by
    refine decode_congr fun k small => ?_
    rw [Disk.readBlock, if_neg (by omega), copy, if_pos (by omega), toNat_inodeBlock nblocks range,
      Nat.sub_zero]
  simp only [getInode, Nat.not_le.mpr range, if_false, bind, Act.bind, Act.get, readBlock,
    Nat.not_le.mpr onDisk, decoded, List.nil_append]
  split <;> rfl

theorem getInode_live (nblocks : im.bm.nblocks = .ofNat BLOCK_NUM) (range : i < INODE_NUM)
    (live : (nodeAt im.bm.disk i).type ≠ 0) :
    (getInode i im).2 = .ok (some (nodeAt im.bm.disk i), im) := by
  rw [getInode_eq nblocks range, if_neg live]

theorem getInode_does (nblocks : im.bm.nblocks = .ofNat BLOCK_NUM) (range : i < INODE_NUM)
    {Q : Option Inode → InodeManager → Prop}
    (holds : Q (if (nodeAt im.bm.disk i).type = 0 then none else some (nodeAt im.bm.disk i)) im) :
    Does (getInode i) im Q := fun _ => ⟨_, im, by rw [getInode_eq nblocks range], holds⟩

/-- `put_inode` changes the block of its own inode only. -/
theorem putInode_does {node : Inode} (nblocks : im.bm.nblocks = .ofNat BLOCK_NUM) (range : i < INODE_NUM)
    {Q : Unit → InodeManager → Prop}
    (holds : ∀ d : Disk, (∀ b, b ≠ IBLOCK i BLOCK_NUM → d b = im.bm.disk b) → nodeAt d i = node →
      Q () (im.setDisk d)) : Does (putInode i node) im Q := by
  unfold putInode
  refine .seq (.get (.seq (readBlock_does (inodeBlock_onDisk nblocks range) fun buf _ => ?_)))
  refine writeBlock_does (inodeBlock_onDisk nblocks range) fun d written => holds d ?_ ?_
  · intro b different
    funext k
    rw [written, toNat_inodeBlock nblocks range, if_neg fun both => different both.1]
  · have stored : ∀ k < BLOCK_SIZE, d (IBLOCK i BLOCK_NUM) k = node.encode buf k := fun k small => by
      rw [written, if_pos ⟨(toNat_inodeBlock nblocks range).symm, small⟩]
    rw [nodeAt, decode_congr stored, decode_encode]

/-- The inode scan returns the first dead inum of its range. -/
theorem scan_does (sound : im.bm.Sound) {count : Nat} (range : i + count ≤ INODE_NUM) :
    Does (InodeManager.scan i count) im fun found t => t = im ∧
      match found with
      | some inum => i ≤ inum ∧ inum < i + count ∧ (nodeAt im.bm.disk inum).type = 0
      | none => ∀ inum, i ≤ inum → inum < i + count → (nodeAt im.bm.disk inum).type ≠ 0 := by
  induction count generalizing i with
  | zero => exact .pure ⟨rfl, fun inum low high => by omega⟩
  | succ count ih =>
    refine .seq (getInode_does sound.nblocks (by omega) ?_)
    by_cases dead : (nodeAt im.bm.disk i).type = 0
    · rw [if_pos dead]
      exact .pure ⟨rfl, le_refl _, by omega, dead⟩
    · simp only [dead, if_false]
      refine (ih (i := i + 1) (by omega)).mono ?_
      rintro found t ⟨rfl, outcome⟩
      refine ⟨rfl, ?_⟩
      cases found with
      | some inum => exact ⟨by omega, by omega, outcome.2.2⟩
      | none =>
        intro inum low high
        by_cases same : inum = i
        · rw [same]
          exact dead
        · exact outcome inum (by omega) (by omega)

end InodeManager

section Represents

variable {stale : Nat → Prop} {F : FileTable} {L : Nat → Layout} {im : InodeManager} {i : Nat}
  {file : File}

theorem Represents.dead_iff (rep : Represents stale F L im) (range : i < INODE_NUM) :
    (nodeAt im.bm.disk i).type = 0 ↔ F i = none := by
  have slot := rep.slot i range
  cases found : F i with
  | none => simpa [found, Slot] using (found ▸ slot : Slot _ _ _ _ none).1
  | some file =>
    rw [found] at slot
    rw [slot.type]
    refine iff_of_false ?_ (by simp)
    rcases slot.kind with kind | kind | kind <;> rw [kind] <;> decide

theorem Represents.range (rep : Represents stale F L im) (found : F i = some file) :
    1 ≤ i ∧ i < INODE_NUM := by
  by_contra outside
  rw [rep.outside i outside] at found
  cases found

theorem Represents.stored (rep : Represents stale F L im) (found : F i = some file) :
    Stored (¬ stale i) im.bm.disk i file (L i) := by
  have slot := rep.slot i (rep.range found).2
  rwa [found] at slot

theorem Represents.type_ne_zero (rep : Represents stale F L im) (found : F i = some file) :
    (nodeAt im.bm.disk i).type ≠ 0 := by
  rw [Ne, rep.dead_iff (rep.range found).2, found]
  simp

/-- What a call on inum `i` has to keep. -/
def context (stale : Nat → Prop) (L : Nat → Layout) (im : InodeManager) (i : Nat) : Context :=
  { others := fun id => ∃ j, j ≠ i ∧ id ∈ (L j).owned, clean := ¬ stale i, disk := im.bm.disk,
    nextInum := im.nextInum }

theorem Represents.working (rep : Represents stale F L im) (found : F i = some file) :
    Working (context stale L im i) (nodeAt im.bm.disk i) (L i) im := by
  refine ⟨rep.sound, (rep.stored found).maps, rep.nodup i, rep.marked i, ?_, fun _ _ => rfl, rfl⟩
  rintro id ⟨j, different, owned⟩
  exact ⟨rep.marked j id owned, rep.apart j i different id owned⟩

theorem Accounted.tight (accounted : Accounted F L im) : Tight (context stale L im i) (L i) im := by
  intro id marked
  obtain ⟨j, -, owned⟩ := accounted id marked
  by_cases here : j = i
  · exact .inr (here ▸ owned)
  · exact .inl ⟨j, here, owned⟩

/-- The other files keep their blocks. -/
theorem Represents.accounted_others (rep : Represents stale F L im) (accounted : Accounted F L im)
    {l : Layout} {f : Option File} {id : UInt32} (other : (context stale L im i).others id) :
    ∃ j, Function.update F i f j ≠ none ∧ id ∈ (Function.update L i l j).owned := by
  obtain ⟨j, different, owned⟩ := other
  obtain ⟨k, live, owner⟩ := accounted id (rep.marked j id owned)
  have same : k = j := by
    by_contra apart
    exact rep.apart j k (Ne.symm apart) id owned owner
  subst same
  exact ⟨k, by simpa [different] using live, by simpa [different] using owner⟩

theorem Represents.accounted_update (rep : Represents stale F L im) (accounted : Accounted F L im)
    {t : InodeManager} {l : Layout} (file : File) (tight : Tight (context stale L im i) l t) :
    Accounted (Function.update F i (some file)) (Function.update L i l) t := by
  intro id marked
  rcases tight id marked with other | owned
  · exact rep.accounted_others accounted other
  · exact ⟨i, by simp, by simpa using owned⟩

/-- Replace what one inum stands for. Its new blocks are marked and nobody else's,
and outside them and its inode the disk is as it was. -/
theorem Represents.replace (rep : Represents stale F L im) (range : 1 ≤ i ∧ i < INODE_NUM)
    {t : InodeManager} {l : Layout} {f : Option File} {stale' : Nat → Prop} (sound : t.bm.Sound)
    (nextInum : 1 ≤ t.nextInum ∧ t.nextInum ≤ INODE_NUM) (slot : Slot (¬ stale' i) t.bm.disk i l f)
    (nodup : l.owned.Nodup) (marked : ∀ id ∈ l.owned, t.bm.usingBlocks id ≠ 0)
    (others : ∀ id, (context stale L im i).others id → t.bm.usingBlocks id ≠ 0 ∧ id ∉ l.owned)
    (frame : ∀ b, b ≠ IBLOCK i BLOCK_NUM → (∀ id ∈ l.owned, id.toNat ≠ b) → t.bm.disk b = im.bm.disk b)
    (same : ∀ j, j ≠ i → (stale' j ↔ stale j)) :
    Represents stale' (Function.update F i f) (Function.update L i l) t := by
  refine ⟨sound, nextInum, ?_, ?_, ?_, ?_, ?_⟩
  · intro j inside
    by_cases here : j = i
    · subst here
      simpa using slot
    · rw [Function.update_of_ne here, Function.update_of_ne here, same j here]
      refine (rep.slot j inside).congr ?_ ?_
      · refine frame _ (fun equal => here ?_) fun id owned => ?_
        · rw [iblock_eq, iblock_eq] at equal
          omega
        · exact OnDisk.ne_iblock (sound.range id (marked id owned)) inside
      · intro id owned
        refine frame _ (OnDisk.ne_iblock (rep.sound.range id (rep.marked j id owned)) range.2) ?_
        intro other mine equal
        exact (others id ⟨j, here, owned⟩).2 (UInt32.toNat_inj.mp equal ▸ mine)
  · intro j
    by_cases here : j = i
    · subst here
      simpa using nodup
    · rw [Function.update_of_ne here]
      exact rep.nodup j
  · intro j id owned
    by_cases here : j = i
    · subst here
      exact marked id (by simpa using owned)
    · rw [Function.update_of_ne here] at owned
      exact (others id ⟨j, here, owned⟩).1
  · intro j k different id owned
    by_cases here : j = i
    · subst here
      rw [Function.update_self] at owned
      rw [Function.update_of_ne (Ne.symm different)]
      exact fun other => (others id ⟨k, Ne.symm different, other⟩).2 owned
    · rw [Function.update_of_ne here] at owned
      by_cases there : k = i
      · subst there
        rw [Function.update_self]
        exact (others id ⟨j, here, owned⟩).2
      · rw [Function.update_of_ne there]
        exact rep.apart j k different id owned
  · intro j outside
    have here : j ≠ i := fun same => outside (same ▸ range)
    rw [Function.update_of_ne here]
    exact rep.outside j outside

/-- A call on `i` ends by storing the inode of the file it has worked on. -/
theorem Represents.finish (rep : Represents stale F L im) (range : 1 ≤ i ∧ i < INODE_NUM)
    {t : InodeManager} {l : Layout} {node node' : Inode} (file : File) {d : Disk}
    (work : Working (context stale L im i) node l t)
    (written : ∀ b, b ≠ IBLOCK i BLOCK_NUM → d b = t.bm.disk b) (stored : nodeAt d i = node')
    (blocks : node'.blocks = node.blocks)
    (filled : Filled t.bm.disk l.data (fun p => file.bytes.getD p 0) file.bytes.length)
    (kind : file.type = T_DIR ∨ file.type = T_FILE ∨ file.type = T_SYMLINK)
    (type : node'.type = file.type.toUInt16.toInt16) (atime : node'.atime = file.atime)
    (mtime : node'.mtime = file.mtime) (ctime : node'.ctime = file.ctime)
    (size : node'.size.toNat = file.bytes.length)
    (count : l.data.length = blockCount file.bytes.length) :
    Represents stale (Function.update F i (some file)) (Function.update L i l) (t.setDisk d) := by
  have untouched (id) (owned : id ∈ l.owned) : d id.toNat = t.bm.disk id.toNat :=
    written _ (OnDisk.ne_iblock (work.onDisk owned) range.2)
  refine rep.replace range (setDisk_sound work.sound) ?_ ?_ work.nodup work.marked work.others ?_
    fun _ _ => Iff.rfl
  · rw [setDisk_nextInum, work.nextInum]
    exact rep.nextInum
  · refine ⟨kind, ?_, ?_, ?_, ?_, ?_, count, ?_, ?_⟩
    all_goals rw [setDisk_disk]
    all_goals try rw [stored]
    · exact type
    · exact atime
    · exact mtime
    · exact ctime
    · exact size
    · refine (work.maps.congr fun id present k _ => ?_).of_blocks blocks
      rw [untouched id (Layout.mem_owned.mpr (.inl present))]
    · exact filled.congr fun id member => untouched id (Layout.mem_owned.mpr (.inr member))
  · intro b different apart
    rw [setDisk_disk, written b different]
    exact work.frame b apart

/-- The copying loop of `read_file`. -/
theorem readLoop_does {node : Inode} {l : Layout} {f init : Nat → UInt8} {size : Nat}
    (maps : Maps clean im.bm.disk node l) (onDisk : ∀ id ∈ l.owned, OnDisk id)
    (filled : Filled im.bm.disk l.data f size) (count : l.data.length = blockCount size) :
    Does (Act.loop (blockCount size) (fun i buf => do
      let block ← readBlock (← getBlockId node i)
      let n := if i = blockCount size - 1 then size - i * BLOCK_SIZE else BLOCK_SIZE
      return copy buf (i * BLOCK_SIZE) block n) init) im fun buf t =>
        t = im ∧ ∀ p < size, buf p = f p := by
  refine (Act.Meets.loop (fun k buf t => t = im ∧ ∀ p < min size (k * BLOCK_SIZE), buf p = f p)
    ⟨rfl, fun p small => by omega⟩ _ ?_).mono ?_
  · rintro k inside buf t ⟨rfl, read⟩
    obtain ⟨id, found⟩ : ∃ id, l.data[k]? = some id := ⟨_, List.getElem?_eq_getElem (by omega)⟩
    have owned := Layout.mem_owned.mpr (.inr (List.mem_of_getElem? found))
    refine .seq (getBlockId_does maps
      (fun id present => onDisk id (Layout.mem_owned.mpr (.inl present))) found ?_)
    refine .seq (readBlock_does (onDisk id owned).2 fun block same => .pure ⟨rfl, ?_⟩)
    rw [chunk_eq inside]
    intro p small
    rw [copy]
    split
    · rename_i here
      have place : p / BLOCK_SIZE = k := by
        rw [Nat.div_eq_iff (by simp [BLOCK_SIZE])]
        omega
      have offset : p - k * BLOCK_SIZE = p % BLOCK_SIZE := by
        rw [← place, Nat.mul_comm, ← Nat.mod_eq_sub_mul_div]
      rw [offset, same _ (Nat.mod_lt _ (by simp [BLOCK_SIZE]))]
      exact filled p (by omega) id (by rw [place]; exact found)
    · rename_i elsewhere
      rw [Nat.add_mul] at small
      exact read p (by omega)
  · rintro buf t ⟨rfl, read⟩
    refine ⟨rfl, fun p small => read p ?_⟩
    have room := lt_blocks small
    omega

theorem content_eq {buf : Nat → UInt8} {bytes : List UInt8}
    (same : ∀ p < bytes.length, buf p = bytes.getD p 0) : content buf bytes.length = bytes := by
  apply List.ext_getElem
  · simp [content]
  · intro p _ inside
    simp [content, same p inside, inside]

theorem getD_content {buf : Nat → UInt8} {size p : Nat} (inside : p < size) :
    (content buf size).getD p 0 = buf p := by
  simp [content, inside]

theorem length_content {buf : Nat → UInt8} {size : Nat} : (content buf size).length = size := by
  simp [content]

/-- The inode of a live inum, behind the pointer that the code does not check. -/
theorem Represents.deref (rep : Represents stale F L im) (found : F i = some file)
    {f : Inode → Manage β} {Q : β → InodeManager → Prop} (rest : Does (f (nodeAt im.bm.disk i)) im Q) :
    Does (getInode i >>= fun node => InodeManager.deref node >>= f) im Q := by
  refine .seq (getInode_does rep.sound.nblocks (rep.range found).2 ?_)
  rw [if_neg (rep.type_ne_zero found)]
  exact .seq (.pure rest)

theorem Stored.attr {d : Disk} {l : Layout} (stored : Stored clean d i file l) :
    (nodeAt d i).attr = file.attr := by
  have type : file.type.toUInt16.toInt16.toInt32.toUInt32 = file.type := by
    rcases stored.kind with kind | kind | kind <;> rw [kind] <;> decide
  rw [Inode.attr, File.attr, stored.type, stored.atime, stored.mtime, stored.ctime, ← stored.size, type,
    UInt32.ofNat_toNat]

theorem Represents.getattr (rep : Represents stale F L im) (i : Nat) (a : Attr) :
    Does (Op.getattr i a).run im (Conserves stale F L im (.getattr i a)) := by
  have kept : Accounted F L im → (Accounted F L im ↔ (Op.getattr i a).Releases L) :=
    fun accounted => iff_of_true accounted trivial
  refine .seq ?_
  by_cases range : i < INODE_NUM
  · refine .seq (getInode_does rep.sound.nblocks range ?_)
    cases found : F i with
    | none =>
      rw [if_pos ((rep.dead_iff range).mpr found)]
      exact .pure (.pure ⟨F, L, .absent found, rep, kept, nofun⟩)
    | some file =>
      rw [if_neg (rep.type_ne_zero found)]
      have answer : (nodeAt im.bm.disk i).attr = file.attr := (rep.stored found).attr
      simp only [answer]
      exact .pure (.pure ⟨F, L, .getattr found, rep, kept, nofun⟩)
  · have dead := rep.outside i fun both => range both.2
    unfold InodeManager.getattr InodeManager.getInode
    rw [if_pos (by omega)]
    exact .seq (.pure (.pure (.pure ⟨F, L, .absent dead, rep, kept, nofun⟩)))

theorem Represents.read (rep : Represents stale F L im) (found : F i = some file) (now : Clock) :
    Does (Op.read i now).run im (Conserves stale F L im (.read i now)) := by
  have stored := rep.stored found
  have work := rep.working found
  have filled := stored.filled
  have count := stored.count
  rw [← stored.size] at filled count
  refine .seq (rep.deref found ?_)
  refine (readLoop_does stored.maps (fun id owned => work.onDisk owned) filled count).bind ?_
  rintro buf _ ⟨rfl, same⟩
  rw [stored.size] at same
  refine .seq (putInode_does rep.sound.nblocks (rep.range found).2 fun d written node => .pure (.pure
    ⟨_, _, ?_, rep.finish (rep.range found) { file with atime := now.atime } work written
      node rfl stored.filled stored.kind stored.type rfl stored.mtime stored.ctime stored.size
      stored.count, ?_⟩))
  · rw [stored.size, content_eq same]
    have size := stored.size
    rw [← UInt32.ofNat_toNat (x := (nodeAt _ i).size), size]
    exact .read found
  · refine ⟨fun accounted => iff_of_true (rep.accounted_update accounted _ ?_) trivial, nofun⟩
    intro id marked
    exact accounted.tight id marked

theorem blockCount_le {size n : Nat} : blockCount size ≤ n ↔ size ≤ n * BLOCK_SIZE := by
  simp only [blockCount, NBLOCKS, BLOCK_SIZE]
  split <;> omega

/-- The two loops of `write_file` that give the file its new number of blocks. -/
theorem Represents.resize (rep : Represents stale F L im) (found : F i = some file) (node : Inode)
    (blocks : node.blocks = (nodeAt im.bm.disk i).blocks) {new : Nat} (fits : new ≤ MAXFILE)
    (clean : stale i → new ≤ NDIRECT) {f : Inode → Manage β} {Q : β → InodeManager → Prop}
    (rest : ∀ node' l t, ({ node' with blocks := node.blocks } : Inode) = node →
      Working (context stale L im i) node' l t → l.data.length = new →
      (Accounted F L im → Tight (context stale L im i) l t) → Does (f node') t Q) :
    Does (Act.loop (new - (L i).data.length) (fun index node => do
        let id ← allocBlock
        setBlockId node ((L i).data.length + index) id) node >>= fun node =>
      Act.loop ((L i).data.length - new) (fun index _ => do
        InodeManager.freeBlock (← getBlockId node (new + index))) () >>= fun _ => f node) im Q := by
  have work := rep.working found
  have work' : Working (context stale L im i) node (L i) im :=
    { work with maps := work.maps.of_blocks blocks }
  rcases Nat.le_total (L i).data.length new with grows | shrinks
  · have clean' : (context stale L im i).clean ∨
        (L i).data.length + (new - (L i).data.length) ≤ NDIRECT := by
      by_cases leftover : stale i
      · exact .inr (by have := clean leftover; omega)
      · exact .inl leftover
    refine (work'.grow _ (by omega) clean').bind ?_
    rintro node' t ⟨fields, l, work, count, tight⟩
    rw [show (L i).data.length - new = 0 by omega]
    exact .seq (.pure (rest node' l t fields work (by omega) fun accounted => tight accounted.tight))
  · rw [show new - (L i).data.length = 0 by omega]
    refine .seq (.pure ((work'.shrink rfl shrinks).bind ?_))
    rintro - t ⟨work, -, tight⟩
    exact rest node _ t rfl work (by simp [shrinks]) fun accounted => tight accounted.tight

theorem Represents.write (rep : Represents stale F L im) (found : F i = some file)
    (buf : Nat → UInt8) {size : Nat} (fits : size ≤ MAXFILE * BLOCK_SIZE)
    (clean : stale i → size ≤ NDIRECT * BLOCK_SIZE) (now : Clock) :
    Does (Op.write i buf size now).run im fun r t =>
      Conserves stale F L im (.write i buf size now) r t ∧
      ∀ j < INODE_NUM, j ≠ i → t.bm.disk (IBLOCK j BLOCK_NUM) = im.bm.disk (IBLOCK j BLOCK_NUM) := by
  have stored := rep.stored found
  refine .seq (rep.deref found ?_)
  rw [stored.size, ← stored.count]
  refine rep.resize found { nodeAt im.bm.disk i with size := .ofNat size } rfl
    (blockCount_le.mpr fits) (fun leftover => blockCount_le.mpr (clean leftover)) ?_
  intro node l t fields work count tight
  refine (work.fill buf count).bind ?_
  rintro - t' ⟨work, filled, marks⟩
  refine putInode_does work.sound.nblocks (rep.range found).2 fun d written stored' => .pure
    ⟨⟨_, _, .write found, rep.finish (rep.range found) _ work written stored' rfl ?_ stored.kind ?_ rfl rfl
      rfl ?_ ?_, fun accounted => iff_of_true (rep.accounted_update accounted _ ?_) trivial, nofun⟩, ?_⟩
  · intro p small id named
    rw [length_content] at small
    exact (filled p small id named).trans (getD_content small).symm
  · exact (congrArg Inode.type fields).trans stored.type
  · have kept : node.size = .ofNat size := congrArg Inode.size fields
    simp only [MAXFILE, NDIRECT, NINDIRECT, BLOCK_SIZE] at fits
    rw [length_content, kept, UInt32.toNat_ofNat_of_lt' (by simp [UInt32.size]; omega)]
  · rw [length_content, count]
  · intro id marked
    rw [setDisk_usingBlocks, marks] at marked
    exact tight accounted id marked
  · intro j inside different
    rw [setDisk_disk, written _ fun same => different (by rw [iblock_eq, iblock_eq] at same; omega)]
    exact work.frame _ fun id owned => OnDisk.ne_iblock (work.onDisk owned) inside

theorem Represents.remove (rep : Represents stale F L im) (found : F i = some file) :
    Does (Op.remove i).run im (Conserves stale F L im (.remove i)) := by
  have stored := rep.stored found
  have range := rep.range found
  have work := rep.working found
  refine .seq (rep.deref found ?_)
  rw [stored.size, ← stored.count]
  have freed := work.shrink rfl (Nat.zero_le _)
  simp only [Nat.sub_zero, Nat.zero_add] at freed
  refine freed.bind ?_
  rintro - t ⟨work, same, tight⟩
  have live : (nodeAt t.bm.disk i).type ≠ 0 := by
    rw [same]
    exact rep.type_ne_zero found
  refine .seq (getInode_does work.sound.nblocks range.2 ?_)
  rw [if_neg live]
  refine putInode_does work.sound.nblocks range.2 fun d written node => .pure ⟨_, _, .remove found,
    rep.replace (l := .empty) range (setDisk_sound work.sound) ?_ ⟨?_, rfl⟩ (by simp) (by simp)
      ?_ ?_ fun _ _ => Iff.rfl, fun accounted => ⟨fun after => ?_, fun released id marked => ?_⟩,
      fun _ same => by cases same; rfl⟩
  · rw [setDisk_nextInum, work.nextInum]
    exact rep.nextInum
  · rw [setDisk_disk, node]
  · exact fun id other => ⟨(work.others id other).1, by simp⟩
  · intro b different _
    rw [setDisk_disk, written b different, same]
    rfl
  · -- The indirect block of the file is still marked, and no other file has it.
    refine Option.eq_none_iff_forall_ne_some.mpr fun id present => ?_
    obtain ⟨j, owner, owned⟩ := after id (work.marked id (Layout.mem_owned.mpr (.inl present)))
    have different : j ≠ i := by
      rintro rfl
      simp at owner
    rw [Function.update_of_ne different] at owned
    exact rep.apart j i different id owned (Layout.mem_owned.mpr (.inl present))
  · rcases tight accounted.tight id marked with other | owned
    · exact rep.accounted_others accounted other
    · have none : (L i).indirect = none := released
      simp [Layout.mem_owned, none] at owned

theorem Represents.findInum (rep : Represents stale F L im) :
    Does findInum im fun found t => t = im ∧
      match found with
      | some inum => (1 ≤ inum ∧ inum < INODE_NUM) ∧ F inum = none
      | none => ∀ inum, 1 ≤ inum → inum < INODE_NUM → F inum ≠ none := by
  obtain ⟨low, high⟩ := rep.nextInum
  refine .seq (.get ((scan_does rep.sound (by omega)).bind ?_))
  rintro (_ | inum) im ⟨rfl, outcome⟩
  · refine (scan_does rep.sound (by omega)).mono ?_
    rintro (_ | inum) im ⟨rfl, outcome'⟩
    · refine ⟨rfl, fun inum from_ upto dead => ?_⟩
      rw [← rep.dead_iff upto] at dead
      rcases Nat.lt_or_ge inum im.nextInum with below | above
      · exact outcome' inum from_ (by omega) dead
      · exact outcome inum above (by omega) dead
    · obtain ⟨from_, upto, dead⟩ := outcome'
      exact ⟨rfl, ⟨from_, by omega⟩, (rep.dead_iff (by omega)).mp dead⟩
  · obtain ⟨from_, upto, dead⟩ := outcome
    exact .pure ⟨rfl, ⟨by omega, by omega⟩, (rep.dead_iff (by omega)).mp dead⟩

/-- The inum at the cursor is taken first. -/
theorem Represents.findInum_next (rep : Represents stale F L im) (inside : im.nextInum < INODE_NUM)
    (dead : F im.nextInum = none) {Q : Option Nat → InodeManager → Prop}
    (holds : Q (some im.nextInum) im) : Does InodeManager.findInum im Q := by
  refine .seq (.get (.seq ?_))
  rw [show INODE_NUM - im.nextInum = (INODE_NUM - im.nextInum - 1) + 1 by omega]
  refine .seq (getInode_does rep.sound.nblocks inside ?_)
  rw [if_pos ((rep.dead_iff inside).mpr dead)]
  exact .pure (.pure holds)

/-- `alloc_inode` once it has found a dead inum. -/
theorem Represents.place (rep : Represents stale F L im) {type : UInt32}
    (kind : type = T_DIR ∨ type = T_FILE ∨ type = T_SYMLINK) (memory : Inode) (now : Clock)
    (range : 1 ≤ i ∧ i < INODE_NUM) {Q : Nat → InodeManager → Prop}
    (holds : ∀ t, Represents ((Op.alloc type memory now).leftover stale (.inum i))
      (Function.update F i (some (.new type now))) (Function.update L i .empty) t →
      t.bm.usingBlocks = im.bm.usingBlocks → Q i t) :
    Does (do
      putInode i (newInode type memory now)
      Act.modify fun im => { im with nextInum := i + 1 }
      return i) im Q := by
  refine .seq (putInode_does rep.sound.nblocks range.2 fun d written node => .seq (.modify (.pure
    (holds _ (rep.replace (l := .empty) range (setDisk_sound rep.sound) ⟨Nat.succ_pos _, range.2⟩ ?_
      (by simp) (by simp) ?_ ?_ ?_) rfl))))
  · refine ⟨kind, ?_, ?_, ?_, ?_, ?_, rfl, ⟨?_, ?_, ?_, ?_, ?_⟩, ?_⟩
    all_goals try simp only [setDisk_disk, node]
    all_goals first | rfl | simp [Layout.empty, Filled, File.new]
    intro unset
    simpa [Op.leftover, newInode] using unset
  · exact fun id ⟨j, _, owned⟩ => ⟨rep.marked j id owned, by simp⟩
  · intro b different _
    exact written b different
  · intro j different
    simp [Op.leftover, different]

theorem Represents.alloc (rep : Represents stale F L im) {type : UInt32}
    (kind : type = T_DIR ∨ type = T_FILE ∨ type = T_SYMLINK) (memory : Inode) (now : Clock) :
    Does (Op.alloc type memory now).run im (Conserves stale F L im (.alloc type memory now)) := by
  refine .seq (rep.findInum.bind ?_)
  rintro (_ | inum) im ⟨rfl, outcome⟩
  · refine .pure (.pure ⟨F, L, .full outcome, { rep with slot := fun i inside => ?_ },
      fun accounted => iff_of_true accounted trivial, nofun⟩)
    by_cases zero : i = 0
    · subst zero
      have slot := rep.slot 0 inside
      rw [rep.outside 0 (by omega)] at slot ⊢
      exact slot
    · simpa [Op.leftover, zero] using rep.slot i inside
  · refine rep.place kind memory now outcome.1 fun t after marks => .pure
      ⟨_, _, .alloc outcome.2 outcome.1, after, fun accounted =>
        iff_of_true (rep.accounted_update accounted _ fun id marked => ?_) trivial, nofun⟩
    rw [marks] at marked
    obtain ⟨j, live, owned⟩ := accounted id marked
    refine .inl ⟨j, ?_, owned⟩
    rintro rfl
    exact live outcome.2

end Represents

end Yfs.Store
