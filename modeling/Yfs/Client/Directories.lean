import Yfs.Client.Caches
import Yfs.Client.Handlers

/-! The directory tree that the clients of one extent server make together. Their operations come to
their end on the caches and the server, and leave the links between the inodes in order. -/

namespace Yfs.Client

open Yfs.Lib Program
open Yfs.Store (T_FILE T_DIR T_SYMLINK INODE_NUM MAXSIZE Clock)
open Yfs.Extent (World)

namespace TreeOp

/-- The operation is applied to a directory, or writes to something else, with a name that fits in an
entry and a content that fits in a file. -/
def Admitted (E : Extents) : TreeOp → Prop
  | .create parent name _ | .mkdir parent name _ | .unlink parent name _ =>
    name.bytes.length ≤ MAX_LENGTH ∧ ∃ buf, E parent = some ⟨T_DIR, buf⟩
  | .symlink parent name link _ =>
    name.bytes.length ≤ MAX_LENGTH ∧ link.length ≤ MAXSIZE ∧ ∃ buf, E parent = some ⟨T_DIR, buf⟩
  | .write ino off data => off + data.length ≤ MAXSIZE ∧ ∃ x, E ino = some x ∧ x.type ≠ T_DIR
  | .setattr ino size => size ≤ MAXSIZE ∧ ∃ x, E ino = some x ∧ x.type ≠ T_DIR

/-- The operation makes a name that is not there, and needs an inum for it. -/
def Asks (E : Extents) (op : TreeOp) : Prop :=
  ∃ m buf, op.making = some m ∧ E m.parent = some ⟨T_DIR, buf⟩ ∧
    (entries buf).find? (·.name = m.name.bytes) = none

variable {E : Extents} {op : TreeOp} {spare : Nat → Prop}

theorem Admitted.short (admitted : op.Admitted E) : op.Short := by
  cases op with
  | create | mkdir | symlink | unlink => exact admitted.1
  | write | setattr => trivial

/-- What an operation leaves: its effect, contents that can be stored, and an inum it was given. -/
def Leaves (spare : Nat → Prop) (op : TreeOp) (E : Extents) (r : Status × Option Nat) (E' : Extents) : Prop :=
  op.Effect E r E' ∧ Compact E' ∧ ∀ ino, r.2 = some ino → spare ino

/-- An operation that reports no inum. -/
theorem leaves_none {status : Status} {E' : Extents} (effect : op.Effect E (status, none) E')
    (compact : Compact E') : op.Leaves spare E (status, none) E' :=
  ⟨effect, compact, by simp⟩

section Making

variable {m : Making} {buf : List UInt8} (compact : Compact E) (making : op.making = some m)
  (found : E m.parent = some ⟨T_DIR, buf⟩)
include compact making found

theorem leaves_exist (hit : (entries buf).find? (·.name = m.name.bytes) ≠ none) :
    op.Leaves spare E (EXIST, none) E := by
  obtain ⟨it, there⟩ := Option.ne_none_iff_exists'.mp hit
  exact leaves_none (.exist making found there) compact

theorem leaves_made {ino : Nat} (miss : (entries buf).find? (·.name = m.name.bytes) = none)
    (free : spare ino) (small : ino < INODE_NUM) (dead : E ino = none)
    (sized : m.content.length ≤ MAXSIZE) : op.Leaves spare E (OK, some ino) (m.apply ino buf E) := by
  refine ⟨.made making found miss dead (small.trans (by decide)), compact.made found small sized, ?_⟩
  rintro _ ⟨⟩
  exact free

end Making

/-- `create` and `mkdir`. -/
theorem clean_node {parent : Nat} {name : Component} {memory : Entry} {type : UInt32} {buf : List UInt8}
    (compact : Compact E) (making : op.making = some ⟨parent, name, memory, type, []⟩)
    (found : E parent = some ⟨T_DIR, buf⟩) (room : op.Asks E → Spare spare E) :
    (createNode type parent name.bytes memory).Clean (given spare) (op.Leaves spare E) E := by
  have node := clean_createNode found type memory fun miss => room ⟨_, buf, making, found, miss⟩
  refine Clean.mono ?_ node
  rintro _ _ (⟨hit, rfl, rfl⟩ | ⟨ino, miss, free, small, dead, rfl, rfl⟩)
  · exact leaves_exist compact making found hit
  · exact leaves_made compact making found miss free small dead (Nat.zero_le _)

/-- Every operation that is in order comes to its end, with no lock taken. -/
theorem clean_leaves (sane : Sane E) (compact : Compact E) (admitted : op.Admitted E)
    (free : ∀ id, spare id → E id = none) (room : op.Asks E → Spare spare E) :
    op.program.Clean (given spare) (op.Leaves spare E) E := by
  cases op with
  | create | mkdir =>
    obtain ⟨-, buf, found⟩ := admitted
    exact clean_node compact rfl found room
  | symlink parent name link memory =>
    obtain ⟨-, sized, buf, found⟩ := admitted
    have node := clean_symlink found link memory fun miss => room ⟨_, buf, rfl, found, miss⟩
    refine Clean.mono ?_ node
    rintro _ _ (⟨hit, rfl, rfl⟩ | ⟨ino, miss, free, small, dead, rfl, rfl⟩)
    · exact leaves_exist compact rfl found hit
    · exact leaves_made compact rfl found miss free small dead sized
  | unlink parent name memory =>
    obtain ⟨-, buf, found⟩ := admitted
    have apart : ∀ it, (entries buf).find? (·.name = name.bytes) = some it → it.inum ≠ parent := by
      intro it hit
      have other := (sane.orderly _ _ found).elsewhere _ (find_name hit)
      exact other
    have unlinks := clean_unlink found memory free apart fun it hit => sane.target_live found hit
    refine Clean.bind (Clean.mono ?_ unlinks)
    rintro _ _ (⟨miss, rfl, rfl⟩ | ⟨it, hit, rfl, rfl⟩)
    · exact clean_done.mpr (leaves_none (.absent found miss) compact)
    · exact clean_done.mpr (leaves_none (.unlinked found hit (apart it hit)) (compact.unlinked found))
  | write ino off data =>
    obtain ⟨sized, x, live, file⟩ := admitted
    have small : off < 2 ^ 32 := Nat.lt_of_le_of_lt ((Nat.le_add_right ..).trans sized) (by decide)
    have length : (writeAt x.bytes off data).length ≤ MAXSIZE := by
      have before := sane.fits compact live
      simpa [writeAt] using ⟨before, sized⟩
    refine Clean.bind (Clean.mono ?_ (clean_write live small data))
    rintro r _ ⟨-, -, rfl⟩
    have kept := compact.update (x := { x with bytes := writeAt x.bytes off data })
      (compact.small ino x live) fun _ => length
    exact clean_done.mpr (leaves_none (.written rfl live file) kept)
  | setattr ino size =>
    obtain ⟨sized, x, live, file⟩ := admitted
    refine Clean.bind (Clean.mono ?_ (clean_setattr live size))
    rintro r _ rfl
    have kept := compact.update (x := { x with bytes := truncate x.bytes size })
      (compact.small ino x live) fun _ => by simpa [truncate] using sized
    exact clean_done.mpr (leaves_none (.written rfl live file) kept)

end TreeOp

section Run

variable {Cid : Type} [DecidableEq Cid] {W W' : World Cid} {locks locks' : Nat → Bool} {cid : Cid}

omit [DecidableEq Cid] in
/-- Between two operations the caches and the server hold a directory tree, and no lock is taken. -/
structure InOrder (W : World Cid) (locks : Nat → Bool) : Prop where
  idle : locks = fun _ => false
  holds : Holds W (extents W)
  sane : Sane (extents W)
  compact : Compact (extents W)

omit [DecidableEq Cid] in
theorem inOrder_boot (now : Clock) : InOrder (World.boot now : World Cid) fun _ => false := by
  have holds : Holds (World.boot now : World Cid) emptyRoot := holds_boot now
  constructor
  · rfl
  · rwa [holds.extents_eq]
  · rw [holds.extents_eq]
    exact emptyRoot_sane
  · rw [holds.extents_eq]
    exact emptyRoot_compact

/-- A client that starts on an empty root leaves everything as it is. -/
theorem clean_construct {spare : Nat → Prop} {E : Extents} (empty : E 1 = some ⟨T_DIR, []⟩) :
    construct.Clean (given spare) (fun _ E' => E' = E) E := by
  simp only [construct, acquire, release, call, acquire_bind, done_bind, call_bind]
  refine .under ?_
  rw [completes_put empty]
  exact ⟨free_again 1, Function.update_eq_self_iff.mpr empty.symm⟩

theorem Backs.joined {spare : Nat → Prop} (backs : Backs spare W (extents W))
    (empty : extents W 1 = some ⟨T_DIR, []⟩)
    (started : Solo (served cid) construct (fun _ => false) W () locks' W') :
    locks' = (fun _ => false) ∧ extents W' = extents W ∧ Backs spare W' (extents W') := by
  have completes := (simulates cid).completes backs (clean_construct empty)
  have ran : Solo (servedFrom spare cid) construct (fun _ => false) W () locks' W' := by
    simp only [construct, acquire, release, call, acquire_bind, done_bind, call_bind] at started ⊢
    cases started with
    | acquire free tail =>
      cases tail with
      | call answered tail =>
        cases tail with
        | release tail =>
          cases tail
          exact .acquire free (.call answered (.release .done))
  obtain ⟨E, after, rfl, rfl⟩ := ran.satisfies completes
  rw [after.holds.extents_eq]
  exact ⟨rfl, rfl, after⟩

/-- An operation that a client is about to do, with the inum that `alloc_inode` has for it, if any. -/
structure DirTurn (Cid : Type) where
  before : World Cid
  cid : Cid
  op : TreeOp
  inum : Option Nat

namespace DirTurn

/-- The operation is in order, and there is an inum if it needs one. -/
structure Proper (e : DirTurn Cid) : Prop where
  admitted : e.op.Admitted (extents e.before)
  room : e.op.Asks (extents e.before) → e.inum ≠ none

/-- Neither `owner_map` nor the trusted attributes of a client remember the inum. -/
def Anew (e : DirTurn Cid) : Prop := ∀ id ∈ e.inum, e.before.Unused id

/-- The operation does not unlink a directory with entries. -/
def Spares (e : DirTurn Cid) : Prop := e.op.Spares (extents e.before)

/-- What the operation leaves; the inums that were unused stay so until they are given out. -/
structure Leaves (e : DirTurn Cid) (r : Status × Option Nat) (locks : Nat → Bool) (W : World Cid) : Prop where
  idle : locks = fun _ => false
  holds : Holds W (extents W)
  effect : e.op.Leaves (· ∈ e.inum) (extents e.before) r (extents W)
  unused : ∀ id, e.before.Unused id → extents W id = none → W.Unused id

end DirTurn

structure DirEvent (Cid : Type) extends DirTurn Cid where
  after : World Cid

omit [DecidableEq Cid] in
/-- All entries lead to an inode, and every inode but the root has one entry. -/
def Tidy (W : World Cid) : Prop := LinkMap.Tidy 1 (links (extents W))

theorem Backs.joins {spare : Nat → Prop} (backs : Backs spare W (extents W))
    (empty : extents W 1 = some ⟨T_DIR, []⟩) (cid : Cid) :
    ∃ locks' W', Solo (served cid) construct (fun _ => false) W () locks' W' := by
  obtain ⟨_, locks', W', ran⟩ := ((simulates cid).completes backs (clean_construct empty)).solo
  exact ⟨locks', W', ran.mono (served_of_servedFrom cid)⟩

section Turn

variable {turn : DirTurn Cid}

/-- An operation at any client, with an inum of which nothing is remembered. -/
theorem InOrder.completes (order : InOrder turn.before locks) (proper : turn.Proper) (anew : turn.Anew) :
    turn.op.program.Completes (servedFrom (· ∈ turn.inum) turn.cid) (turn.Leaves) locks turn.before := by
  obtain ⟨W, cid, op, inum⟩ := turn
  obtain ⟨admitted, room⟩ := proper
  obtain ⟨rfl, holds, sane, compact⟩ := order
  have free : ∀ id ∈ inum, extents W id = none := fun id given => holds.free (anew id given)
  have spare : ∀ {P : Nat → Prop}, (∀ id ∈ inum, P id) → op.Asks (extents W) → Spare P (extents W) := by
    intro P chosen asks
    obtain ⟨id, given⟩ := Option.ne_none_iff_exists'.mp (room asks)
    exact ⟨id, chosen id given, (anew id given).range.1, (anew id given).range.2, free id given⟩
  have narrow := op.clean_leaves sane compact admitted free (spare fun _ => id)
  have wide := op.clean_leaves sane compact admitted (fun _ => holds.free) (spare anew)
  have completes := (simulates cid).completes (holds.backs anew) narrow
  refine completes_solo (fun r locks' W' ran => ?_) completes
  obtain ⟨E, after, free, leaves⟩ := ran.satisfies completes
  -- With all unused inums allowed, those that were not given out are seen to stay unused.
  have more := ran.mono (servedFrom_mono anew cid)
  obtain ⟨E', backs, -, -⟩ := more.satisfies ((simulates cid).completes holds.unremembered wide)
  refine ⟨free, ?_, ?_, fun id unused dead => backs.unused unused ?_⟩
  · rw [after.holds.extents_eq]
    exact after.holds
  · rwa [after.holds.extents_eq]
  · rwa [← backs.holds.extents_eq]

omit [DecidableEq Cid] in
/-- A creation of a name that is not there takes the inum. -/
theorem DirTurn.Leaves.made {r : Status × Option Nat} {m : Making} {buf : List UInt8} {ino : Nat}
    (leaves : turn.Leaves r locks W) (making : turn.op.making = some m) (chosen : turn.inum = some ino)
    (found : extents turn.before m.parent = some ⟨T_DIR, buf⟩)
    (miss : (entries buf).find? (·.name = m.name.bytes) = none) :
    extents W = m.apply ino buf (extents turn.before) := by
  obtain ⟨effect, -, given⟩ := leaves.effect
  obtain ⟨i, rfl, same⟩ := effect.made_of_miss making found miss
  cases chosen.symm.trans (given i rfl)
  exact same

omit [DecidableEq Cid] in
theorem InOrder.next {r : Status × Option Nat} (order : InOrder turn.before locks) (proper : turn.Proper)
    (spares : turn.Spares) (leaves : turn.Leaves r locks' W') : InOrder W' locks' where
  idle := leaves.idle
  holds := leaves.holds
  sane := order.sane.effect leaves.effect.1 proper.admitted.short spares
  compact := leaves.effect.2.1

end Turn

/-- The operations that clients have done on an extent server that has just started, one after the
other, the newest first. A client starts while the root is empty. -/
inductive DirRun : List (DirEvent Cid) → World Cid → (Nat → Bool) → Prop where
  | boot (now : Clock) : DirRun [] (World.boot now) fun _ => false
  | join {log : List (DirEvent Cid)} {W W' : World Cid} {locks locks' : Nat → Bool} (cid : Cid)
      (run : DirRun log W locks) (empty : extents W 1 = some ⟨T_DIR, []⟩)
      (started : Solo (served cid) construct locks W () locks' W') : DirRun log W' locks'
  | apply {log : List (DirEvent Cid)} {W W' : World Cid} {locks locks' : Nat → Bool} {op : TreeOp}
      {inum : Option Nat} {r : Status × Option Nat} (cid : Cid) (run : DirRun log W locks)
      (ran : Solo (servedFrom (· ∈ inum) cid) op.program locks W r locks' W') :
      DirRun (⟨⟨W, cid, op, inum⟩, W'⟩ :: log) W' locks'

variable {log : List (DirEvent Cid)}

theorem DirRun.inOrder (run : DirRun log W locks) (proper : ∀ e ∈ log, e.Proper) (anew : ∀ e ∈ log, e.Anew)
    (spares : ∀ e ∈ log, e.Spares) : InOrder W locks := by
  induction run with
  | boot now => exact inOrder_boot now
  | join cid _ empty started ih =>
    obtain ⟨rfl, holds, sane, compact⟩ := ih proper anew spares
    obtain ⟨idle, same, after⟩ := holds.unremembered.joined empty started
    exact ⟨idle, after.holds, same ▸ sane, same ▸ compact⟩
  | apply cid _ ran ih =>
    rw [List.forall_mem_cons] at proper anew spares
    have order := ih proper.2 anew.2 spares.2
    exact order.next proper.1 spares.1 (ran.satisfies (order.completes proper.1 anew.1))

/-- After every operation of a run all entries lead to an inode, and every inode but the root has
exactly one entry, if and only if no `unlink` of the run names a directory with entries; here no
creation is given an inum that the extent service still remembers. Without such an `unlink` the
next operation comes to its end at every client, and every content can be stored. -/
theorem DirRun.tidy_iff_spares (run : DirRun log W locks) (proper : ∀ e ∈ log, e.Proper)
    (anew : ∀ e ∈ log, e.Anew) :
    ((∀ e ∈ log, Tidy e.after) ↔ ∀ e ∈ log, e.Spares) ∧
      ((∀ e ∈ log, e.Spares) → (∀ i x, extents W i = some x → x.bytes.length ≤ MAXSIZE) ∧
        ∀ next : DirTurn Cid, next.before = W → next.Proper → next.Anew → next.Spares →
          next.op.program.Completes (servedFrom (· ∈ next.inum) next.cid)
            (fun _ locks' W' => locks' = (fun _ => false) ∧ Tidy W') locks W) := by
  constructor
  · induction run with
    | boot => simp
    | join cid _ _ _ ih => exact ih proper anew
    | apply cid run ran ih =>
      rw [List.forall_mem_cons] at proper anew
      have earlier := ih proper.2 anew.2
      rw [List.forall_mem_cons, List.forall_mem_cons]
      constructor
      · rintro ⟨now, past⟩
        have before := earlier.mp past
        have order := run.inOrder proper.2 anew.2 before
        have leaves := ran.satisfies (order.completes proper.1 anew.1)
        exact ⟨order.sane.spares_of_tidy leaves.effect.1 now, before⟩
      · rintro ⟨now, before⟩
        have order := run.inOrder proper.2 anew.2 before
        have leaves := ran.satisfies (order.completes proper.1 anew.1)
        exact ⟨(order.next proper.1 now leaves).sane.tidy, earlier.mpr before⟩
  · intro spares
    have order := run.inOrder proper anew spares
    refine ⟨fun i x => order.sane.fits order.compact, ?_⟩
    rintro next rfl proper new spared
    refine (order.completes proper new).mono fun r locks' W' leaves => ?_
    exact ⟨leaves.idle, (order.next proper spared leaves).sane.tidy⟩

omit [DecidableEq Cid] in
theorem boot_unused (now : Clock) {id : Nat} (range : 1 < id ∧ id < INODE_NUM) :
    (World.boot now : World Cid).Unused id := by
  refine ⟨⟨range.1.le, range.2⟩, ?_, rfl, nofun⟩
  simp [World.boot, Nat.ne_of_gt range.1]

/-- An inum that has never been given out is unused. -/
theorem DirRun.unused {id : Nat} (run : DirRun log W locks) (proper : ∀ e ∈ log, e.Proper)
    (anew : ∀ e ∈ log, e.Anew) (spares : ∀ e ∈ log, e.Spares) (range : 1 < id ∧ id < INODE_NUM)
    (never : ∀ e ∈ log, id ∉ e.inum) : W.Unused id := by
  induction run with
  | boot now => exact boot_unused now range
  | join cid run empty started ih =>
    obtain ⟨rfl, holds, -, -⟩ := run.inOrder proper anew spares
    have before := ih proper anew spares never
    obtain ⟨-, same, after⟩ := holds.unremembered.joined empty started
    exact after.unused before (same ▸ holds.free before)
  | apply cid run ran ih =>
    rw [List.forall_mem_cons] at proper anew spares never
    have order := run.inOrder proper.2 anew.2 spares.2
    have before := ih proper.2 anew.2 spares.2 never.2
    have leaves := ran.satisfies (order.completes proper.1 anew.1)
    refine leaves.unused id before (leaves.effect.1.dead (order.holds.free before) ?_)
    rintro ino given rfl
    exact never.1 (leaves.effect.2.2 _ given)

/-- One more operation. -/
theorem DirRun.extend (run : DirRun log W locks) (order : InOrder W locks) {op : TreeOp} {inum : Option Nat}
    (cid : Cid) (proper : DirTurn.Proper ⟨W, cid, op, inum⟩) (anew : DirTurn.Anew ⟨W, cid, op, inum⟩) :
    ∃ r locks' W', DirRun (⟨⟨W, cid, op, inum⟩, W'⟩ :: log) W' locks' ∧
      DirTurn.Leaves ⟨W, cid, op, inum⟩ r locks' W' := by
  have now : InOrder (DirTurn.before ⟨W, cid, op, inum⟩) locks := order
  have completes := now.completes proper anew
  obtain ⟨r, locks', W', ran⟩ := completes.solo
  exact ⟨r, locks', W', run.apply cid ran, ran.satisfies completes⟩

end Run

section Orphan

/-- The names `a` and `b`. -/
private def nameA : Component := ⟨[97], by decide, by decide, by decide, by decide⟩

private def nameB : Component := ⟨[98], by decide, by decide, by decide, by decide⟩

private def blankEntry : Entry := fun _ => 0

private def makeA : Making := ⟨1, nameA, blankEntry, T_DIR, []⟩

private def makeB : Making := ⟨2, nameB, blankEntry, T_FILE, []⟩

/-- The root with a directory, and the directory with a file. -/
private def withDir : Extents := makeA.apply 2 [] emptyRoot

private def withFile : Extents := makeB.apply 3 [] withDir

/-- Both clients have started. -/
private theorem both_joined : ∃ (W : World Nat) (locks : Nat → Bool), DirRun [] W locks ∧
    extents W = emptyRoot := by
  have boot : InOrder (World.boot ⟨0, 0, 0⟩ : World Nat) fun _ => false := inOrder_boot _
  have root : extents (World.boot ⟨0, 0, 0⟩ : World Nat) = emptyRoot := (holds_boot _).extents_eq
  have empty : extents (World.boot ⟨0, 0, 0⟩ : World Nat) 1 = some ⟨T_DIR, []⟩ := by
    rw [root]
    rfl
  obtain ⟨locks, W, started⟩ := boot.holds.unremembered.joins empty 0
  obtain ⟨rfl, same, backs⟩ := boot.holds.unremembered.joined empty started
  have first := (DirRun.boot ⟨0, 0, 0⟩).join 0 empty started
  rw [← same] at empty root
  obtain ⟨locks, V, started⟩ := backs.joins empty 1
  obtain ⟨rfl, same, -⟩ := backs.joined empty started
  exact ⟨V, _, first.join 1 empty started, same.trans root⟩

/-- Client 0 makes a directory, and client 1 a file in it. -/
private theorem staged : ∃ (log : List (DirEvent Nat)) (W : World Nat) (locks : Nat → Bool),
    DirRun log W locks ∧ (∀ e ∈ log, e.Proper) ∧ (∀ e ∈ log, e.Anew) ∧ (∀ e ∈ log, e.Spares) ∧
    extents W = withFile ∧ log.map (fun e => (e.cid, e.op, e.inum)) =
      [(1, .create 2 nameB blankEntry, some 3), (0, .mkdir 1 nameA blankEntry, some 2)] := by
  have nothing : ∀ name : List UInt8, (entries []).find? (·.name = name) = none := by simp [entries_nil]
  obtain ⟨W, locks, run, root⟩ := both_joined
  have order := run.inOrder (by simp) (by simp) (by simp)
  have found : extents W 1 = some ⟨T_DIR, []⟩ := by
    rw [root]
    rfl
  have proper : DirTurn.Proper ⟨W, 0, .mkdir 1 nameA blankEntry, some 2⟩ := ⟨⟨by decide, _, found⟩, nofun⟩
  have anew : DirTurn.Anew ⟨W, 0, .mkdir 1 nameA blankEntry, some 2⟩ := by
    rintro id ⟨⟩
    exact run.unused (by simp) (by simp) (by simp) (by decide) (by simp)
  obtain ⟨r, locks, V, run', leaves⟩ := run.extend order 0 proper anew
  have order' := order.next proper trivial leaves
  have made : extents V = withDir :=
    (leaves.made (m := makeA) rfl rfl found (nothing _)).trans (by rw [root]; rfl)
  have found' : extents V 2 = some ⟨T_DIR, []⟩ := by
    rw [made]
    rfl
  have proper' : DirTurn.Proper ⟨V, 1, .create 2 nameB blankEntry, some 3⟩ := ⟨⟨by decide, _, found'⟩, nofun⟩
  have anew' : DirTurn.Anew ⟨V, 1, .create 2 nameB blankEntry, some 3⟩ := by
    rintro id ⟨⟩
    exact run'.unused (by simpa using proper) (by simpa using anew) (by simp [DirTurn.Spares, TreeOp.Spares])
      (by decide) (by simp)
  obtain ⟨r', locks', U, run'', leaves'⟩ := run'.extend order' 1 proper' anew'
  have there : extents U = withFile :=
    (leaves'.made (m := makeB) rfl rfl found' (nothing _)).trans (by rw [made]; rfl)
  refine ⟨_, U, locks', run'', ?_, ?_, ?_, there, rfl⟩
  · simpa using ⟨proper', proper⟩
  · simpa using ⟨anew', anew⟩
  · simp [DirTurn.Spares, TreeOp.Spares]

/-- A directory with one entry. -/
private theorem only_entry (name : Component) (short : name.bytes.length ≤ MAX_LENGTH) {ino : Nat}
    (small : ino < 2 ^ 64) : ∃ it, it.inum = ino ∧
      (entries ([] ++ (newEntry blankEntry ino name.bytes).bytes)).find? (·.name = name.bytes) = some it := by
  have nothing : ENTRY_SIZE ∣ ([] : List UInt8).length := by decide
  refine ⟨_, @inum_newEntry blankEntry ino (name.toName short) small, ?_⟩
  rw [entries_append nothing]
  exact List.find?_cons_of_pos (by simpa using @name_newEntry blankEntry ino (name.toName short))

/-- Client 0 may unlink the file again. -/
theorem DirRun.tidy_iff_spares_staged : ∃ (log : List (DirEvent Nat)) (W : World Nat) (locks : Nat → Bool),
    DirRun log W locks ∧ (∀ e ∈ log, Tidy e.after) ∧ log.map (fun e => (e.cid, e.op, e.inum)) =
      [(1, .create 2 nameB blankEntry, some 3), (0, .mkdir 1 nameA blankEntry, some 2)] ∧
    (TreeOp.unlink 2 nameB fun _ => blankEntry).program.Completes (servedFrom (fun id => id ∈ none) 0)
      (fun _ locks' W' => locks' = (fun _ => false) ∧ Tidy W') locks W := by
  obtain ⟨log, W, locks, run, proper, anew, spares, there, ops⟩ := staged
  obtain ⟨tidy, next⟩ := run.tidy_iff_spares proper anew
  have found : extents W 2 = some ⟨T_DIR, [] ++ (newEntry blankEntry 3 nameB.bytes).bytes⟩ := by
    rw [there]
    rfl
  have unlink : DirTurn.Spares ⟨W, 0, .unlink 2 nameB fun _ => blankEntry, none⟩ := by
    intro buf it content found' hit directory
    cases found.symm.trans found'
    obtain ⟨file, inum, first⟩ := only_entry nameB (by decide) (show 3 < 2 ^ 64 by decide)
    cases first.symm.trans hit
    have there : extents W it.inum = some ⟨T_FILE, []⟩ := by
      rw [inum, there]
      rfl
    cases there.symm.trans directory
  refine ⟨log, W, locks, run, tidy.mpr spares, ops, (next spares).2 ⟨W, 0, _, none⟩ rfl ?_ nofun unlink⟩
  refine ⟨⟨by decide, _, found⟩, ?_⟩
  rintro ⟨_, _, ⟨⟩, -⟩

/-- `unlink` of the directory leaves its file without an entry. -/
theorem DirRun.unlink_orphans : ∃ (log : List (DirEvent Nat)) (W : World Nat) (locks : Nat → Bool),
    DirRun log W locks ∧ (∀ e ∈ log, e.Proper) ∧ (∀ e ∈ log, e.Anew) ∧
    log.map (fun e => (e.cid, e.op, e.inum)) = [(0, .unlink 1 nameA fun _ => blankEntry, none),
      (1, .create 2 nameB blankEntry, some 3), (0, .mkdir 1 nameA blankEntry, some 2)] ∧
    ¬ ∀ e ∈ log, Tidy e.after := by
  obtain ⟨log, W, locks, run, proper, anew, spares, there, ops⟩ := staged
  have order := run.inOrder proper anew spares
  have found : extents W 1 = some ⟨T_DIR, [] ++ (newEntry blankEntry 2 nameA.bytes).bytes⟩ := by
    rw [there]
    rfl
  have directory : extents W 2 = some ⟨T_DIR, [] ++ (newEntry blankEntry 3 nameB.bytes).bytes⟩ := by
    rw [there]
    rfl
  have now : DirTurn.Proper ⟨W, 0, .unlink 1 nameA fun _ => blankEntry, none⟩ := by
    refine ⟨⟨by decide, _, found⟩, ?_⟩
    rintro ⟨_, _, ⟨⟩, -⟩
  have new : DirTurn.Anew ⟨W, 0, .unlink 1 nameA fun _ => blankEntry, none⟩ := nofun
  obtain ⟨r, locks', W', run', leaves⟩ := run.extend order 0 now new
  refine ⟨_, W', locks', run', ?_, ?_, by simp [ops], ?_⟩
  · rw [List.forall_mem_cons]
    exact ⟨now, proper⟩
  · rw [List.forall_mem_cons]
    exact ⟨new, anew⟩
  · rw [List.forall_mem_cons]
    rintro ⟨tidy, -⟩
    obtain ⟨it, inum, hit⟩ := only_entry nameA (by decide) (show 2 < 2 ^ 64 by decide)
    obtain ⟨child, inum', first⟩ := only_entry nameB (by decide) (show 3 < 2 ^ 64 by decide)
    have empty := order.sane.spares_of_tidy leaves.effect.1 tidy _ it _ found hit (inum ▸ directory)
    have named := find_name first
    rw [empty] at named
    cases named

end Orphan

end Yfs.Client
