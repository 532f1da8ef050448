import Yfs.Client.Names

/-! Creations when the inode table has no free inum left. `alloc_inode` then answers 0,
and `extent_server::create` passes it on with the status `OK`. -/

namespace Yfs.Client

open Yfs.Lib Yfs.Store Program

/-- All inums from 1 to `INODE_NUM - 1` are live. -/
def Full (E : Extents) : Prop := ∀ i, 1 ≤ i → i < INODE_NUM → E i ≠ none

/-- How the extents of an inode table answer a call. -/
def tabled : (c : Call) → Extents → c.Reply → Extents → Prop
  | .create type, E, r, E' => r.1 = OK ∧
    ((1 ≤ r.2 ∧ r.2 < INODE_NUM ∧ E r.2 = none ∧ E' = Function.update E r.2 (some ⟨type, []⟩)) ∨
      Full E ∧ r.2 = 0 ∧ E' = E)
  | .get eid, E, r, E' => answers (.get eid) E r E'
  | .put eid buf, E, r, E' => answers (.put eid buf) E r E'
  | .getattr eid, E, r, E' => answers (.getattr eid) E r E'
  | .remove eid, E, r, E' => answers (.remove eid) E r E'

theorem agrees_tabled : Agrees tabled := by
  intro c E r E' other
  cases c with
  | create type => exact absurd rfl (other type)
  | get | put | getattr | remove => exact Iff.rfl

/-- The same, where the inums that are given out are among those of `spare`, and what is removed is
there and not among them. -/
def given (spare : Nat → Prop) : (c : Call) → Extents → c.Reply → Extents → Prop
  | .get eid, E, r, E' => tabled (.get eid) E r E'
  | .put eid buf, E, r, E' => tabled (.put eid buf) E r E'
  | .getattr eid, E, r, E' => tabled (.getattr eid) E r E'
  | .create type, E, r, E' => (r.2 ≠ 0 → spare r.2) ∧ tabled (.create type) E r E'
  | .remove eid, E, r, E' => (E eid ≠ none ∧ ¬ spare eid) ∧ tabled (.remove eid) E r E'

/-- A creation finds the name, makes an entry for an inum that is free, or makes one for
inum 0. -/
def Making.Tabled (m : Making) (E : Extents) (r : Status × Option Nat) (E' : Extents) : Prop :=
  ∃ buf, E m.parent = some ⟨T_DIR, buf⟩ ∧
    ((∃ it, (entries buf).find? (·.name = m.name.bytes) = some it ∧ r = (EXIST, none) ∧ E' = E) ∨
      (entries buf).find? (·.name = m.name.bytes) = none ∧
        ((∃ ino, 1 ≤ ino ∧ ino < INODE_NUM ∧ E ino = none ∧ r = (OK, some ino) ∧ E' = m.apply ino buf E) ∨
          Full E ∧ r = (OK, some 0) ∧
            E' m.parent = some ⟨T_DIR, buf ++ (newEntry m.memory 0 m.name.bytes).bytes⟩))

theorem tabled_createNode {E E' : Extents} {type : UInt32} {parent : Nat} {name : Component} {memory : Entry}
    {r : Status × Option Nat} (returned : Returns tabled (createNode type parent name.bytes memory) E r E') :
    Making.Tabled ⟨parent, name, memory, type, []⟩ E r E' := by
  obtain ⟨buf, found, hit | ⟨miss, status, ino, E₁, x, created, still, rfl, rfl⟩⟩ :=
    returns_createNode agrees_tabled returned
  · exact ⟨buf, found, .inl hit⟩
  · refine ⟨buf, found, .inr ⟨miss, ?_⟩⟩
    obtain ⟨-, ⟨low, high, dead, rfl⟩ | ⟨full, rfl, rfl⟩⟩ := created
    · exact .inl ⟨ino, low, high, dead, rfl, apply_of_create found dead still⟩
    · cases found.symm.trans still
      exact .inr ⟨full, rfl, by simp⟩

theorem tabled_symlink {E E' : Extents} {parent : Nat} {name : Component} {link : List UInt8}
    {memory : Entry} {r : Status × Option Nat}
    (returned : Returns tabled (Client.symlink parent name.bytes link memory) E r E') :
    Making.Tabled ⟨parent, name, memory, T_SYMLINK, link⟩ E r E' := by
  obtain ⟨buf, found, hit | ⟨miss, status, ino, E₁, x, y, created, new, again, rfl, rfl⟩⟩ :=
    returns_symlink agrees_tabled returned
  · exact ⟨buf, found, .inl hit⟩
  · refine ⟨buf, found, .inr ⟨miss, ?_⟩⟩
    obtain ⟨-, ⟨low, high, dead, rfl⟩ | ⟨full, rfl, rfl⟩⟩ := created
    · exact .inl ⟨ino, low, high, dead, rfl, apply_of_symlink found dead new again⟩
    · refine .inr ⟨full, rfl, ?_⟩
      have directory : y.type = T_DIR := by
        by_cases same : parent = 0
        · subst same
          cases new.symm.trans found
          rw [Function.update_self] at again
          cases again
          rfl
        · rw [Function.update_of_ne same, found] at again
          cases again
          rfl
      simp [directory]

theorem Making.tabled_of_returns {op : TreeOp} {m : Making} (making : op.making = some m) {E E' : Extents}
    {r : Status × Option Nat} (returned : Returns tabled op.program E r E') : m.Tabled E r E' := by
  cases op with
  | create parent name memory =>
    cases making
    exact tabled_createNode returned
  | mkdir parent name memory =>
    cases making
    exact tabled_createNode returned
  | symlink parent name link memory =>
    cases making
    exact tabled_symlink returned
  | _ => cases making

/-- With no inum free the operation is to return an error and to change nothing. -/
def TreeOp.Reported (op : TreeOp) (E : Extents) : Prop :=
  Full E → (∃ r E', Returns tabled op.program E r E') ∧
    ∀ r E', Returns tabled op.program E r E' → r.1 ≠ OK ∧ E' = E

/-- The operation makes no new name while no inum is free. -/
def TreeOp.Roomy (op : TreeOp) (E : Extents) : Prop :=
  ∀ m buf, op.making = some m → E m.parent = some ⟨T_DIR, buf⟩ →
    (entries buf).find? (·.name = m.name.bytes) = none → ¬ Full E

/-- No directory has an entry for inum 0. -/
def Numbered (E : Extents) : Prop :=
  ∀ d buf, E d = some ⟨T_DIR, buf⟩ → ∀ e ∈ entries buf, e.inum ≠ 0

/-- The operations done on an empty file system over an inode table, the newest first,
and the extents they lead to. -/
inductive TableRun : List TreeEvent → Extents → Prop where
  | nil : TableRun [] emptyRoot
  | cons (run : TableRun log E)
      (admitted : ∀ ino x, op.target = some ino → E ino = some x → x.type ≠ T_DIR)
      (returned : Returns tabled op.program E r E') : TableRun (⟨E, op, r, E'⟩ :: log) E'

section Creation

variable {E E' : Extents} {op : TreeOp} {m : Making} {buf : List UInt8} {r : Status × Option Nat}
  (making : op.making = some m) (found : E m.parent = some ⟨T_DIR, buf⟩)
  (miss : (entries buf).find? (·.name = m.name.bytes) = none)
include making found miss

/-- A creation of a new name that returns with no inum free. -/
theorem tabled_full (full : Full E) (returned : Returns tabled op.program E r E') :
    r = (OK, some 0) ∧
      E' m.parent = some ⟨T_DIR, buf ++ (newEntry m.memory 0 m.name.bytes).bytes⟩ := by
  obtain ⟨buf', found', ⟨it, hit, -⟩ | ⟨-, ⟨ino, low, high, dead, -⟩ | ⟨-, result, after⟩⟩⟩ :=
    Making.tabled_of_returns making returned
  · cases found.symm.trans found'
    rw [miss] at hit
    cases hit
  · exact absurd dead (full ino low high)
  · cases found.symm.trans found'
    exact ⟨result, after⟩

theorem reported_iff : op.Reported E ↔ ¬ Full E := by
  constructor
  · intro reported full
    obtain ⟨⟨r, E', returned⟩, refused⟩ := reported full
    obtain ⟨rfl, -⟩ := tabled_full making found miss full returned
    exact (refused _ _ returned).1 rfl
  · intro room full
    exact absurd full room

/-- The entry that is written then is for inum 0. -/
theorem not_numbered_full (whole : Whole E) (full : Full E)
    (returned : Returns tabled op.program E r E') : ¬ Numbered E' := by
  intro numbered
  obtain ⟨-, after⟩ := tabled_full making found miss full returned
  let e : Entry := newEntry m.memory 0 m.name.bytes
  have written : e.reread ∈ entries (buf ++ e.bytes) := by
    rw [entries_append (whole _ _ found)]
    simp
  have zero : e.reread.inum = 0 := by
    rw [Entry.inum_reread]
    exact Entry.inum_make (by decide)
  exact numbered _ _ after _ written zero

end Creation

section Run

variable {E E' : Extents} {op : TreeOp} {r : Status × Option Nat} {log : List TreeEvent}

theorem Numbered.append {m : Making} {buf : List UInt8} {ino : Nat} (numbered : Numbered E)
    (whole : Whole E) (found : E m.parent = some ⟨T_DIR, buf⟩) (low : 1 ≤ ino) (high : ino < INODE_NUM) :
    ∀ e ∈ entries (buf ++ (newEntry m.memory ino m.name.bytes).bytes), e.inum ≠ 0 := by
  have small : ino < 2 ^ 64 := Nat.lt_trans high (by decide)
  rw [entries_append (whole _ _ found), List.forall_mem_append, List.forall_mem_singleton,
    Entry.inum_reread, newEntry, Entry.inum_make small]
  exact ⟨numbered _ _ found, Nat.ne_of_gt low⟩

theorem Numbered.rewrite {list : List Entry} (memory : Nat → Entry) (kept : ∀ e ∈ list, e.inum ≠ 0) :
    ∀ e ∈ entries (rewrite memory list), e.inum ≠ 0 := by
  intro e member
  rw [entries_rewrite] at member
  obtain ⟨k, inside, rfl⟩ := List.mem_mapIdx.mp member
  have same : (again (memory k) list[k]).inum = list[k].inum := Entry.inum_make (load_lt _ 8 0)
  rw [Entry.inum_reread, same]
  exact kept _ (List.getElem_mem inside)

/-- A step with an inum free when it needs one. -/
theorem Numbered.step (numbered : Numbered E) (whole : Whole E)
    (admitted : ∀ ino x, op.target = some ino → E ino = some x → x.type ≠ T_DIR)
    (returned : Returns tabled op.program E r E') (roomy : op.Roomy E) : Whole E' ∧ Numbered E' := by
  rcases making : op.making with _ | m
  · cases TreeOp.effect_of_agrees agrees_tabled making admitted returned with
    | exist | absent => exact ⟨whole, numbered⟩
    | made making' => simp [making] at making'
    | unlinked found =>
      refine ⟨unlinked_directories whole (whole_rewrite _ _), unlinked_directories numbered ?_⟩
      exact Numbered.rewrite _ fun e member => numbered _ _ found e (List.mem_of_mem_eraseP member)
    | written _ _ file => exact ⟨written_directories whole file, written_directories numbered file⟩
  · obtain ⟨buf, found, ⟨it, -, -, rfl⟩ | ⟨miss, ⟨ino, low, high, -, -, rfl⟩ | ⟨full, -⟩⟩⟩ :=
      Making.tabled_of_returns making returned
    · exact ⟨whole, numbered⟩
    · refine ⟨whole.made making found ino, ?_⟩
      exact Making.apply_directories numbered making (numbered.append whole found low high)
        (by simp [entries_nil])
    · exact absurd full (roomy m buf making found miss)

theorem TableRun.invariant (run : TableRun log E) (roomy : ∀ e ∈ log, e.op.Roomy e.before) :
    Whole E ∧ Numbered E := by
  induction run with
  | nil => exact ⟨emptyRoot_directories (Nat.dvd_zero _), emptyRoot_directories (by simp [entries_nil])⟩
  | cons _ admitted returned ih =>
    rw [List.forall_mem_cons] at roomy
    obtain ⟨whole, numbered⟩ := ih roomy.2
    exact numbered.step whole admitted returned roomy.1

theorem TableRun.numbered_iff (run : TableRun log E) :
    (∀ e ∈ log, Numbered e.after) ↔ ∀ e ∈ log, e.op.Roomy e.before := by
  induction run with
  | nil => simp
  | cons run admitted returned ih =>
    rw [List.forall_mem_cons, List.forall_mem_cons]
    constructor
    · rintro ⟨now, earlier⟩
      have roomy := ih.mp earlier
      refine ⟨?_, roomy⟩
      intro m buf making found miss full
      exact not_numbered_full making found miss (run.invariant roomy).1 full returned now
    · rintro ⟨now, earlier⟩
      obtain ⟨whole, numbered⟩ := run.invariant earlier
      exact ⟨(numbered.step whole admitted returned now).2, ih.mpr earlier⟩

end Run

/-- With no inum free no creation of a new name is refused, and the operations of a run
write no entry for inum 0 if and only if none of them makes a new name while no inum is
free. -/
theorem exhaustion_reported_iff_roomy (E : Extents) :
    (∀ op m buf, TreeOp.making op = some m → E m.parent = some ⟨T_DIR, buf⟩ →
      (entries buf).find? (·.name = m.name.bytes) = none → (op.Reported E ↔ ¬ Full E)) ∧
    ∀ log, TableRun log E →
      ((∀ e ∈ log, Numbered e.after) ↔ ∀ e ∈ log, e.op.Roomy e.before) := by
  constructor
  · intro op m buf making found miss
    exact reported_iff making found miss
  · intro log run
    exact run.numbered_iff

section Nested

private def inner : Component := ⟨[105], by decide, by decide, by decide, by decide⟩

private def stale : Entry := fun _ => 0

/-- `mkdir` of a name in the directory `n`, with the inum behind it. -/
private theorem mkdir_next {E : Extents} {n : Nat} (found : E n = some ⟨T_DIR, []⟩) (dead : E (n + 1) = none)
    (high : n + 1 < INODE_NUM) : Returns tabled (TreeOp.mkdir n inner stale).program E (OK, some (n + 1))
      (Making.apply ⟨n, inner, stale, T_DIR, []⟩ (n + 1) [] E) := by
  have created : tabled (.create T_DIR) E (OK, n + 1) (Function.update E (n + 1) (some ⟨T_DIR, []⟩)) :=
    ⟨rfl, .inl ⟨Nat.le_add_left 1 n, high, dead, rfl⟩⟩
  refine createNode_appends agrees_tabled found stale rfl created ?_
  rw [Function.update_of_ne (Nat.ne_of_lt (Nat.lt_succ_self n)), found]

/-- Directories one inside the other, up to the inum `n`. -/
private theorem nested_run {n : Nat} (low : 1 ≤ n) : n < INODE_NUM → ∃ log E, TableRun log E ∧
    (∀ e ∈ log, e.op.Roomy e.before) ∧ (∀ i, 1 ≤ i → i ≤ n → E i ≠ none) ∧ (∀ i, n < i → E i = none) ∧
    E n = some ⟨T_DIR, []⟩ := by
  induction n, low using Nat.le_induction with
  | base =>
    intro _
    refine ⟨[], emptyRoot, .nil, by simp, ?_, ?_, rfl⟩
    · intro i low high
      simp [emptyRoot, Nat.le_antisymm high low]
    · intro i behind
      simp [emptyRoot, Nat.ne_of_gt behind]
  | succ n low ih =>
    intro high
    obtain ⟨log, E, run, roomy, live, dead, found⟩ := ih (Nat.lt_of_succ_lt high)
    have free : E (n + 1) = none := dead _ (Nat.lt_succ_self n)
    refine ⟨_, _, run.cons (by simp [TreeOp.target]) (mkdir_next found free high), ?_, ?_, ?_, ?_⟩
    · rw [List.forall_mem_cons]
      refine ⟨?_, roomy⟩
      intro m buf making there miss full
      exact full (n + 1) (Nat.le_add_left 1 n) high free
    · intro i positive below
      by_cases home : i = n
      · simp [Making.apply, home]
      · by_cases self : i = n + 1
        · simp [Making.apply, self]
        · simpa [Making.apply, home, self] using live i positive (by omega)
    · intro i behind
      have home : i ≠ n := by omega
      have self : i ≠ n + 1 := by omega
      simpa [Making.apply, home, self] using dead i (by omega)
    · simp [Making.apply]

theorem exhaustion_reported_iff_roomy_emptyRoot :
    (TreeOp.mkdir 1 inner stale).Reported emptyRoot ∧
      Numbered (Making.apply ⟨1, inner, stale, T_DIR, []⟩ 2 [] emptyRoot) := by
  have root : emptyRoot 1 = some ⟨T_DIR, []⟩ := rfl
  have room : ¬ Full emptyRoot := fun full => full 2 (by decide) (by decide) rfl
  have run := TableRun.nil.cons (by simp [TreeOp.target]) (mkdir_next root rfl (by decide))
  refine ⟨((exhaustion_reported_iff_roomy _).1 _ _ [] rfl root rfl).mpr room, ?_⟩
  refine ((exhaustion_reported_iff_roomy _).2 _ run).mpr ?_ _ (List.mem_singleton_self _)
  rw [List.forall_mem_singleton]
  exact fun _ _ _ _ _ => room

/-- With 1023 directories there, `create` returns OK and writes an entry for inum 0. -/
theorem full_table_create_ok : ∃ log E op m E', TableRun log E ∧ Full E ∧ op.making = some m ∧
    E m.parent = some ⟨T_DIR, []⟩ ∧ ¬ op.Reported E ∧
    TableRun (⟨E, op, (OK, some 0), E'⟩ :: log) E' ∧ ¬ Numbered E' := by
  obtain ⟨log, E, run, roomy, live, dead, found⟩ := @nested_run 1023 (by decide) (by decide)
  have full : Full E := fun i low high => live i low (Nat.le_of_lt_succ high)
  have created : tabled (.create T_FILE) E (OK, 0) E := ⟨rfl, .inr ⟨full, rfl, rfl⟩⟩
  have returned : Returns tabled (TreeOp.create 1023 inner stale).program E (OK, some 0) _ :=
    createNode_appends agrees_tabled found stale rfl created found
  have making : (TreeOp.create 1023 inner stale).making = some ⟨1023, inner, stale, T_FILE, []⟩ := rfl
  refine ⟨log, E, _, _, _, run, full, making, found, ?_, run.cons (by simp [TreeOp.target]) returned, ?_⟩
  · intro reported
    exact (reported_iff making found rfl).mp reported full
  · exact not_numbered_full making found rfl (run.invariant roomy).1 full returned

end Nested

end Yfs.Client
