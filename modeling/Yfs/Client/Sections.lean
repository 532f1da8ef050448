import Yfs.Client.Service
import Yfs.Lib.Sections

/-! The operations of a client while others are at work: each of them is one section, on the extent
whose lock it takes and on the extent that it makes. -/

namespace Yfs.Client

open Yfs.Lib Program
open Yfs.Store (T_FILE T_DIR T_SYMLINK INODE_NUM MAXSIZE Attr)

/-- What a call to the extent client touches. -/
def Call.scope : Call → Scope Nat
  | .get eid | .put eid _ | .getattr eid => .cell eid
  | .create _ => .fresh
  | .remove _ => .wide

/-- The inum of a new extent. -/
def Call.made : (c : Call) → c.Reply → Nat
  | .create _, r => r.2
  | _, _ => 0

/-- How the extents of an inode table that is not full answer a call, with contents that fit in a
file. -/
def roomy : (c : Call) → Extents → c.Reply → Extents → Prop
  | .create type, E, r, E' => r.2 < INODE_NUM ∧ answers (.create type) E r E'
  | .get eid, E, r, E' => answers (.get eid) E r E'
  | .put eid buf, E, r, E' => buf.length ≤ MAXSIZE ∧ answers (.put eid buf) E r E'
  | .getattr eid, E, r, E' => answers (.getattr eid) E r E'
  | .remove eid, E, r, E' => answers (.remove eid) E r E'

/-- No content gets larger than a file can be. -/
theorem roomy_bounded {c : Call} {E E' : Extents} {r : c.Reply} (answered : roomy c E r E')
    (bounded : ∀ i x, E i = some x → x.bytes.length ≤ MAXSIZE) :
    ∀ i x, E' i = some x → x.bytes.length ≤ MAXSIZE := by
  have update : ∀ eid y, (∀ z, y = some z → z.bytes.length ≤ MAXSIZE) →
      ∀ i x, Function.update E eid y i = some x → x.bytes.length ≤ MAXSIZE := by
    intro eid y new i x found
    by_cases same : i = eid
    · subst same
      exact new x (by simpa using found)
    · exact bounded i x (by simpa [same] using found)
  cases c with
  | get =>
    obtain ⟨-, -, -, rfl⟩ := answered
    exact bounded
  | getattr =>
    obtain ⟨-, -, -, -, rfl⟩ := answered
    exact bounded
  | put eid buf =>
    obtain ⟨fits, y, -, -, rfl⟩ := answered
    exact update _ _ (by rintro _ ⟨⟩; exact fits)
  | create type =>
    obtain ⟨-, -, -, -, rfl⟩ := answered
    exact update _ _ (by rintro _ ⟨⟩; exact Nat.zero_le _)
  | remove eid =>
    obtain ⟨-, rfl⟩ := answered
    exact update _ _ nofun

section Cells

theorem local_keep {c : Call} {r : c.Reply} {ino : Nat} {P : Extent → Prop}
    (only : ∀ E E', roomy c E r E' ↔ ∃ x, E ino = some x ∧ P x ∧ E' = E) :
    Local Extent.type roomy c r ino := by
  refine ⟨?_, ?_, ?_, ?_⟩
  · intro E E' answered
    obtain ⟨x, -, -, rfl⟩ := (only E E').mp answered
    exact .refl E'
  · intro E E' answered
    obtain ⟨x, live, -, rfl⟩ := (only E E').mp answered
    simp [live]
  · intro E E' answered
    obtain ⟨x, -, -, rfl⟩ := (only E E').mp answered
    exact fun _ _ => rfl
  · intro E E' answered E₁ same
    obtain ⟨x, live, holds, rfl⟩ := (only E E').mp answered
    refine (only _ _).mpr ⟨x, same.trans live, holds, ?_⟩
    rw [← same, Function.update_eq_self]

theorem local_put (ino : Nat) (buf : List UInt8) (r : (Call.put ino buf).Reply) :
    Local Extent.type roomy (.put ino buf) r ino := by
  refine ⟨?_, ?_, ?_, ?_⟩
  · rintro E E' ⟨-, x, live, rfl, rfl⟩ k y found
    by_cases same : k = ino
    · subst same
      cases live.symm.trans found
      exact ⟨_, Function.update_self .., rfl⟩
    · exact ⟨y, by simpa [same] using found, rfl⟩
  · rintro E E' ⟨-, x, live, rfl, rfl⟩
    simp
  · rintro E E' ⟨-, x, live, rfl, rfl⟩ k other
    exact Function.update_of_ne other ..
  · rintro E E' ⟨fits, x, live, rfl, rfl⟩ E₁ same
    exact ⟨fits, x, same.trans live, rfl, by simp⟩

theorem local_create (type : UInt32) (r : (Call.create type).Reply) :
    Local Extent.type roomy (.create type) r r.2 := by
  refine ⟨?_, ?_, ?_, ?_⟩
  · rintro E E' ⟨inside, dead, small, ok, rfl⟩ k y found
    have other : k ≠ r.2 := by
      rintro rfl
      cases dead.symm.trans found
    exact ⟨y, by simpa [other] using found, rfl⟩
  · rintro E E' ⟨inside, dead, small, ok, rfl⟩
    simp
  · rintro E E' ⟨inside, dead, small, ok, rfl⟩ k other
    exact Function.update_of_ne other ..
  · rintro E E' ⟨inside, dead, small, ok, rfl⟩ E₁ same
    exact ⟨inside, same.trans dead, small, ok, by simp⟩

/-- Extents as cells of a store, each with a lock of its own. Their kind is their type. -/
def extentCells : Cells Nat Call Call.Reply Extent UInt32 where
  kind := Extent.type
  scope := Call.scope
  name := Call.made
  answers := roomy
  cell {c l} scope r := by
    cases c with
    | get eid =>
      cases scope
      exact local_keep (P := fun x => r = (OK, x.bytes)) fun _ _ => Iff.rfl
    | put eid buf =>
      cases scope
      exact local_put l buf r
    | getattr eid =>
      cases scope
      refine local_keep (P := fun x => r.1 = OK ∧ r.2.type = x.type) fun E E' => ?_
      simp only [roomy, answers, and_assoc]
    | create | remove => cases scope
  fresh {c} scope r := by
    cases c with
    | create type => exact ⟨local_create type r, fun answered => answered.2.1⟩
    | _ => cases scope

end Cells

/-- The extents of a file system in use. -/
structure Up (E : Extents) : Prop where
  mounted : Mounted E
  root : ∃ buf, E 1 = some ⟨T_DIR, buf⟩

/-- A program that does no harm to the extents while others work on them. -/
abbrev Safe {α : Type} (Q : α → List Nat → Extents → Prop) (p : Prog α) (own : List Nat) (E : Extents) :
    Prop := extentCells.Serves Up Q p own E

/-- Other threads have been at work. -/
abbrev Later (E E' : Extents) : Prop := Grows Extent.type E E' ∧ Up E'

/-- A live extent of this type. -/
def Is (E : Extents) (ino : Nat) (type : UInt32) : Prop := ∃ x, E ino = some x ∧ x.type = type

theorem Is.later {E E' : Extents} {ino : Nat} {type : UInt32} (is : Is E ino type) (later : Later E E') :
    Is E' ino type := by
  obtain ⟨x, live, typed⟩ := is
  obtain ⟨y, found, same⟩ := later.1 ino x live
  exact ⟨y, found, same.trans typed⟩

theorem Later.trans {E E' E'' : Extents} (first : Later E E') (second : Later E' E'') : Later E E'' :=
  ⟨first.1.trans second.1, second.2⟩

theorem Is.directory {E : Extents} {ino : Nat} (is : Is E ino T_DIR) : ∃ buf, E ino = some ⟨T_DIR, buf⟩ := by
  obtain ⟨⟨type, buf⟩, live, rfl⟩ := is
  exact ⟨buf, live⟩

section Calls

variable {α : Type} {Q : α → List Nat → Extents → Prop} {own : List Nat} {E : Extents} {ino : Nat}
  {x : Extent}

theorem safe_get {next : Status × List UInt8 → Prog α} (live : E ino = some x) (mine : ino ∈ own)
    (rest : Safe Q (next (OK, x.bytes)) own E) : Safe Q (.call (.get ino) next) own E := by
  refine ⟨List.ne_nil_of_mem mine, mine, fun _ => ⟨(OK, x.bytes), E, x, live, rfl, rfl⟩, ?_⟩
  rintro r E' ⟨y, found, rfl, rfl⟩
  cases live.symm.trans found
  exact rest

theorem safe_put {next : Status → Prog α} {buf : List UInt8} (fits : buf.length ≤ MAXSIZE)
    (live : E ino = some x) (mine : ino ∈ own)
    (rest : Safe Q (next OK) own (Function.update E ino (some { x with bytes := buf }))) :
    Safe Q (.call (.put ino buf) next) own E := by
  refine ⟨List.ne_nil_of_mem mine, mine, fun _ => ⟨OK, _, fits, x, live, rfl, rfl⟩, ?_⟩
  rintro r E' ⟨-, y, found, rfl, rfl⟩
  cases live.symm.trans found
  exact rest

theorem safe_getattr {next : Status × Attr → Prog α} (live : E ino = some x) (mine : ino ∈ own)
    (rest : ∀ a, a.type = x.type → Safe Q (next (OK, a)) own E) :
    Safe Q (.call (.getattr ino) next) own E := by
  refine ⟨List.ne_nil_of_mem mine, mine,
    fun _ => ⟨(OK, ⟨x.type, 0, 0, 0, 0⟩), E, x, live, rfl, rfl, rfl⟩, ?_⟩
  rintro ⟨status, a⟩ E' ⟨y, found, ok, type, rfl⟩
  cases live.symm.trans found
  cases ok
  exact rest a type

theorem safe_create {type : UInt32} {next : Status × Nat → Prog α} (inside : own ≠ [])
    (rest : ∀ ino, E ino = none → ino < INODE_NUM →
      Safe Q (next (OK, ino)) (own ++ [ino]) (Function.update E ino (some ⟨type, []⟩))) :
    Safe Q (.call (.create type) next) own E := by
  refine ⟨inside, trivial, fun old => absurd rfl old, ?_⟩
  rintro ⟨status, ino⟩ E' ⟨small, dead, -, ok, rfl⟩
  cases ok
  exact rest ino dead small

/-- The section of a lock begins after the other threads, on an extent of the same type. -/
theorem safe_acquire {rest : Prog α} {type : UInt32} (is : Is E ino type)
    (inside : ∀ E' x, Later E E' → E' ino = some x → x.type = type → Safe Q rest [ino] E') :
    Safe Q (.acquire ino rest) [] E := by
  obtain ⟨x, live, typed⟩ := is
  refine ⟨rfl, by simp [live], fun E' grows up => ?_⟩
  obtain ⟨y, found, same⟩ := grows ino x live
  exact inside E' y ⟨grows, up⟩ found (same.trans typed)

end Calls

section Operations

variable {E : Extents} {ino : Nat}

theorem safe_hasType {Q : Bool → List Nat → Extents → Prop} {kind : UInt32} (is : Is E ino kind)
    (type : UInt32) (rest : ∀ E', Later E E' → Q (decide (kind = type)) [] E') :
    Safe Q (hasType type ino) [] E := by
  simp only [hasType, acquire, release, call, acquire_bind, release_bind, done_bind, call_bind, pure_eq]
  refine safe_acquire is fun E' y later found same => ?_
  refine safe_getattr found (by simp) fun a typed => ?_
  rw [if_neg (by simp)]
  refine ⟨rfl, later.2, ?_⟩
  dsimp only
  rw [typed, same]
  exact rest E' later

theorem safe_getinfo {β : Type} {Q : Status × Option β → List Nat → Extents → Prop} {kind : UInt32}
    (is : Is E ino kind) (fill : Attr → β)
    (rest : ∀ E' a, Later E E' → Q (OK, some (fill a)) [] E') : Safe Q (getinfo fill ino) [] E := by
  simp only [getinfo, acquire, release, call, acquire_bind, release_bind, done_bind, call_bind, pure_eq]
  refine safe_acquire is fun E' y later found same => ?_
  refine safe_getattr found (by simp) fun a typed => ?_
  rw [if_neg (by simp)]
  exact ⟨rfl, later.2, rest E' a later⟩

/-- The file system is in use as before when the extents have grown further. -/
theorem Later.grow {E E' E'' : Extents} (later : Later E E') (grows : Grows Extent.type E' E'')
    (mounted : Mounted E'') : Later E E'' := by
  obtain ⟨before, -, buf, root⟩ := later
  refine ⟨before.trans grows, mounted, ?_⟩
  obtain ⟨y, there, same⟩ := grows 1 _ root
  exact ⟨y.bytes, by rw [there]; cases y; simpa using same⟩

/-- A file gets a new content. -/
theorem Later.written {E E' : Extents} {y : Extent} (later : Later E E') (found : E' ino = some y)
    (file : y.type = T_FILE) {bytes : List UInt8} (sized : bytes.length ≤ MAXSIZE) :
    Later E (Function.update E' ino (some { y with bytes })) :=
  later.grow ((local_put ino bytes OK).grows ⟨sized, y, found, rfl, rfl⟩)
    (later.2.mounted.written found file sized)

theorem safe_setattr {Q : Status → List Nat → Extents → Prop} (is : Is E ino T_FILE) {size : Nat}
    (sized : size ≤ MAXSIZE) (rest : ∀ E', Later E E' → Q OK [] E') :
    Safe Q (setattr ino size) [] E := by
  simp only [setattr, acquire, release, call, acquire_bind, release_bind, done_bind, call_bind, pure_eq]
  refine safe_acquire is fun E' y later found same => ?_
  refine safe_get found (by simp) ?_
  rw [if_neg (by simp)]
  have length : (resize y.bytes size).length ≤ MAXSIZE := by simpa [resize_eq_truncate, truncate] using sized
  refine safe_put length found (by simp) ?_
  have after := later.written found same length
  exact ⟨rfl, after.2, rest _ after⟩

/-- A `read` behind the end returns nothing, and keeps its lock. -/
theorem safe_read {Q : Status × List UInt8 → List Nat → Extents → Prop} (is : Is E ino T_FILE)
    {off : Nat} (small : off < 2 ^ 32) (size : Nat)
    (rest : ∀ E' data, Later E E' → Q (OK, data) [] E') (behind : ∀ E', Later E E' → Q (OK, []) [ino] E') :
    Safe Q (read ino size off) [] E := by
  have whole : uint off = off := Nat.mod_eq_of_lt small
  simp only [read, acquire, release, call, acquire_bind, release_bind, done_bind, call_bind, pure_eq, substr]
  refine safe_acquire is fun E' y later found same => ?_
  refine safe_get found (by simp) ?_
  rw [if_neg (by simp), whole]
  split
  · exact behind E' later
  · rename_i within
    rw [if_neg (by omega)]
    exact ⟨rfl, later.2, rest E' _ later⟩

theorem safe_write {Q : Status × Nat → List Nat → Extents → Prop} (is : Is E ino T_FILE)
    {off : Nat} {data : List UInt8} (sized : off + data.length ≤ MAXSIZE)
    (rest : ∀ E' count, Later E E' → Q (OK, count) [] E') : Safe Q (write ino off data) [] E := by
  have small : off < 2 ^ 32 := Nat.lt_of_le_of_lt ((Nat.le_add_right ..).trans sized) (by decide)
  have whole : uint off = off := Nat.mod_eq_of_lt small
  simp only [write, acquire, release, call, acquire_bind, release_bind, done_bind, call_bind, pure_eq,
    replace]
  refine safe_acquire is fun E' y later found same => ?_
  have before := later.2.mounted.sane.fits later.2.mounted.compact found
  refine safe_get found (by simp) ?_
  rw [whole]
  dsimp only
  split
  · rename_i inside
    rw [if_neg (by omega), done_bind, replace_eq_writeAt data inside]
    have length : (writeAt y.bytes off data).length ≤ MAXSIZE := by simpa [writeAt] using ⟨before, sized⟩
    refine safe_put length found (by simp) ?_
    have after := later.written found same length
    exact ⟨rfl, after.2, rest _ _ after⟩
  · have long : off ≤ (resize y.bytes (data.length + off)).length := by
      simp [resize_eq_truncate, truncate]
    rw [if_neg (by omega), done_bind, replace_eq_writeAt data long]
    have length : (writeAt (resize y.bytes (data.length + off)) off data).length ≤ MAXSIZE := by
      simp only [writeAt, resize_eq_truncate, truncate, List.length_map, List.length_range]
      omega
    refine safe_put length found (by simp) ?_
    have after := later.written found same length
    exact ⟨rfl, after.2, rest _ _ after⟩

theorem safe_readlink {Q : Status × List UInt8 → List Nat → Extents → Prop} (is : Is E ino T_SYMLINK)
    (rest : ∀ E' bytes, Later E E' → Q (OK, bytes) [] E') : Safe Q (readlink ino) [] E := by
  simp only [readlink, acquire, release, call, acquire_bind, release_bind, done_bind, call_bind, pure_eq]
  refine safe_acquire is fun E' y later found same => ?_
  refine safe_get found (by simp) ?_
  exact ⟨rfl, later.2, rest E' _ later⟩

section Directory

variable {d : Nat} {buf name : List UInt8}

/-- Reading a directory inside its section. -/
theorem safe_entries {Q : List Entry → List Nat → Extents → Prop} {own : List Nat}
    (found : E d = some ⟨T_DIR, buf⟩) (mine : d ∈ own) (rest : Q (entries buf) own E) :
    Safe Q (__readdir d) own E := by
  simp only [__readdir, call, done_bind, call_bind, pure_eq]
  refine safe_get found mine ?_
  rw [if_neg (by simp)]
  refine safe_getattr found mine fun a type => ?_
  dsimp only
  rw [if_neg (by simp [type])]
  exact rest

theorem safe_find {Q : Status × Option Nat → List Nat → Extents → Prop} {own : List Nat}
    (found : E d = some ⟨T_DIR, buf⟩) (mine : d ∈ own)
    (rest : ∀ status, Q (status, ((entries buf).find? (·.name = name)).map Entry.inum) own E) :
    Safe Q (__lookup d name) own E := by
  refine Cells.Serves.bind (safe_entries found mine ?_)
  rcases hit : (entries buf).find? (·.name = name) with _ | it
  · simpa [hit, Cells.Serves] using rest OK
  · simpa [hit, Cells.Serves] using rest EXIST

variable (is : Is E d T_DIR)
include is

/-- A section on a directory. -/
theorem safe_directory {α : Type} {Q : α → List Nat → Extents → Prop} {rest : Prog α}
    (inside : ∀ E' buf, Later E E' → E' d = some ⟨T_DIR, buf⟩ → Safe Q rest [d] E') :
    Safe Q (.acquire d rest) [] E := by
  refine safe_acquire is fun E' y later _ _ => ?_
  obtain ⟨buf, found⟩ := (is.later later).directory
  exact inside E' buf later found

theorem safe_readdir {Q : Status × List (List UInt8 × Nat) → List Nat → Extents → Prop}
    (rest : ∀ E' list, Later E E' → Q (OK, list) [] E') : Safe Q (readdir d) [] E := by
  simp only [readdir, acquire, release, acquire_bind, release_bind, done_bind, pure_eq]
  refine safe_directory is fun E' buf later found => ?_
  refine Cells.Serves.bind (safe_entries found (by simp) ?_)
  exact ⟨rfl, later.2, rest E' _ later⟩

/-- What a lookup finds is there. -/
theorem safe_lookup {Q : Status × Option Nat → List Nat → Extents → Prop}
    (rest : ∀ E' r, Later E E' → (∀ ino, r.2 = some ino → E' ino ≠ none) → Q r [] E') :
    Safe Q (lookup d name) [] E := by
  simp only [lookup, acquire, release, acquire_bind, release_bind, done_bind, pure_eq]
  refine safe_directory is fun E' buf later found => ?_
  refine Cells.Serves.bind (safe_find found (by simp) fun status => ?_)
  refine ⟨rfl, later.2, rest E' _ later fun ino looked => ?_⟩
  obtain ⟨it, hit, rfl⟩ := Option.map_eq_some_iff.mp looked
  exact later.2.mounted.sane.target_live found hit

omit is in
/-- A new extent gets its name. -/
theorem Later.made {E E' : Extents} {op : TreeOp} {m : Making} {ino : Nat} {buf : List UInt8}
    (later : Later E E') (making : op.making = some m) (short : m.name.bytes.length ≤ MAX_LENGTH)
    (found : E' m.parent = some ⟨T_DIR, buf⟩) (miss : (entries buf).find? (·.name = m.name.bytes) = none)
    (dead : E' ino = none) (small : ino < INODE_NUM) (sized : m.content.length ≤ MAXSIZE)
    (plain : m.type = T_SYMLINK → 0 ∉ m.content) :
    Later E (m.apply ino buf E') ∧ m.apply ino buf E' ino = some ⟨m.type, m.content⟩ ∧
      (buf ++ (newEntry m.memory ino m.name.bytes).bytes).length ≤ MAXSIZE := by
  have apart : ino ≠ m.parent := Ne.symm (parent_ne_new found dead)
  have mounted := later.2.mounted.made making short found miss dead small sized plain
  refine ⟨later.grow ?_ mounted, ?_, mounted.sane.fits mounted.compact (Making.apply_parent ..)⟩
  · intro k y there
    by_cases home : k = m.parent
    · subst home
      cases found.symm.trans there
      exact ⟨_, Making.apply_parent .., rfl⟩
    · have other : k ≠ ino := by
        rintro rfl
        cases dead.symm.trans there
      exact ⟨y, by rw [Making.apply_of_ne home other, there], rfl⟩
  · simp [Making.apply, apart]

theorem safe_createNode {Q : Status × Option Nat → List Nat → Extents → Prop} {name : Component}
    {type : UInt32} {memory : Entry} {op : TreeOp} (making : op.making = some ⟨d, name, memory, type, []⟩)
    (short : name.bytes.length ≤ MAX_LENGTH) (exist : ∀ E', Later E E' → Q (EXIST, none) [] E')
    (rest : ∀ E' ino, Later E E' → E' ino = some ⟨type, []⟩ → Q (OK, some ino) [] E') :
    Safe Q (createNode type d name.bytes memory) [] E := by
  simp only [createNode, acquire, release, call, acquire_bind, release_bind, done_bind, call_bind, pure_eq]
  refine safe_directory is fun E' buf later found => ?_
  refine Cells.Serves.bind (safe_find found (by simp) fun status => ?_)
  rcases hit : (entries buf).find? (·.name = name.bytes) with _ | it
  · simp only [hit, Option.map_none, Option.isSome_none, Bool.false_eq_true, if_false]
    refine safe_create (by simp) fun ino dead small => ?_
    have still : Function.update E' ino (some ⟨type, []⟩) d = some ⟨T_DIR, buf⟩ := by
      rw [Function.update_of_ne (parent_ne_new found dead), found]
    refine safe_get still (by simp) ?_
    rw [if_neg (by simp)]
    obtain ⟨after, new, fits⟩ := later.made making short found hit dead small (Nat.zero_le _) (by simp)
    refine safe_put fits still (by simp) ?_
    exact ⟨rfl, after.2, rest _ ino after new⟩
  · simp only [hit, Option.map_some, Option.isSome_some, if_true]
    exact ⟨rfl, later.2, exist E' later⟩

theorem safe_symlink {Q : Status × Option Nat → List Nat → Extents → Prop} {name : Component}
    {link : List UInt8} (memory : Entry) (plain : 0 ∉ link) (sized : link.length ≤ MAXSIZE)
    (short : name.bytes.length ≤ MAX_LENGTH)
    (exist : ∀ E', Later E E' → Q (EXIST, none) [] E')
    (rest : ∀ E' ino, Later E E' → E' ino = some ⟨T_SYMLINK, link⟩ → Q (OK, some ino) [] E') :
    Safe Q (symlink d name.bytes link memory) [] E := by
  simp only [symlink, acquire, release, call, acquire_bind, release_bind, done_bind, call_bind, pure_eq]
  refine safe_directory is fun E' buf later found => ?_
  refine safe_get found (by simp) (Cells.Serves.bind (safe_find found (by simp) fun status => ?_))
  rcases hit : (entries buf).find? (·.name = name.bytes) with _ | it
  · simp only [hit, Option.map_none, Option.isSome_none, Bool.false_eq_true, if_false]
    refine safe_create (by simp) fun ino dead small => ?_
    refine safe_put sized (Function.update_self ..) (by simp) ?_
    rw [Function.update_idem]
    have still : Function.update E' ino (some ⟨T_SYMLINK, link⟩) d = some ⟨T_DIR, buf⟩ := by
      rw [Function.update_of_ne (parent_ne_new found dead), found]
    have making : (TreeOp.symlink d name link memory).making = some ⟨d, name, memory, T_SYMLINK, link⟩ := rfl
    obtain ⟨after, new, fits⟩ := later.made making short found hit dead small sized fun _ => plain
    refine safe_put fits still (by simp) ?_
    exact ⟨rfl, after.2, rest _ ino after new⟩
  · simp only [hit, Option.map_some, Option.isSome_some, if_true]
    exact ⟨rfl, later.2, exist E' later⟩

end Directory

end Operations

end Yfs.Client
