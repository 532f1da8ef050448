import Yfs.Client.FileTree

/-! What the operations of a client, and the handlers over them, do on the extents of an inode
table: they come to an end without a lock taken. -/

namespace Yfs.Client

open Yfs.Lib Program
open Yfs.Store (T_FILE T_DIR T_SYMLINK INODE_NUM Attr)

variable {spare : Nat → Prop}

section Calls

variable {α : Type} {Q : α → (Nat → Bool) → Extents → Prop} {h : Nat → Bool} {E : Extents}

section Live

variable {ino : Nat} {x : Extent} (live : E ino = some x)
include live

theorem completes_get {next : Status × List UInt8 → Prog α} :
    (Program.call (.get ino) next : Prog α).Completes (given spare) Q h E ↔
      (next (OK, x.bytes)).Completes (given spare) Q h E :=
  completes_call (c := Call.get ino) (by simp [given, tabled, answers, live])

theorem completes_put {next : Status → Prog α} (buf : List UInt8) :
    (Program.call (.put ino buf) next : Prog α).Completes (given spare) Q h E ↔
      (next OK).Completes (given spare) Q h (Function.update E ino (some { x with bytes := buf })) :=
  completes_call (c := Call.put ino buf) (by simp [given, tabled, answers, live])

theorem completes_getattr {next : Status × Attr → Prog α}
    (all : ∀ a, a.type = x.type → (next (OK, a)).Completes (given spare) Q h E) :
    (Program.call (.getattr ino) next : Prog α).Completes (given spare) Q h E := by
  refine ⟨⟨(OK, ⟨x.type, 0, 0, 0, 0⟩), E, x, live, rfl, rfl, rfl⟩, ?_⟩
  rintro ⟨r, a⟩ E' ⟨y, found, status, type, rfl⟩
  cases live.symm.trans found
  cases status
  exact all a type

end Live

theorem completes_remove {ino : Nat} {next : Status → Prog α} (live : E ino ≠ none) (kept : ¬ spare ino) :
    (Program.call (.remove ino) next : Prog α).Completes (given spare) Q h E ↔
      (next OK).Completes (given spare) Q h (Function.update E ino none) :=
  completes_call (c := Call.remove ino) (by simp [given, tabled, answers, live, kept])

/-- An inum to be given out. -/
def Spare (spare : Nat → Prop) (E : Extents) : Prop := ∃ i, spare i ∧ 1 ≤ i ∧ i < INODE_NUM ∧ E i = none

theorem completes_create {type : UInt32} {next : Status × Nat → Prog α} (room : Spare spare E)
    (all : ∀ ino, spare ino → ino < INODE_NUM → E ino = none →
      (next (OK, ino)).Completes (given spare) Q h (Function.update E ino (some ⟨type, []⟩))) :
    (Program.call (.create type) next : Prog α).Completes (given spare) Q h E := by
  obtain ⟨i, free, low, high, dead⟩ := room
  refine ⟨⟨(OK, i), _, fun _ => free, rfl, .inl ⟨low, high, dead, rfl⟩⟩, ?_⟩
  rintro ⟨r, ino⟩ E' ⟨taken, status, ⟨positive, small, unused, rfl⟩ | ⟨full, _⟩⟩
  · cases status
    exact all ino (taken (Nat.ne_of_gt positive)) small unused
  · exact absurd dead (full i low high)

theorem completes_readdir {d : Nat} {buf : List UInt8} {Q : List Entry → (Nat → Bool) → Extents → Prop}
    (found : E d = some ⟨T_DIR, buf⟩) (holds : Q (entries buf) h E) :
    (__readdir d).Completes (given spare) Q h E := by
  simp only [__readdir, call, done_bind, call_bind, pure_eq]
  rw [completes_get found, if_neg (by simp)]
  refine completes_getattr found fun a type => ?_
  dsimp only
  rw [if_neg (by simp [type])]
  exact holds

theorem completes_lookup {d : Nat} {buf name : List UInt8}
    {Q : Status × Option Nat → (Nat → Bool) → Extents → Prop} (found : E d = some ⟨T_DIR, buf⟩)
    (holds : ∀ status, Q (status, ((entries buf).find? (·.name = name)).map Entry.inum) h E) :
    (__lookup d name).Completes (given spare) Q h E := by
  refine Completes.bind (completes_readdir found ?_)
  rcases hit : (entries buf).find? (·.name = name) with _ | it
  · simpa [hit] using holds OK
  · simpa [hit] using holds EXIST

end Calls

section Operations

variable {E : Extents} {ino : Nat} {x : Extent}

theorem clean_hasType (live : E ino = some x) (type : UInt32) :
    (hasType type ino).Clean (given spare) (fun b E' => b = decide (x.type = type) ∧ E' = E) E := by
  simp only [hasType, acquire, release, call, acquire_bind, release_bind, done_bind, call_bind, pure_eq]
  refine .under (completes_getattr live fun a same => ?_)
  rw [if_neg (by simp)]
  exact ⟨free_again ino, by simp [same], rfl⟩

theorem clean_getinfo {β : Type} (live : E ino = some x) (fill : Attr → β) :
    (getinfo fill ino).Clean (given spare)
      (fun r E' => (∃ a, a.type = x.type ∧ r = (OK, some (fill a))) ∧ E' = E) E := by
  simp only [getinfo, acquire, release, call, acquire_bind, release_bind, done_bind, call_bind, pure_eq]
  refine .under (completes_getattr live fun a same => ?_)
  rw [if_neg (by simp)]
  exact ⟨free_again ino, ⟨a, same, rfl⟩, rfl⟩

theorem clean_setattr (live : E ino = some x) (size : Nat) : (setattr ino size).Clean (given spare)
    (fun _ E' => E' = Function.update E ino (some { x with bytes := truncate x.bytes size })) E := by
  simp only [setattr, acquire, release, call, acquire_bind, release_bind, done_bind, call_bind, pure_eq]
  refine .under ?_
  rw [completes_get live, if_neg (by simp), completes_put live]
  exact ⟨free_again ino, by rw [resize_eq_truncate]⟩

theorem clean_read (live : E ino = some x) {off : Nat} (inside : off < x.bytes.length) (size : Nat) :
    (read ino size off).Clean (given spare) (fun r E' => r = (OK, readAt x.bytes off size) ∧ E' = E) E := by
  simp only [read, acquire, release, call, acquire_bind, release_bind, done_bind, call_bind, pure_eq, substr]
  refine .under ?_
  have within : ¬ x.bytes.length ≤ uint off := by
    have smaller := uint_le off
    omega
  rw [completes_get live, if_neg (by simp)]
  dsimp only
  rw [if_neg within, if_neg (by omega)]
  exact ⟨free_again ino, by rw [substr_eq_readAt], rfl⟩

theorem clean_write (live : E ino = some x) {off : Nat} (small : off < 2 ^ 32) (data : List UInt8) :
    (write ino off data).Clean (given spare) (fun r E' => r.1 = OK ∧
      (off ≤ x.bytes.length → r.2 = data.length) ∧
      E' = Function.update E ino (some { x with bytes := writeAt x.bytes off data })) E := by
  have same : uint off = off := Nat.mod_eq_of_lt small
  simp only [write, acquire, release, call, acquire_bind, release_bind, done_bind, call_bind, pure_eq,
    replace]
  refine .under ?_
  rw [completes_get live, same]
  dsimp only
  by_cases inside : off ≤ x.bytes.length
  · rw [if_pos inside, if_neg (by omega), done_bind, completes_put live]
    exact ⟨free_again ino, rfl, fun _ => rfl, by rw [replace_eq_writeAt data inside]⟩
  · have grown : off ≤ (resize x.bytes (data.length + off)).length := by
      simp [resize_eq_truncate, truncate]
    rw [if_neg inside, if_neg (by omega), done_bind, completes_put live]
    refine ⟨free_again ino, rfl, fun within => absurd within inside, ?_⟩
    rw [replace_eq_writeAt data grown, writeAt_resize data (Nat.lt_of_not_le inside)]

theorem clean_readlink (live : E ino = some x) :
    (readlink ino).Clean (given spare) (fun r E' => r = (OK, x.bytes) ∧ E' = E) E := by
  simp only [readlink, acquire, release, call, acquire_bind, release_bind, done_bind, call_bind, pure_eq]
  refine .under ?_
  rw [completes_get live]
  exact ⟨free_again ino, rfl, rfl⟩

section Directory

variable {d : Nat} {buf name : List UInt8} (found : E d = some ⟨T_DIR, buf⟩)
include found

theorem clean_readdir : (readdir d).Clean (given spare) (fun r E' => r = (OK, listing buf) ∧ E' = E) E := by
  simp only [readdir, acquire, release, acquire_bind, release_bind, done_bind, pure_eq]
  refine .under (Completes.bind (completes_readdir found ?_))
  exact ⟨free_again d, rfl, rfl⟩

theorem clean_lookup : (lookup d name).Clean (given spare)
    (fun r E' => r.2 = ((entries buf).find? (·.name = name)).map Entry.inum ∧ E' = E) E := by
  simp only [lookup, acquire, release, acquire_bind, release_bind, done_bind, pure_eq]
  refine .under (Completes.bind (completes_lookup found fun status => ?_))
  exact ⟨free_again d, rfl, rfl⟩

theorem clean_unlink (memory : Nat → Entry) (free : ∀ id, spare id → E id = none)
    (apart : ∀ it, (entries buf).find? (·.name = name) = some it → it.inum ≠ d)
    (live : ∀ it, (entries buf).find? (·.name = name) = some it → E it.inum ≠ none) :
    (unlink d name memory).Clean (given spare) (fun r E' =>
      ((entries buf).find? (·.name = name) = none ∧ r = NOENT ∧ E' = E) ∨
        ∃ it, (entries buf).find? (·.name = name) = some it ∧ r = OK ∧
          E' = unlinked d name memory it buf E) E := by
  simp only [unlink, acquire, release, call, acquire_bind, release_bind, done_bind, call_bind, pure_eq]
  refine .under (Completes.bind (completes_readdir found ?_))
  split
  · rename_i miss
    exact ⟨free_again d, .inl ⟨miss, rfl, rfl⟩⟩
  · rename_i it hit
    have still : Function.update E it.inum none d = some ⟨T_DIR, buf⟩ := by
      rw [Function.update_of_ne (Ne.symm (apart it hit)), found]
    have kept : ¬ spare it.inum := fun spared => live it hit (free _ spared)
    rw [completes_remove (live it hit) kept, completes_put still]
    exact ⟨free_again d, .inr ⟨it, hit, rfl, rfl⟩⟩

/-- `create` and `mkdir` find the name, or make an entry for a free inum. -/
theorem clean_createNode (type : UInt32) (memory : Entry)
    (room : (entries buf).find? (·.name = name) = none → Spare spare E) :
    (createNode type d name memory).Clean (given spare) (fun r E' =>
      ((entries buf).find? (·.name = name) ≠ none ∧ r = (EXIST, none) ∧ E' = E) ∨
        ∃ ino, (entries buf).find? (·.name = name) = none ∧ spare ino ∧ ino < INODE_NUM ∧
          E ino = none ∧ r = (OK, some ino) ∧ E' = Function.update (Function.update E ino (some ⟨type, []⟩)) d
            (some ⟨T_DIR, buf ++ (newEntry memory ino name).bytes⟩)) E := by
  simp only [createNode, acquire, release, call, acquire_bind, release_bind, done_bind, call_bind, pure_eq]
  refine .under (Completes.bind (completes_lookup found fun status => ?_))
  rcases hit : (entries buf).find? (·.name = name) with _ | it
  · simp only [hit, Option.map_none, Option.isSome_none, Bool.false_eq_true, if_false]
    refine completes_create (room hit) fun ino free small dead => ?_
    have still : Function.update E ino (some ⟨type, []⟩) d = some ⟨T_DIR, buf⟩ := by
      rw [Function.update_of_ne (parent_ne_new found dead), found]
    rw [completes_get still, if_neg (by simp), completes_put still]
    exact ⟨free_again d, .inr ⟨ino, trivial, free, small, dead, rfl, rfl⟩⟩
  · simp only [hit, Option.map_some, Option.isSome_some, if_true]
    exact ⟨free_again d, .inl ⟨by simp, rfl, rfl⟩⟩

theorem clean_symlink (link : List UInt8) (memory : Entry)
    (room : (entries buf).find? (·.name = name) = none → Spare spare E) :
    (symlink d name link memory).Clean (given spare) (fun r E' =>
      ((entries buf).find? (·.name = name) ≠ none ∧ r = (EXIST, none) ∧ E' = E) ∨
        ∃ ino, (entries buf).find? (·.name = name) = none ∧ spare ino ∧ ino < INODE_NUM ∧
          E ino = none ∧ r = (OK, some ino) ∧
          E' = Function.update (Function.update E ino (some ⟨T_SYMLINK, link⟩)) d
            (some ⟨T_DIR, buf ++ (newEntry memory ino name).bytes⟩)) E := by
  simp only [symlink, acquire, release, call, acquire_bind, release_bind, done_bind, call_bind, pure_eq]
  refine .under ?_
  rw [completes_get found]
  refine Completes.bind (completes_lookup found fun status => ?_)
  rcases hit : (entries buf).find? (·.name = name) with _ | it
  · simp only [hit, Option.map_none, Option.isSome_none, Bool.false_eq_true, if_false]
    refine completes_create (room hit) fun ino free small dead => ?_
    have new : Function.update E ino (some ⟨T_SYMLINK, []⟩) ino = some ⟨T_SYMLINK, []⟩ :=
      Function.update_self ..
    rw [completes_put new, Function.update_idem]
    have still : Function.update E ino (some ⟨T_SYMLINK, link⟩) d = some ⟨T_DIR, buf⟩ := by
      rw [Function.update_of_ne (parent_ne_new found dead), found]
    rw [completes_put still]
    exact ⟨free_again d, .inr ⟨ino, trivial, free, small, dead, rfl, rfl⟩⟩
  · simp only [hit, Option.map_some, Option.isSome_some, if_true]
    exact ⟨free_again d, .inl ⟨by simp, rfl, rfl⟩⟩

end Directory

end Operations

/-- The node that a user sees behind an extent. -/
def Extent.node (x : Extent) : Node :=
  if x.type = T_DIR then .dir (listing x.bytes)
  else if x.type = T_SYMLINK then .link x.bytes
  else .file x.bytes

/-- The tree in the extents. -/
def tree (E : Extents) : FileTree := fun i => (E i).map Extent.node

/-- The three types that a creation gives. -/
def Extent.Typed (x : Extent) : Prop := x.type = T_FILE ∨ x.type = T_DIR ∨ x.type = T_SYMLINK

namespace Fuse

variable {E : Extents} {ino : Nat} {x : Extent}

/-- `getattr` tells the kind of an inode. -/
theorem clean_getattr (live : E ino = some x) (typed : x.Typed) : (Fuse.getattr ino).Clean (given spare)
    (fun r E' => r.1 = OK ∧ r.2.Describes ino x.node ∧ E' = E) E := by
  have asked (type : UInt32) {α : Type} {f : Bool → Prog α} {Q : α → Extents → Prop}
      (rest : (f (decide (x.type = type))).Clean (given spare) Q E) :
      (hasType type ino >>= f).Clean (given spare) Q E := by
    refine Clean.bind (Clean.mono ?_ (clean_hasType live type))
    rintro _ _ ⟨rfl, rfl⟩
    exact rest
  have filled {α β : Type} {fill : Attr → β} {f : Status × Option β → Prog α} {Q : α → Extents → Prop}
      (rest : ∀ a, (f (OK, some (fill a))).Clean (given spare) Q E) :
      (getinfo fill ino >>= f).Clean (given spare) Q E := by
    refine Clean.bind (Clean.mono ?_ (clean_getinfo live fill))
    rintro _ _ ⟨⟨a, _, rfl⟩, rfl⟩
    exact rest a
  refine asked T_FILE (asked T_FILE ?_)
  rcases typed with type | type | type <;> simp only [type]
  · rw [if_pos (by decide)]
    refine filled fun a => clean_done.mpr ?_
    simp [Stat.Describes, Extent.node, type, T_FILE, T_DIR, T_SYMLINK, fileStat]
  · rw [if_neg (by decide)]
    refine asked T_DIR ?_
    simp only [type]
    rw [if_pos (by decide)]
    refine filled fun a => clean_done.mpr ?_
    simp [Stat.Describes, Extent.node, type]
  · rw [if_neg (by decide)]
    refine asked T_DIR ?_
    simp only [type]
    rw [if_neg (by decide)]
    refine asked T_SYMLINK ?_
    simp only [type]
    rw [if_pos (by decide)]
    refine filled fun a => clean_done.mpr ?_
    simp [Stat.Describes, Extent.node, type, T_DIR, T_SYMLINK, fileStat]

end Fuse

end Yfs.Client
