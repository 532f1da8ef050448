import Yfs.Client.Extents
import Yfs.Client.Directory

/-! Runs of the operations that change the directory tree, each of them alone on the
extents, and what every one of them does. -/

namespace Yfs.Client

open Yfs.Lib Yfs.Store Program

/-- A name that FUSE passes on: no longer than the `f_namemax` of `fuseserver_statfs`,
without a null character and without a slash. -/
structure Component where
  bytes : List UInt8
  nonempty : 1 ≤ bytes.length
  bounded : bytes.length ≤ 255
  noNul : 0 ∉ bytes
  noSlash : 47 ∉ bytes

/-- A component that fits in an entry. -/
def Component.toName (name : Component) (short : name.bytes.length ≤ MAX_LENGTH) : Name :=
  ⟨name.bytes, name.nonempty, short, name.noNul⟩

@[simp] theorem Component.toName_bytes (name : Component) (short : name.bytes.length ≤ MAX_LENGTH) :
    (name.toName short).bytes = name.bytes := rfl

/-- The operations that change directories or files, with the stack memory they use. -/
inductive TreeOp where
  | create (parent : Nat) (name : Component) (memory : Entry)
  | mkdir (parent : Nat) (name : Component) (memory : Entry)
  | symlink (parent : Nat) (name : Component) (link : List UInt8) (memory : Entry)
  | unlink (parent : Nat) (name : Component) (memory : Nat → Entry)
  | write (ino off : Nat) (data : List UInt8)
  | setattr (ino size : Nat)

namespace TreeOp

/-- The program, with its status and the inum it has set. -/
def program : TreeOp → Prog (Status × Option Nat)
  | .create parent name memory => Client.create parent name.bytes memory
  | .mkdir parent name memory => Client.mkdir parent name.bytes memory
  | .symlink parent name link memory => Client.symlink parent name.bytes link memory
  | .unlink parent name memory => return (← Client.unlink parent name.bytes memory, none)
  | .write ino off data => return ((← Client.write ino off data).1, none)
  | .setattr ino size => return (← Client.setattr ino size, none)

/-- The file that an operation writes. -/
def target : TreeOp → Option Nat
  | .write ino _ _ | .setattr ino _ => some ino
  | _ => none

end TreeOp

/-- What a creation makes: an entry in `parent`, and an extent of a type and a content. -/
structure Making where
  parent : Nat
  name : Component
  memory : Entry
  type : UInt32
  content : List UInt8

/-- What an operation makes, if it is a creation. -/
def TreeOp.making : TreeOp → Option Making
  | .create parent name memory => some ⟨parent, name, memory, T_FILE, []⟩
  | .mkdir parent name memory => some ⟨parent, name, memory, T_DIR, []⟩
  | .symlink parent name link memory => some ⟨parent, name, memory, T_SYMLINK, link⟩
  | _ => none

/-- A new directory is empty. -/
theorem TreeOp.making_content {op : TreeOp} {m : Making} (making : op.making = some m)
    (directory : m.type = T_DIR) : m.content = [] := by
  cases op with
  | create | mkdir =>
    cases making
    rfl
  | symlink =>
    cases making
    simp [T_SYMLINK, T_DIR] at directory
  | _ => cases making

/-- The extents after an entry has been made for the new extent `ino`. -/
def Making.apply (m : Making) (ino : Nat) (buf : List UInt8) (E : Extents) : Extents :=
  Function.update (Function.update E ino (some ⟨m.type, m.content⟩)) m.parent
    (some ⟨T_DIR, buf ++ (newEntry m.memory ino m.name.bytes).bytes⟩)

/-- The extents after the entry `it` has been unlinked from `parent`. -/
def unlinked (parent : Nat) (name : List UInt8) (memory : Nat → Entry) (it : Entry)
    (buf : List UInt8) (E : Extents) : Extents :=
  Function.update (Function.update E it.inum none) parent
    (some ⟨T_DIR, rewrite memory ((entries buf).eraseP (·.name = name))⟩)

theorem Making.apply_parent (m : Making) (ino : Nat) (buf : List UInt8) (E : Extents) :
    m.apply ino buf E m.parent = some ⟨T_DIR, buf ++ (newEntry m.memory ino m.name.bytes).bytes⟩ := by
  rw [apply, Function.update_self]

theorem Making.apply_of_ne {m : Making} {ino d : Nat} (home : d ≠ m.parent) (self : d ≠ ino)
    (buf : List UInt8) (E : Extents) : m.apply ino buf E d = E d := by
  rw [apply, Function.update_of_ne home, Function.update_of_ne self]

theorem unlinked_parent (parent : Nat) (name : List UInt8) (memory : Nat → Entry) (it : Entry)
    (buf : List UInt8) (E : Extents) : unlinked parent name memory it buf E parent =
      some ⟨T_DIR, rewrite memory ((entries buf).eraseP (·.name = name))⟩ := by
  rw [unlinked, Function.update_self]

theorem unlinked_of_ne {parent d : Nat} {it : Entry} (home : d ≠ parent) (self : d ≠ it.inum)
    (name : List UInt8) (memory : Nat → Entry) (buf : List UInt8) (E : Extents) :
    unlinked parent name memory it buf E d = E d := by
  rw [unlinked, Function.update_of_ne home, Function.update_of_ne self]

/-- The extent of the entry is gone. -/
theorem unlinked_target {parent : Nat} {it : Entry} (apart : it.inum ≠ parent) (name : List UInt8)
    (memory : Nat → Entry) (buf : List UInt8) (E : Extents) :
    unlinked parent name memory it buf E it.inum = none := by
  rw [unlinked, Function.update_of_ne apart, Function.update_self]

/-- Calls other than `create` are answered as by coherent extents. -/
def Agrees (A : (c : Call) → Extents → c.Reply → Extents → Prop) : Prop :=
  ∀ c E r E', (∀ type, c ≠ .create type) → (A c E r E' ↔ answers c E r E')

theorem agrees_answers : Agrees answers := fun _ _ _ _ _ => Iff.rfl

section Inversion

variable {A : (c : Call) → Extents → c.Reply → Extents → Prop} (agrees : Agrees A)
  {E E' : Extents} {d : Nat}
include agrees

/-- The last call of most operations. -/
theorem returns_put_last {α : Type} {lid ino : Nat} {buf : List UInt8} {f : Status → α} {a : α}
    (returned : Returns A (.call (.put ino buf) fun r => .release lid (.done (f r)) : Prog α) E a E') :
    ∃ x, E ino = some x ∧ a = f OK ∧ E' = Function.update E ino (some { x with bytes := buf }) := by
  obtain ⟨r, E₁, written, put⟩ := returned.of_call
  obtain ⟨x, found, rfl, rfl⟩ := (agrees _ _ _ _ (by simp)).mp written
  obtain ⟨rfl, rfl⟩ := returns_done.mp (returns_release.mp put)
  exact ⟨x, found, rfl, rfl⟩

theorem returns_readdir {list : List Entry} (returned : Returns A (__readdir d) E list E') :
    ∃ buf, E d = some ⟨T_DIR, buf⟩ ∧ list = entries buf ∧ E' = E := by
  simp only [__readdir, call, done_bind, call_bind, pure_eq] at returned
  obtain ⟨r, E₁, first, got⟩ := returned.of_call
  obtain ⟨x, found, rfl, rfl⟩ := (agrees _ _ _ _ (by simp)).mp first
  rw [if_neg (by simp)] at got
  obtain ⟨⟨r, a⟩, E₂, second, known⟩ := got.of_call
  obtain ⟨y, again, _, type, rfl⟩ := (agrees _ _ _ _ (by simp)).mp second
  cases found.symm.trans again
  dsimp only at known type
  split at known
  · exact absurd known returns_abort
  · rename_i isDir
    obtain ⟨rfl, rfl⟩ := returns_done.mp known
    have directory : x.type = T_DIR := by rw [← type]; simpa using isDir
    exact ⟨x.bytes, by rw [found, ← directory], rfl, rfl⟩

theorem returns_lookup {name : List UInt8} {r : Status × Option Nat}
    (returned : Returns A (__lookup d name) E r E') :
    ∃ buf, E d = some ⟨T_DIR, buf⟩ ∧ r.2 = ((entries buf).find? (·.name = name)).map Entry.inum ∧
      E' = E := by
  obtain ⟨list, E₁, first, second⟩ := returned.of_bind
  obtain ⟨buf, found, rfl, rfl⟩ := returns_readdir agrees first
  split at second
  · rename_i it hit
    obtain ⟨rfl, rfl⟩ := returns_done.mp second
    exact ⟨buf, found, by simp [hit], rfl⟩
  · rename_i miss
    obtain ⟨rfl, rfl⟩ := returns_done.mp second
    exact ⟨buf, found, by simp [miss], rfl⟩

/-- `create` and `mkdir` find the name, or append an entry for the inum they are given. -/
theorem returns_createNode {type : UInt32} {parent : Nat} {name : List UInt8} {memory : Entry}
    {r : Status × Option Nat} (returned : Returns A (createNode type parent name memory) E r E') :
    ∃ buf, E parent = some ⟨T_DIR, buf⟩ ∧
      ((∃ it, (entries buf).find? (·.name = name) = some it ∧ r = (EXIST, none) ∧ E' = E) ∨
        (entries buf).find? (·.name = name) = none ∧ ∃ status ino E₁ x, A (.create type) E (status, ino) E₁ ∧
          E₁ parent = some x ∧ r = (OK, some ino) ∧ E' = Function.update E₁ parent
            (some { x with bytes := x.bytes ++ (newEntry memory ino name).bytes })) := by
  simp only [createNode, acquire, release, call, acquire_bind, release_bind, done_bind, call_bind,
    pure_eq, returns_acquire] at returned
  obtain ⟨⟨r₀, found?⟩, E₀, first, rest⟩ := returned.of_bind
  obtain ⟨buf, found, looked, rfl⟩ := returns_lookup agrees first
  refine ⟨buf, found, ?_⟩
  dsimp only at rest looked
  rcases hit : (entries buf).find? (·.name = name) with _ | it
  · right
    rw [hit] at looked
    subst looked
    refine ⟨hit, ?_⟩
    rw [if_neg (by simp)] at rest
    obtain ⟨⟨r₁, ino⟩, E₁, created, made⟩ := rest.of_call
    obtain ⟨r₂, E₂, read, got⟩ := made.of_call
    obtain ⟨x, still, rfl, rfl⟩ := (agrees _ _ _ _ (by simp)).mp read
    rw [if_neg (by simp)] at got
    obtain ⟨y, again, rfl, rfl⟩ := returns_put_last agrees got
    cases still.symm.trans again
    exact ⟨r₁, ino, E₂, x, created, still, rfl, rfl⟩
  · left
    rw [hit] at looked
    subst looked
    rw [if_pos (by simp)] at rest
    obtain ⟨rfl, rfl⟩ := returns_done.mp (returns_release.mp rest)
    exact ⟨it, hit, rfl, rfl⟩

/-- `symlink` finds the name, or writes the link and appends an entry for it. -/
theorem returns_symlink {parent : Nat} {name link : List UInt8} {memory : Entry}
    {r : Status × Option Nat} (returned : Returns A (Client.symlink parent name link memory) E r E') :
    ∃ buf, E parent = some ⟨T_DIR, buf⟩ ∧
      ((∃ it, (entries buf).find? (·.name = name) = some it ∧ r = (EXIST, none) ∧ E' = E) ∨
        (entries buf).find? (·.name = name) = none ∧ ∃ status ino E₁ x y,
          A (.create T_SYMLINK) E (status, ino) E₁ ∧ E₁ ino = some x ∧
          Function.update E₁ ino (some { x with bytes := link }) parent = some y ∧ r = (OK, some ino) ∧
          E' = Function.update (Function.update E₁ ino (some { x with bytes := link })) parent
            (some { y with bytes := buf ++ (newEntry memory ino name).bytes })) := by
  simp only [Client.symlink, acquire, release, call, acquire_bind, release_bind, done_bind, call_bind,
    pure_eq, returns_acquire] at returned
  obtain ⟨r₀, E₀, read, looking⟩ := returned.of_call
  obtain ⟨x, before, rfl, rfl⟩ := (agrees _ _ _ _ (by simp)).mp read
  obtain ⟨⟨r₁, found?⟩, E₁, first, rest⟩ := looking.of_bind
  obtain ⟨buf, found, looked, rfl⟩ := returns_lookup agrees first
  cases before.symm.trans found
  refine ⟨buf, found, ?_⟩
  dsimp only at rest looked
  rcases hit : (entries buf).find? (·.name = name) with _ | it
  · right
    rw [hit] at looked
    subst looked
    refine ⟨hit, ?_⟩
    rw [if_neg (by simp)] at rest
    obtain ⟨⟨r₂, ino⟩, E₂, created, made⟩ := rest.of_call
    obtain ⟨r₃, E₃, linking, linked⟩ := made.of_call
    obtain ⟨x, new, rfl, rfl⟩ := (agrees _ _ _ _ (by simp)).mp linking
    obtain ⟨y, again, rfl, rfl⟩ := returns_put_last agrees linked
    exact ⟨r₂, ino, E₂, x, y, created, new, again, rfl, rfl⟩
  · left
    rw [hit] at looked
    subst looked
    rw [if_pos (by simp)] at rest
    obtain ⟨rfl, rfl⟩ := returns_done.mp (returns_release.mp rest)
    exact ⟨it, hit, rfl, rfl⟩

/-- `unlink` finds nothing, or removes the extent of the first entry of the name. -/
theorem returns_unlink {parent : Nat} {name : List UInt8} {memory : Nat → Entry} {r : Status}
    (returned : Returns A (Client.unlink parent name memory) E r E') :
    ∃ buf, E parent = some ⟨T_DIR, buf⟩ ∧
      ((entries buf).find? (·.name = name) = none ∧ r = NOENT ∧ E' = E ∨
        ∃ it, (entries buf).find? (·.name = name) = some it ∧ it.inum ≠ parent ∧ r = OK ∧
          E' = unlinked parent name memory it buf E) := by
  simp only [Client.unlink, acquire, release, call, acquire_bind, release_bind, done_bind, call_bind,
    pure_eq, returns_acquire] at returned
  obtain ⟨list, E₀, first, rest⟩ := returned.of_bind
  obtain ⟨buf, found, rfl, rfl⟩ := returns_readdir agrees first
  refine ⟨buf, found, ?_⟩
  split at rest
  · rename_i miss
    obtain ⟨rfl, rfl⟩ := returns_done.mp (returns_release.mp rest)
    exact .inl ⟨miss, rfl, rfl⟩
  · rename_i it hit
    obtain ⟨r₁, E₁, removal, removed⟩ := rest.of_call
    obtain ⟨rfl, rfl⟩ := (agrees _ _ _ _ (by simp)).mp removal
    obtain ⟨x, still, rfl, rfl⟩ := returns_put_last agrees removed
    have apart : it.inum ≠ parent := by
      intro same
      simp [same] at still
    rw [Function.update_of_ne (Ne.symm apart), found] at still
    cases still
    exact .inr ⟨it, hit, apart, rfl, rfl⟩

theorem returns_write {ino off : Nat} {data : List UInt8} {r : Status × Nat}
    (returned : Returns A (Client.write ino off data) E r E') :
    ∃ x bytes, E ino = some x ∧ E' = Function.update E ino (some { x with bytes }) := by
  simp only [Client.write, acquire, release, call, acquire_bind, release_bind, done_bind, call_bind,
    pure_eq, replace, returns_acquire] at returned
  obtain ⟨r₀, E₀, read, got⟩ := returned.of_call
  obtain ⟨x, found, rfl, rfl⟩ := (agrees _ _ _ _ (by simp)).mp read
  dsimp only at got
  split at got <;> split at got
  · exact absurd got returns_abort
  · obtain ⟨y, again, -, rfl⟩ := returns_put_last agrees got
    exact ⟨y, _, again, rfl⟩
  · exact absurd got returns_abort
  · obtain ⟨y, again, -, rfl⟩ := returns_put_last agrees got
    exact ⟨y, _, again, rfl⟩

theorem returns_setattr {ino size : Nat} {r : Status}
    (returned : Returns A (Client.setattr ino size) E r E') :
    ∃ x bytes, E ino = some x ∧ E' = Function.update E ino (some { x with bytes }) := by
  simp only [Client.setattr, acquire, release, call, acquire_bind, release_bind, done_bind, call_bind,
    pure_eq, returns_acquire] at returned
  obtain ⟨r₀, E₀, read, got⟩ := returned.of_call
  obtain ⟨x, found, rfl, rfl⟩ := (agrees _ _ _ _ (by simp)).mp read
  rw [if_neg (by simp)] at got
  obtain ⟨y, again, -, rfl⟩ := returns_put_last agrees got
  exact ⟨y, _, again, rfl⟩

end Inversion

/-- A creation finds the name or makes an entry behind the others. -/
def Making.Spec (m : Making) (E : Extents) (r : Status × Option Nat) (E' : Extents) : Prop :=
  ∃ buf, E m.parent = some ⟨T_DIR, buf⟩ ∧
    ((∃ it, (entries buf).find? (·.name = m.name.bytes) = some it ∧ r = (EXIST, none) ∧ E' = E) ∨
      (entries buf).find? (·.name = m.name.bytes) = none ∧ ∃ ino, E ino = none ∧ ino < 2 ^ 64 ∧
        r = (OK, some ino) ∧ E' = m.apply ino buf E)

section Apply

variable {E : Extents} {parent ino : Nat} {type : UInt32} {name : Component} {memory : Entry}
  {buf : List UInt8}
  (found : E parent = some ⟨T_DIR, buf⟩) (dead : E ino = none)
include found dead

theorem parent_ne_new : parent ≠ ino := by
  rintro rfl
  simp [found] at dead

/-- What `create` and `mkdir` leave when they have been given a new inum. -/
theorem apply_of_create {x : Extent} (still : Function.update E ino (some ⟨type, []⟩) parent = some x) :
    Function.update (Function.update E ino (some ⟨type, []⟩)) parent
        (some { x with bytes := x.bytes ++ (newEntry memory ino name.bytes).bytes }) =
      Making.apply ⟨parent, name, memory, type, []⟩ ino buf E := by
  rw [Function.update_of_ne (parent_ne_new found dead), found] at still
  cases still
  rfl

/-- What `symlink` leaves when it has been given a new inum. -/
theorem apply_of_symlink {link : List UInt8} {x y : Extent}
    (new : Function.update E ino (some ⟨type, []⟩) ino = some x)
    (again : Function.update (Function.update E ino (some ⟨type, []⟩)) ino (some { x with bytes := link })
      parent = some y) :
    Function.update (Function.update (Function.update E ino (some ⟨type, []⟩)) ino
        (some { x with bytes := link })) parent
        (some { y with bytes := buf ++ (newEntry memory ino name.bytes).bytes }) =
      Making.apply ⟨parent, name, memory, type, link⟩ ino buf E := by
  have apart := parent_ne_new found dead
  rw [Function.update_self] at new
  cases new
  rw [Function.update_of_ne apart, Function.update_of_ne apart, found] at again
  cases again
  rw [Making.apply, Function.update_idem]

end Apply

theorem createNode_spec {type : UInt32} {parent : Nat} {name : Component} {memory : Entry}
    {r : Status × Option Nat} {E E' : Extents}
    (returned : Returns answers (createNode type parent name.bytes memory) E r E') :
    Making.Spec ⟨parent, name, memory, type, []⟩ E r E' := by
  obtain ⟨buf, found, hit | ⟨miss, status, ino, E₁, x, created, still, rfl, rfl⟩⟩ :=
    returns_createNode agrees_answers returned
  · exact ⟨buf, found, .inl hit⟩
  · obtain ⟨dead, small, -, rfl⟩ := created
    exact ⟨buf, found, .inr ⟨miss, ino, dead, small, rfl, apply_of_create found dead still⟩⟩

theorem symlink_spec {parent : Nat} {name : Component} {link : List UInt8} {memory : Entry}
    {r : Status × Option Nat} {E E' : Extents}
    (returned : Returns answers (Client.symlink parent name.bytes link memory) E r E') :
    Making.Spec ⟨parent, name, memory, T_SYMLINK, link⟩ E r E' := by
  obtain ⟨buf, found, hit | ⟨miss, status, ino, E₁, x, y, created, new, again, rfl, rfl⟩⟩ :=
    returns_symlink agrees_answers returned
  · exact ⟨buf, found, .inl hit⟩
  · obtain ⟨dead, small, -, rfl⟩ := created
    exact ⟨buf, found, .inr ⟨miss, ino, dead, small, rfl, apply_of_symlink found dead new again⟩⟩

section Progress

variable {A : (c : Call) → Extents → c.Reply → Extents → Prop} (agrees : Agrees A)
  {E : Extents} {d ino : Nat} {buf : List UInt8} (found : E d = some ⟨T_DIR, buf⟩)
include agrees found

theorem readdir_returns : Returns A (__readdir d) E (entries buf) E := by
  have got : A (.get d) E (OK, buf) E := (agrees _ _ _ _ (by simp)).mpr ⟨_, found, rfl, rfl⟩
  have known : A (.getattr d) E (OK, ⟨T_DIR, 0, 0, 0, 0⟩) E :=
    (agrees _ _ _ _ (by simp)).mpr ⟨_, found, rfl, rfl, rfl⟩
  exact .call got (.call known .done)

theorem lookup_returns {name : List UInt8} (miss : (entries buf).find? (·.name = name) = none) :
    Returns A (__lookup d name) E (OK, none) E := by
  refine (readdir_returns agrees found).bind ?_
  rw [miss]
  exact .done

/-- A creation of a name that is not there, for the inum it is given. -/
theorem createNode_appends {name : List UInt8} {type : UInt32} {E₁ : Extents} (memory : Entry)
    (miss : (entries buf).find? (·.name = name) = none) (created : A (.create type) E (OK, ino) E₁)
    (still : E₁ d = some ⟨T_DIR, buf⟩) :
    Returns A (createNode type d name memory) E (OK, some ino)
      (Function.update E₁ d (some ⟨T_DIR, buf ++ (newEntry memory ino name).bytes⟩)) := by
  have got : A (.get d) E₁ (OK, buf) E₁ := (agrees _ _ _ _ (by simp)).mpr ⟨_, still, rfl, rfl⟩
  have put : A (.put d (buf ++ (newEntry memory ino name).bytes)) E₁ OK
      (Function.update E₁ d (some ⟨T_DIR, buf ++ (newEntry memory ino name).bytes⟩)) :=
    (agrees _ _ _ _ (by simp)).mpr ⟨_, still, rfl, rfl⟩
  refine .acquire ((lookup_returns agrees found miss).bind ?_)
  exact .call created (.call got (.call put (.release .done)))

theorem unlink_returns {name : List UInt8} {it : Entry} (memory : Nat → Entry)
    (hit : (entries buf).find? (·.name = name) = some it) (apart : it.inum ≠ d) :
    Returns A (Client.unlink d name memory) E OK (unlinked d name memory it buf E) := by
  have still : Function.update E it.inum none d = some ⟨T_DIR, buf⟩ := by
    rw [Function.update_of_ne (Ne.symm apart), found]
  have removed : A (.remove it.inum) E OK (Function.update E it.inum none) :=
    (agrees _ _ _ _ (by simp)).mpr ⟨rfl, rfl⟩
  have put : A (.put d (rewrite memory ((entries buf).eraseP (·.name = name)))) _ OK
      (unlinked d name memory it buf E) := (agrees _ _ _ _ (by simp)).mpr ⟨_, still, rfl, rfl⟩
  refine .acquire ((readdir_returns agrees found).bind ?_)
  rw [hit]
  exact .call removed (.call put (.release .done))

end Progress

/-- A creation of a name that is not there, for any inum that is free. -/
theorem createNode_returns {E : Extents} {d ino : Nat} {buf name : List UInt8}
    (found : E d = some ⟨T_DIR, buf⟩) (type : UInt32) (memory : Entry)
    (miss : (entries buf).find? (·.name = name) = none) (dead : E ino = none) (small : ino < 2 ^ 64) :
    Returns answers (createNode type d name memory) E (OK, some ino)
      (Function.update (Function.update E ino (some ⟨type, []⟩)) d
        (some ⟨T_DIR, buf ++ (newEntry memory ino name).bytes⟩)) := by
  have created : answers (.create type) E (OK, ino) (Function.update E ino (some ⟨type, []⟩)) :=
    ⟨dead, small, rfl, rfl⟩
  refine createNode_appends agrees_answers found memory miss created ?_
  rw [Function.update_of_ne (parent_ne_new found dead), found]

/-- One operation, alone on the extents. FUSE writes to files only. -/
structure TreeOp.Step (op : TreeOp) (E : Extents) (r : Status × Option Nat) (E' : Extents) : Prop where
  admitted : ∀ ino x, op.target = some ino → E ino = some x → x.type ≠ T_DIR
  returned : Returns answers op.program E r E'

/-- What an operation does to the extents. -/
inductive TreeOp.Effect : TreeOp → Extents → Status × Option Nat → Extents → Prop where
  | exist (making : op.making = some m) (found : E m.parent = some ⟨T_DIR, buf⟩)
      (hit : (entries buf).find? (·.name = m.name.bytes) = some it) : Effect op E (EXIST, none) E
  | made (making : op.making = some m) (found : E m.parent = some ⟨T_DIR, buf⟩)
      (miss : (entries buf).find? (·.name = m.name.bytes) = none) (dead : E ino = none)
      (small : ino < 2 ^ 64) : Effect op E (OK, some ino) (m.apply ino buf E)
  | absent (found : E parent = some ⟨T_DIR, buf⟩)
      (miss : (entries buf).find? (·.name = name.bytes) = none) :
      Effect (.unlink parent name memory) E (NOENT, none) E
  | unlinked (found : E parent = some ⟨T_DIR, buf⟩)
      (hit : (entries buf).find? (·.name = name.bytes) = some it) (apart : it.inum ≠ parent) :
      Effect (.unlink parent name memory) E (OK, none) (unlinked parent name.bytes memory it buf E)
  | written (writes : op.target = some ino) (live : E ino = some x) (file : x.type ≠ T_DIR) :
      Effect op E (r, none) (Function.update E ino (some { x with bytes }))

/-- A creation of a name that is not there. -/
theorem TreeOp.Effect.made_of_miss {op : TreeOp} {m : Making} {E E' : Extents} {r : Status × Option Nat}
    {buf : List UInt8} (effect : op.Effect E r E') (making : op.making = some m)
    (found : E m.parent = some ⟨T_DIR, buf⟩)
    (miss : (entries buf).find? (·.name = m.name.bytes) = none) :
    ∃ ino, r = (OK, some ino) ∧ E' = m.apply ino buf E := by
  cases effect with
  | exist making' found' hit =>
    cases making.symm.trans making'
    cases found.symm.trans found'
    cases miss.symm.trans hit
  | made making' found' =>
    cases making.symm.trans making'
    cases found.symm.trans found'
    exact ⟨_, rfl, rfl⟩
  | absent | unlinked => cases making
  | written writes =>
    cases op with
    | write | setattr => cases making
    | create | mkdir | symlink | unlink => cases writes

/-- Only a creation brings an inum to life. -/
theorem TreeOp.Effect.dead {op : TreeOp} {E E' : Extents} {r : Status × Option Nat} {id : Nat}
    (effect : op.Effect E r E') (before : E id = none) (other : ∀ ino, r.2 = some ino → ino ≠ id) :
    E' id = none := by
  cases effect with
  | exist | absent => exact before
  | made making found miss dead small =>
    have home : id ≠ _ := parent_ne_new found before |>.symm
    rw [Making.apply_of_ne home (Ne.symm (other _ rfl)), before]
  | unlinked found hit apart =>
    have home : id ≠ _ := parent_ne_new found before |>.symm
    rw [Client.unlinked, Function.update_of_ne home, Function.update_apply]
    split
    · rfl
    · exact before
  | written writes live =>
    have apart : id ≠ _ := fun same => by
      rw [same, live] at before
      cases before
    rw [Function.update_of_ne apart, before]

theorem Making.Spec.effect {m : Making} {op : TreeOp} {E E' : Extents} {r : Status × Option Nat}
    (spec : m.Spec E r E') (making : op.making = some m) : op.Effect E r E' := by
  obtain ⟨buf, found, ⟨it, hit, rfl, rfl⟩ | ⟨miss, ino, dead, small, rfl, rfl⟩⟩ := spec
  · exact .exist making found hit
  · exact .made making found miss dead small

/-- The operations that make nothing do not depend on how `create` is answered. -/
theorem TreeOp.effect_of_agrees {A : (c : Call) → Extents → c.Reply → Extents → Prop} (agrees : Agrees A)
    {op : TreeOp} {E E' : Extents} {r : Status × Option Nat} (plain : op.making = none)
    (admitted : ∀ ino x, op.target = some ino → E ino = some x → x.type ≠ T_DIR)
    (returned : Returns A op.program E r E') : op.Effect E r E' := by
  cases op with
  | create | mkdir | symlink => cases plain
  | unlink parent name memory =>
    obtain ⟨r₀, E₀, first, last⟩ := returned.of_bind
    obtain ⟨rfl, rfl⟩ := returns_done.mp last
    obtain ⟨buf, found, ⟨miss, rfl, rfl⟩ | ⟨it, hit, apart, rfl, rfl⟩⟩ := returns_unlink agrees first
    · exact .absent found miss
    · exact .unlinked found hit apart
  | write ino off data =>
    obtain ⟨r₀, E₀, first, last⟩ := returned.of_bind
    obtain ⟨rfl, rfl⟩ := returns_done.mp last
    obtain ⟨x, bytes, live, rfl⟩ := returns_write agrees first
    exact .written rfl live (admitted ino x rfl live)
  | setattr ino size =>
    obtain ⟨r₀, E₀, first, last⟩ := returned.of_bind
    obtain ⟨rfl, rfl⟩ := returns_done.mp last
    obtain ⟨x, bytes, live, rfl⟩ := returns_setattr agrees first
    exact .written rfl live (admitted ino x rfl live)

theorem TreeOp.Step.effect {op : TreeOp} {E E' : Extents} {r : Status × Option Nat}
    (step : op.Step E r E') : op.Effect E r E' := by
  obtain ⟨admitted, returned⟩ := step
  cases op with
  | create parent name memory => exact (createNode_spec returned).effect rfl
  | mkdir parent name memory => exact (createNode_spec returned).effect rfl
  | symlink parent name link memory => exact (symlink_spec returned).effect rfl
  | unlink | write | setattr => exact effect_of_agrees agrees_answers rfl admitted returned

section Directories

variable {E : Extents} {P : Nat → List UInt8 → Prop} (all : ∀ d buf, E d = some ⟨T_DIR, buf⟩ → P d buf)
include all

/-- After a creation only the parent and the new inode can be directories that were not
there as they are. -/
theorem Making.apply_directories {op : TreeOp} {m : Making} {ino : Nat} {buf : List UInt8}
    (making : op.making = some m)
    (appended : P m.parent (buf ++ (newEntry m.memory ino m.name.bytes).bytes)) (empty : P ino []) :
    ∀ d content, m.apply ino buf E d = some ⟨T_DIR, content⟩ → P d content := by
  intro d content after
  by_cases home : d = m.parent
  · subst home
    rw [Making.apply_parent] at after
    cases after
    exact appended
  · by_cases self : d = ino
    · subst self
      have new : m.type = T_DIR ∧ m.content = content := by simpa [Making.apply, home] using after
      rw [← new.2, TreeOp.making_content making new.1]
      exact empty
    · rw [Making.apply_of_ne home self] at after
      exact all d content after

theorem unlinked_directories {parent : Nat} {name : List UInt8} {memory : Nat → Entry} {it : Entry}
    {buf : List UInt8} (erased : P parent (rewrite memory ((entries buf).eraseP (·.name = name)))) :
    ∀ d content, unlinked parent name memory it buf E d = some ⟨T_DIR, content⟩ → P d content := by
  intro d content after
  by_cases home : d = parent
  · subst home
    rw [unlinked_parent] at after
    cases after
    exact erased
  · by_cases self : d = it.inum
    · rw [self] at home after
      rw [unlinked_target home] at after
      cases after
    · rw [unlinked_of_ne home self] at after
      exact all d content after

theorem written_directories {ino : Nat} {x : Extent} {bytes : List UInt8} (file : x.type ≠ T_DIR) :
    ∀ d content, Function.update E ino (some { x with bytes }) d = some ⟨T_DIR, content⟩ → P d content := by
  intro d content after
  by_cases self : d = ino
  · have type : x.type = T_DIR := by
      simpa [self] using congrArg (Option.map Extent.type) after
    exact absurd type file
  · exact all d content (by simpa [self] using after)

end Directories

/-- The extents of an empty file system. -/
def emptyRoot : Extents := fun id => if id = 1 then some ⟨T_DIR, []⟩ else none

theorem emptyRoot_directories {P : Nat → List UInt8 → Prop} (root : P 1 []) :
    ∀ d buf, emptyRoot d = some ⟨T_DIR, buf⟩ → P d buf := by
  intro d buf found
  by_cases same : d = 1
  · subst same
    have empty : buf = [] := by simpa [emptyRoot] using found.symm
    exact empty ▸ root
  · simp [emptyRoot, same] at found

/-- An operation in a run, with its result and the extents before and after it. -/
structure TreeEvent where
  before : Extents
  op : TreeOp
  result : Status × Option Nat
  after : Extents

/-- The operations done on an empty file system, the newest first, and the extents they
lead to. -/
inductive TreeRun : List TreeEvent → Extents → Prop where
  | nil : TreeRun [] emptyRoot
  | cons (run : TreeRun log E) (step : op.Step E r E') : TreeRun (⟨E, op, r, E'⟩ :: log) E'

end Yfs.Client
