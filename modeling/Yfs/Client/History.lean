import Yfs.Client.Service

/-! What a user finds in a mounted file system follows from the requests and replies before:
the bytes of a file from what was written to it, the inum of a name from what made it. -/

namespace Yfs.Client

open Yfs.Lib Program

/-- What a request has changed. -/
inductive Change where
  | written (ino : Nat) (data : List UInt8) (off : Nat)
  | resized (ino size : Nat)
  | made (parent : Nat) (name : List UInt8) (ino : Nat) (node : Node)
  | unlinked (parent : Nat) (name : List UInt8)

def Node.bytes : Node → List UInt8
  | .file content => content
  | .link target => target
  | .dir _ => []

def Node.names : Node → List (List UInt8 × Nat)
  | .dir names => names
  | _ => []

namespace Fuse

/-- The inum in the reply to a creation. -/
def Reply.inum : Reply → Option Nat
  | .entry ino _ | .create ino _ => some ino
  | _ => none

/-- A request and its reply tell what was changed. -/
def change : Request × Reply → Option Change
  | (.write ino data off, .write _) => some (.written ino data off)
  | (.setattr ino size _, .attr _) => some (.resized ino size)
  | (.unlink parent name, .err 0) => some (.unlinked parent name.bytes)
  | (request, reply) =>
    match request.makes, reply.inum with
    | some (parent, name, node, _), some ino => some (.made parent name.bytes ino node)
    | _, _ => none

/-- The bytes of a file or a symbolic link, after the requests of a session, the newest first. -/
def content : List (Request × Reply) → Nat → List UInt8
  | [], _ => []
  | entry :: earlier, ino =>
    match change entry with
    | some (.made _ _ new node) => if ino = new then node.bytes else content earlier ino
    | some (.written file data off) =>
      if ino = file then writeAt (content earlier ino) off data else content earlier ino
    | some (.resized file size) =>
      if ino = file then truncate (content earlier ino) size else content earlier ino
    | _ => content earlier ino

/-- The inum that a name in a directory stands for. -/
def bound : List (Request × Reply) → Nat → List UInt8 → Option Nat
  | [], _, _ => none
  | entry :: earlier, d, name =>
    match change entry with
    | some (.made parent new ino _) =>
      if d = parent ∧ name = new then some ino else bound earlier d name
    | some (.unlinked parent old) =>
      if d = parent ∧ name = old then none else bound earlier d name
    | _ => bound earlier d name

end Fuse

namespace FileTree

open Fuse

/-- What a change makes of a tree. -/
inductive Changed (T : FileTree) : Option Change → FileTree → Prop where
  | same : Changed T none T
  | written (found : T ino = some (.file c)) :
      Changed T (some (.written ino data off)) (Function.update T ino (some (.file (writeAt c off data))))
  | resized (found : T ino = some (.file c)) :
      Changed T (some (.resized ino size)) (Function.update T ino (some (.file (truncate c size))))
  | made (found : T parent = some (.dir names)) (new : name ∉ names.map Prod.fst) (dead : T ino = none)
      (bare : node.names = []) :
      Changed T (some (.made parent name ino node))
        (Function.update (Function.update T ino (some node)) parent (some (.dir (names ++ [(name, ino)]))))
  | unlinked (found : T parent = some (.dir (before ++ (name, ino) :: after)))
      (leaf : ∀ children, T ino ≠ some (.dir children)) :
      Changed T (some (.unlinked parent name))
        (Function.update (Function.update T ino none) parent (some (.dir (before ++ after))))

variable {L : Libfuse} {T T' : FileTree} {request : Request} {reply : Reply}

theorem Handles.changed (handles : Handles L T request reply T') (admitted : T.Admits request) :
    Changed T (change (request, reply)) T' := by
  cases handles with
  | written found => exact .written found
  | resized _ found => exact .resized found
  | @made parent name node made names ino st _ makes found new dead =>
    have bare : node.names = [] := by
      cases request <;> cases makes <;> rfl
    have told : change (request, made ino st) = some (.made parent name.bytes ino node) := by
      cases request <;> cases makes <;> rfl
    rw [told]
    exact .made found new dead bare
  | exist makes =>
    cases request <;> cases makes <;> exact .same
  | @unlinked parent before ino after name found =>
    obtain ⟨names, here, leaf⟩ := admitted
    refine .unlinked found fun children => leaf ino children ?_
    cases here.symm.trans found
    simp
  | _ => exact .same

section Step

variable {entry : Request × Reply} {handled : List (Request × Reply)}

theorem Changed.bytes (changed : Changed T (change entry) T')
    (old : ∀ i node, T i = some node → content handled i = node.bytes) :
    ∀ i node, T' i = some node → content (entry :: handled) i = node.bytes := by
  intro i node found
  simp only [content]
  generalize change entry = c at changed ⊢
  cases changed with
  | same => exact old i node found
  | @written ino c data off here =>
    by_cases same : i = ino
    · subst same
      cases (Function.update_self i _ T).symm.trans found
      simp [old i _ here, Node.bytes]
    · simpa [same] using old i node (by simpa [same] using found)
  | @resized ino c size here =>
    by_cases same : i = ino
    · subst same
      cases (Function.update_self i _ T).symm.trans found
      simp [old i _ here, Node.bytes]
    · simpa [same] using old i node (by simpa [same] using found)
  | @made parent names name ino new here _ dead =>
    have apart : ino ≠ parent := fun same => by rw [same, here] at dead; cases dead
    by_cases home : i = parent
    · subst home
      cases (Function.update_self i _ _).symm.trans found
      simpa [Ne.symm apart, Node.bytes] using old i _ here
    · rw [Function.update_of_ne home] at found
      by_cases self : i = ino
      · subst self
        cases (Function.update_self i _ T).symm.trans found
        simp
      · simpa [self] using old i node (by simpa [self] using found)
  | @unlinked parent before name ino after here =>
    by_cases home : i = parent
    · subst home
      cases (Function.update_self i _ _).symm.trans found
      simpa [Node.bytes] using old i _ here
    · rw [Function.update_of_ne home] at found
      by_cases self : i = ino
      · subst self
        cases (Function.update_self i _ T).symm.trans found
      · exact old i node (by simpa [self] using found)

/-- The names in a directory; there are none in what is no directory. -/
def names (T : FileTree) (d : Nat) : List (List UInt8 × Nat) := ((T d).map Node.names).getD []

theorem names_dir {d : Nat} {listed : List (List UInt8 × Nat)} (found : T d = some (.dir listed)) :
    T.names d = listed := by
  simp [names, found, Node.names]

theorem names_update (T : FileTree) (i : Nat) (x : Option Node) :
    names (Function.update T i x) = Function.update T.names i ((x.map Node.names).getD []) := by
  funext d
  by_cases same : d = i <;> simp [names, same]

/-- What has no names before and after a change. -/
theorem names_update_bare {i : Nat} {x : Option Node} (before : T.names i = [])
    (after : (x.map Node.names).getD [] = []) : names (Function.update T i x) = T.names := by
  rw [names_update, after, ← before, Function.update_eq_self]

/-- The names of every directory are those that its history tells. -/
def Names (T : FileTree) (handled : List (Request × Reply)) : Prop :=
  ∀ d, ((T.names d).map Prod.fst).Nodup ∧
    ∀ name ino, (name, ino) ∈ T.names d ↔ bound handled d name = some ino

theorem Changed.names_kept (changed : Changed T (change entry) T') (old : T.Names handled) :
    T'.Names (entry :: handled) := by
  intro d
  simp only [bound]
  generalize change entry = c at changed ⊢
  cases changed with
  | same => exact old d
  | written here | resized here =>
    rw [names_update_bare (by simp [names, here, Node.names]) rfl]
    exact old d
  | @made parent listed name ino new here absent dead bare =>
    have empty : T.names ino = [] := by simp [names, dead]
    have still : names (Function.update T ino (some new)) = T.names :=
      names_update_bare empty (by simpa using bare)
    rw [names_update, still]
    by_cases home : d = parent
    · subst home
      obtain ⟨unique, told⟩ := old d
      rw [names_dir here] at unique told
      simp only [Function.update_self, Option.map_some, Option.getD_some, Node.names]
      refine ⟨by simpa using unique.concat absent, fun n i => ?_⟩
      by_cases same : n = name
      · have out : (name, i) ∉ listed := fun member => absent (List.mem_map_of_mem (f := Prod.fst) member)
        simp [same, out, eq_comm]
      · simpa [same] using told n i
    · simpa [home] using old d
  | @unlinked parent before name ino after here leaf =>
    have bare : T.names ino = [] := by
      rw [names]
      rcases found : T ino with _ | _ | _ | children
      · rfl
      · rfl
      · rfl
      · exact absurd found (leaf children)
    rw [names_update, names_update_bare bare rfl]
    by_cases home : d = parent
    · subst home
      obtain ⟨unique, told⟩ := old d
      rw [names_dir here] at unique told
      simp only [Function.update_self, Option.map_some, Option.getD_some, Node.names]
      have fewer : (before ++ after).Sublist (before ++ (name, ino) :: after) := by simp
      refine ⟨unique.sublist (fewer.map _), fun n i => ?_⟩
      by_cases same : n = name
      · have out : (name, i) ∉ before ++ after := by
          intro member
          have twice : name ∈ (before ++ after).map Prod.fst := List.mem_map_of_mem (f := Prod.fst) member
          simp only [List.map_append, List.map_cons, List.nodup_middle, List.nodup_cons] at unique
          exact unique.1 (by simpa using twice)
        simp [same, out]
      · rw [if_neg (by simp [same]), ← told n i]
        simp [same]
    · simpa [home] using old d

end Step

theorem Run.recalls {handled : List (Request × Reply)} (run : Run L handled T) :
    (∀ i node, T i = some node → content handled i = node.bytes) ∧ T.Names handled := by
  induction run with
  | start =>
    have nothing : ∀ d, names empty d = [] := by
      intro d
      by_cases root : d = 1 <;> simp [names, empty, root, Node.names]
    refine ⟨fun i node found => ?_, fun d => ?_⟩
    · unfold empty at found
      split at found <;> cases found
      rfl
    · rw [nothing]
      simp [bound]
  | serve _ admitted handles ih =>
    have changed := handles.changed admitted
    exact ⟨changed.bytes ih.1, changed.names_kept ih.2⟩

/-- Where a run was when it handled a request. -/
theorem Run.moment {earlier later : List (Request × Reply)}
    (run : Run L (later ++ (request, reply) :: earlier) T) :
    ∃ S S', Run L earlier S ∧ S.Admits request ∧ Handles L S request reply S' := by
  induction later generalizing T with
  | nil =>
    cases run with
    | serve before admitted handles => exact ⟨_, _, before, admitted, handles⟩
  | cons entry later ih =>
    cases run with
    | serve before => exact ih before

section Moments

variable {earlier later : List (Request × Reply)} (run : Run L (later ++ (request, reply) :: earlier) T)
include run

theorem Run.reads :
    (∀ ino size off, request = .read ino size off → reply = .buf (readAt (content earlier ino) off size)) ∧
      ∀ ino, request = .readlink ino → reply = .readlink (content earlier ino) := by
  obtain ⟨S, _, before, _, handles⟩ := run.moment
  have recalls := before.recalls.1
  constructor
  · rintro ino size off rfl
    cases handles with
    | read found => rw [recalls ino _ found, Node.bytes]
    | made makes | exist makes => cases makes
  · rintro ino rfl
    cases handles with
    | readlink found => rw [recalls ino _ found, Node.bytes]
    | made makes | exist makes => cases makes

theorem Run.finds (parent : Nat) (name : Component) (looks : request = .lookup parent name) :
    match bound earlier parent name.bytes with
    | some ino => ∃ st, reply = .entry ino st
    | none => reply = .err ENOENT := by
  obtain ⟨S, _, before, _, handles⟩ := run.moment
  have named := (before.recalls.2 parent).2
  subst looks
  cases handles with
  | looked found member =>
    rw [← names_dir found, named] at member
    rw [member]
    exact ⟨_, rfl⟩
  | missed found absent =>
    rw [← names_dir found] at absent
    rcases told : bound earlier parent name.bytes with _ | ino
    · rfl
    · exact absurd (List.mem_map_of_mem (f := Prod.fst) ((named _ ino).mpr told)) absent
  | made makes | exist makes => cases makes

end Moments

end FileTree

end Yfs.Client
