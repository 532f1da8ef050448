import Yfs.Client.Operations

/-! Which locks the operations of a client leave behind. -/

namespace Yfs.Client

open Yfs.Lib Yfs.Store Program

/-- The operations of `yfs_client` with their arguments and the stack memory they use. -/
inductive Operation where
  | isfile (inum : Nat)
  | issymlink (inum : Nat)
  | isdir (inum : Nat)
  | getfile (inum : Nat)
  | getdir (inum : Nat)
  | setattr (ino size : Nat)
  | create (parent : Nat) (name : List UInt8) (memory : Entry)
  | mkdir (parent : Nat) (name : List UInt8) (memory : Entry)
  | lookup (parent : Nat) (name : List UInt8)
  | readdir (dir : Nat)
  | read (ino size off : Nat)
  | write (ino off : Nat) (data : List UInt8)
  | unlink (parent : Nat) (name : List UInt8) (memory : Nat → Entry)
  | readlink (ino : Nat)
  | symlink (parent : Nat) (name link : List UInt8) (memory : Entry)

namespace Operation

/-- Run an operation for its effects. -/
def program : Operation → Prog Unit
  | .isfile inum => discard (Client.isfile inum)
  | .issymlink inum => discard (Client.issymlink inum)
  | .isdir inum => discard (Client.isdir inum)
  | .getfile inum => discard (Client.getfile inum)
  | .getdir inum => discard (Client.getdir inum)
  | .setattr ino size => discard (Client.setattr ino size)
  | .create parent name memory => discard (Client.create parent name memory)
  | .mkdir parent name memory => discard (Client.mkdir parent name memory)
  | .lookup parent name => discard (Client.lookup parent name)
  | .readdir dir => discard (Client.readdir dir)
  | .read ino size off => discard (Client.read ino size off)
  | .write ino off data => discard (Client.write ino off data)
  | .unlink parent name memory => discard (Client.unlink parent name memory)
  | .readlink ino => discard (Client.readlink ino)
  | .symlink parent name link memory => discard (Client.symlink parent name link memory)

/-- The inum whose lock an operation takes. -/
def lock : Operation → Nat
  | .isfile ino | .issymlink ino | .isdir ino | .getfile ino | .getdir ino | .setattr ino _
  | .create ino _ _ | .mkdir ino _ _ | .lookup ino _ | .readdir ino | .read ino _ _
  | .write ino _ _ | .unlink ino _ _ | .readlink ino | .symlink ino _ _ _ => ino

/-- The extent client has answered so that the operation comes to its release: the
attributes were read without error, or the content was, and for a `read` it ends
behind the offset. -/
def Answered (t : List (Event Nat Call Call.Reply)) : Operation → Prop
  | .isfile ino | .issymlink ino | .isdir ino | .getfile ino | .getdir ino =>
    ∀ r a, .call (.getattr ino) (r, a) ∈ t → r = OK
  | .setattr ino _ => ∀ r buf, .call (.get ino) (r, buf) ∈ t → r = OK
  | .read ino _ off => ∀ r buf, .call (.get ino) (r, buf) ∈ t → r = OK ∧ uint off < buf.length
  | _ => True

/-- An answered operation leaves all locks as they were, any other one keeps a hold
of its own. -/
structure Leaves (l : Nat) (answered : Prop) (t : List (Event Nat Call Call.Reply)) : Prop where
  neutral : answered → Neutral t
  leak : ¬ answered → ∀ k n, held k t n = some (if k = l then n + 1 else n)

theorem Leaves.of_neutral {l : Nat} {answered : Prop} {t : List (Event Nat Call Call.Reply)}
    (holds : answered) (neutral : Neutral t) : Leaves l answered t :=
  ⟨fun _ => neutral, fun fails => absurd holds fails⟩

theorem Leaves.of_leak {l : Nat} {answered : Prop} {t : List (Event Nat Call Call.Reply)}
    (fails : ¬ answered) (neutral : Neutral t) : Leaves l answered (.acquire l :: t) :=
  ⟨fun holds => absurd holds fails, fun _ => neutral.leak l⟩

/-- The checks of the type and the readers of the attributes. -/
theorem every_getattr {α : Type} (inum : Nat) (failed : α) (result : Attr → α) :
    (do
      acquire inum
      let (r, a) ← call (.getattr inum)
      if r ≠ OK then
        return failed
      else
        release inum
        return result a : Prog α).Every fun t _ =>
      Leaves inum (∀ r a, .call (.getattr inum) (r, a) ∈ t → r = OK) t := by
  simp only [acquire, release, call, acquire_bind, release_bind, done_bind, call_bind, Every]
  rintro ⟨r, a⟩
  by_cases ok : r = OK
  · simp only [ok, ne_eq, not_true, if_false, pure_eq, Every]
    exact .of_neutral (by simp) (Closes.call (.release inum) _ _).neutral
  · simp only [ok, ne_eq, not_false_eq_true, if_true, pure_eq, Every]
    exact .of_leak (by simp [ok]) (.call .nil _ _)

theorem every_hasType (type : UInt32) (inum : Nat) : (hasType type inum).Every fun t _ =>
    Leaves inum (∀ r a, .call (.getattr inum) (r, a) ∈ t → r = OK) t :=
  every_getattr inum false fun a => a.type = type

theorem every_getinfo {β : Type} (fill : Attr → β) (inum : Nat) : (getinfo fill inum).Every fun t _ =>
    Leaves inum (∀ r a, .call (.getattr inum) (r, a) ∈ t → r = OK) t :=
  every_getattr inum (IOERR, none) fun a => (OK, some (fill a))

theorem every_setattr (ino size : Nat) : (Client.setattr ino size).Every fun t _ =>
    Leaves ino (∀ r buf, .call (.get ino) (r, buf) ∈ t → r = OK) t := by
  simp only [Client.setattr, acquire, release, call, acquire_bind, release_bind, done_bind, call_bind,
    Every]
  rintro ⟨r, buf⟩
  by_cases ok : r = OK
  · simp only [ok, ne_eq, not_true, if_false, pure_eq, Every]
    intro _
    exact .of_neutral (by simp) ((Closes.release ino).call _ _ |>.call _ _).neutral
  · simp only [ok, ne_eq, not_false_eq_true, if_true, pure_eq, Every]
    exact .of_leak (by simp [ok]) (.call .nil _ _)

theorem every_read (ino size off : Nat) : (Client.read ino size off).Every fun t _ =>
    Leaves ino (∀ r buf, .call (.get ino) (r, buf) ∈ t → r = OK ∧ uint off < buf.length) t := by
  simp only [Client.read, acquire, release, call, acquire_bind, release_bind, done_bind, call_bind,
    Every]
  rintro ⟨r, buf⟩
  by_cases ok : r = OK
  · by_cases past : buf.length ≤ uint off
    · simp only [ok, past, ne_eq, not_true, if_false, if_true, pure_eq, Every]
      exact .of_leak (by simp [past]) (.call .nil _ _)
    · simp only [ok, past, ne_eq, not_true, if_false, pure_eq, substr]
      split
      · trivial
      · simp only [done_bind, Every]
        exact .of_neutral (by simp; omega) (Closes.call (.release ino) _ _).neutral
  · simp only [ok, ne_eq, not_false_eq_true, if_true, pure_eq, Every]
    exact .of_leak (by simp [ok]) (.call .nil _ _)

theorem every_readdir_inner (dir : Nat) : (__readdir dir).Every fun t _ => Neutral t := by
  simp only [__readdir, call, done_bind, call_bind, Every]
  intro r
  split
  · trivial
  · intro attr
    beta_reduce
    split
    · trivial
    · exact .call (.call .nil _ _) _ _

theorem every_lookup_inner (parent : Nat) (name : List UInt8) :
    (__lookup parent name).Every fun t _ => Neutral t := by
  refine Every.bind ((every_readdir_inner parent).mono fun t list neutral => ?_)
  split
  · exact neutral.append .nil
  · exact neutral.append .nil

theorem every_createNode (type : UInt32) (parent : Nat) (name : List UInt8) (memory : Entry) :
    (createNode type parent name memory).Every fun t _ => Neutral t := by
  simp only [createNode, acquire, release, call, acquire_bind, release_bind, done_bind, call_bind, Every]
  refine Every.bind ((every_lookup_inner parent name).mono fun t found neutral => ?_)
  split
  · exact (Closes.append neutral (.release parent)).neutral
  · intro ino r
    beta_reduce
    split
    · trivial
    · intro _
      exact (Closes.append neutral ((Closes.release parent).call _ _ |>.call _ _ |>.call _ _)).neutral

theorem every_lookup (parent : Nat) (name : List UInt8) :
    (Client.lookup parent name).Every fun t _ => Neutral t := by
  simp only [Client.lookup, acquire, release, acquire_bind, release_bind, done_bind, Every]
  refine Every.bind ((every_lookup_inner parent name).mono fun t found neutral => ?_)
  exact (Closes.append neutral (.release parent)).neutral

theorem every_readdir (dir : Nat) : (Client.readdir dir).Every fun t _ => Neutral t := by
  simp only [Client.readdir, acquire, release, acquire_bind, release_bind, done_bind, Every]
  refine Every.bind ((every_readdir_inner dir).mono fun t found neutral => ?_)
  exact (Closes.append neutral (.release dir)).neutral

theorem every_write (ino off : Nat) (data : List UInt8) :
    (Client.write ino off data).Every fun t _ => Neutral t := by
  simp only [Client.write, acquire, release, call, acquire_bind, release_bind, done_bind, call_bind,
    Every, replace]
  intro r
  split <;> split
  · trivial
  · intro _
    exact ((Closes.release ino).call _ _ |>.call _ _).neutral
  · trivial
  · intro _
    exact ((Closes.release ino).call _ _ |>.call _ _).neutral

theorem every_unlink (parent : Nat) (name : List UInt8) (memory : Nat → Entry) :
    (Client.unlink parent name memory).Every fun t _ => Neutral t := by
  simp only [Client.unlink, acquire, release, call, acquire_bind, release_bind, done_bind, call_bind,
    Every]
  refine Every.bind ((every_readdir_inner parent).mono fun t list neutral => ?_)
  split
  · exact (Closes.append neutral (.release parent)).neutral
  · intro _ _
    exact (Closes.append neutral ((Closes.release parent).call _ _ |>.call _ _)).neutral

theorem every_readlink (ino : Nat) : (Client.readlink ino).Every fun t _ => Neutral t := by
  intro _
  exact (Closes.call (.release ino) _ _).neutral

theorem every_symlink (parent : Nat) (name link : List UInt8) (memory : Entry) :
    (Client.symlink parent name link memory).Every fun t _ => Neutral t := by
  simp only [Client.symlink, acquire, release, call, acquire_bind, release_bind, done_bind, call_bind,
    Every]
  intro r
  refine Every.bind ((every_lookup_inner parent name).mono fun t found neutral => ?_)
  split
  · exact ((Closes.append neutral (.release parent)).call _ _).neutral
  · intro _ _ _
    exact ((Closes.append neutral ((Closes.release parent).call _ _ |>.call _ _ |>.call _ _)).call
      _ _).neutral

theorem leaves {op : Operation} {t : List (Event Nat Call Call.Reply)}
    (ran : Traced op.program t ()) : Leaves op.lock (op.Answered t) t := by
  cases op with
  | isfile inum => exact ran.every (every_hasType _ inum).discard
  | issymlink inum => exact ran.every (every_hasType _ inum).discard
  | isdir inum => exact ran.every (every_hasType _ inum).discard
  | getfile inum => exact ran.every (every_getinfo _ inum).discard
  | getdir inum => exact ran.every (every_getinfo _ inum).discard
  | setattr ino size => exact ran.every (every_setattr ino size).discard
  | read ino size off => exact ran.every (every_read ino size off).discard
  | create parent name memory =>
    exact .of_neutral trivial (ran.every (every_createNode T_FILE parent name memory).discard)
  | mkdir parent name memory =>
    exact .of_neutral trivial (ran.every (every_createNode T_DIR parent name memory).discard)
  | lookup parent name => exact .of_neutral trivial (ran.every (every_lookup parent name).discard)
  | readdir dir => exact .of_neutral trivial (ran.every (every_readdir dir).discard)
  | write ino off data => exact .of_neutral trivial (ran.every (every_write ino off data).discard)
  | unlink parent name memory =>
    exact .of_neutral trivial (ran.every (every_unlink parent name memory).discard)
  | readlink ino => exact .of_neutral trivial (ran.every (every_readlink ino).discard)
  | symlink parent name link memory =>
    exact .of_neutral trivial (ran.every (every_symlink parent name link memory).discard)

end Operation

/-- An operation that has returned, with what it did. -/
structure Completed where
  operation : Operation
  trace : List (Event Nat Call Call.Reply)
  ran : Traced operation.program trace ()

theorem Completed.answered_of_balanced (c : Completed) (balanced : Balanced c.trace) :
    c.operation.Answered c.trace := by
  by_contra unanswered
  have leaked := (Operation.leaves c.ran).leak unanswered c.operation.lock 0
  rw [balanced, if_pos rfl] at leaked
  cases leaked

theorem Completed.neutral_flatMap {calls : List Completed}
    (answered : ∀ c ∈ calls, c.operation.Answered c.trace) :
    Neutral (calls.flatMap Completed.trace) := by
  induction calls with
  | nil => exact .nil
  | cons c calls ih =>
    rw [List.forall_mem_cons] at answered
    rw [List.flatMap_cons]
    exact ((Operation.leaves c.ran).neutral answered.1).append (ih answered.2)

/-- Every operation of a sequence returns the locks it takes, and no lock is held in
the end, exactly if every operation was answered so that it came to its release. -/
theorem Completed.balanced_iff_answered (calls : List Completed) :
    ((∀ c ∈ calls, Balanced c.trace) ∧ Balanced (calls.flatMap Completed.trace)) ↔
      ∀ c ∈ calls, c.operation.Answered c.trace := by
  constructor
  · exact fun balanced c member => c.answered_of_balanced (balanced.1 c member)
  · intro answered
    refine ⟨fun c member => ?_, (neutral_flatMap answered).balanced⟩
    exact ((Operation.leaves c.ran).neutral (answered c member)).balanced

/-- A `read` at the end of an empty file. -/
private def pastEnd : Completed where
  operation := .read 2 10 0
  trace := [.acquire 2, .call (.get 2) (OK, [])]
  ran := .acquire (.call .done)

/-- It returns with the lock. -/
theorem Completed.read_leaks :
    ¬ Balanced pastEnd.trace ∧ held 2 pastEnd.trace 0 = some 1 := by
  refine ⟨fun balanced => ?_, rfl⟩
  cases balanced 2

end Yfs.Client
