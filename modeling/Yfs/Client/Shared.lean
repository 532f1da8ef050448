import Yfs.Client.Directories
import Yfs.Client.History

/-! One file system at several clients. Every client keeps extents in its cache, and the requests
that come to one or another of them get the replies of one tree. -/

namespace Yfs.Client.Fuse

open Yfs.Lib Program
open Yfs.Store (T_DIR MAXSIZE Clock)
open Yfs.Extent (World)

variable {L : Libfuse} {Cid : Type} [DecidableEq Cid]

/-- The requests that clients on one pair of servers have handled, one after the other, the newest
first. A client starts while the root is empty; every request is in order, and what it makes is
given an inum of which nothing is remembered. -/
inductive Shared (L : Libfuse) : List (Cid × Request × Reply) → World Cid → (Nat → Bool) → Prop where
  | start (now : Clock) : Shared L [] (World.boot now) fun _ => false
  | join {handled : List (Cid × Request × Reply)} {W W' : World Cid} {locks locks' : Nat → Bool}
      (cid : Cid) (before : Shared L handled W locks) (empty : extents W 1 = some ⟨T_DIR, []⟩)
      (started : Solo (served cid) construct locks W () locks' W') : Shared L handled W' locks'
  | serve {handled : List (Cid × Request × Reply)} {W W' : World Cid} {locks locks' : Nat → Bool}
      {request : Request} {reply : Reply} {memory : Nat → Entry} (cid : Cid)
      (before : Shared L handled W locks) (admitted : (tree (extents W)).Admits request)
      (room : request.makes ≠ none → ∃ id, W.Unused id)
      (replied : Solo (servedFrom W.Unused cid) (handle L memory request) locks W reply locks' W') :
      Shared L ((cid, request, reply) :: handled) W' locks'

variable {handled : List (Cid × Request × Reply)} {W : World Cid} {locks : Nat → Bool} {request : Request}

omit [DecidableEq Cid] in
/-- Between two requests the caches and the server hold a mounted file system. -/
structure Serving (W : World Cid) (locks : Nat → Bool) : Prop where
  idle : locks = fun _ => false
  holds : Holds W (extents W)
  mounted : Mounted (extents W)

/-- What a request leaves at any client. -/
theorem Serving.completes (serving : Serving W locks) (lawful : L.Lawful)
    (admitted : (tree (extents W)).Admits request) (room : request.makes ≠ none → ∃ id, W.Unused id)
    (cid : Cid) (memory : Nat → Entry) :
    (handle L memory request).Completes (servedFrom W.Unused cid) (fun reply locks' W' =>
      Serving W' locks' ∧ FileTree.Handles L (tree (extents W)) request reply (tree (extents W')) ∧
        ∀ id, W.Unused id → extents W' id = none → W'.Unused id) locks W := by
  obtain ⟨rfl, holds, mounted⟩ := serving
  have spare : request.makes ≠ none → Spare W.Unused (extents W) := by
    intro makes
    obtain ⟨id, unused⟩ := room makes
    exact ⟨id, unused, unused.range.1, unused.range.2, holds.free unused⟩
  have clean := clean_handle lawful mounted admitted (fun _ => holds.free) spare memory
  refine ((simulates cid).completes holds.unremembered clean).mono ?_
  rintro reply _ W' ⟨E, after, rfl, handles, kept⟩
  rw [after.holds.extents_eq]
  refine ⟨⟨rfl, ?_, ?_⟩, handles, fun id => after.unused⟩
  · rw [after.holds.extents_eq]
    exact after.holds
  · rwa [after.holds.extents_eq]

/-- Whichever client handles a request, the extents see it as a request to one tree. -/
theorem Shared.kept (lawful : L.Lawful) (shared : Shared L handled W locks) :
    Serving W locks ∧ FileTree.Run L (handled.map Prod.snd) (tree (extents W)) := by
  induction shared with
  | start now =>
    have holds : Holds (World.boot now : World Cid) emptyRoot := holds_boot now
    have same := holds.extents_eq
    refine ⟨⟨rfl, same ▸ holds, same ▸ mounted_emptyRoot⟩, ?_⟩
    rw [same, tree_emptyRoot]
    exact .start
  | join cid _ empty started ih =>
    obtain ⟨⟨rfl, holds, mounted⟩, run⟩ := ih
    obtain ⟨idle, same, after⟩ := holds.unremembered.joined empty started
    exact ⟨⟨idle, after.holds, same ▸ mounted⟩, same ▸ run⟩
  | serve cid _ admitted room replied ih =>
    obtain ⟨serving, run⟩ := ih
    obtain ⟨after, handles, -⟩ := replied.satisfies (serving.completes lawful admitted room cid _)
    exact ⟨after, run.serve admitted handles⟩

/-- The write-back caches are transparent. Whichever client handles a request, it replies as one
file tree does to the requests of all clients together, and no lock stays taken. -/
theorem Shared.refines_one_tree (lawful : L.Lawful) (shared : Shared L handled W locks) :
    locks = (fun _ => false) ∧ FileTree.Run L (handled.map Prod.snd) (tree (extents W)) :=
  ⟨(shared.kept lawful).1.idle, (shared.kept lawful).2⟩

/-- The next request, at any client. -/
theorem Shared.next (lawful : L.Lawful) (shared : Shared L handled W locks)
    (admitted : (tree (extents W)).Admits request) (room : request.makes ≠ none → ∃ id, W.Unused id)
    (cid : Cid) : ∃ reply locks' W', Shared L ((cid, request, reply) :: handled) W' locks' ∧
      FileTree.Handles L (tree (extents W)) request reply (tree (extents W')) := by
  have completes := (shared.kept lawful).1.completes lawful admitted room cid fun _ _ => 0
  obtain ⟨reply, locks', W', replied⟩ := completes.solo
  exact ⟨reply, locks', W', shared.serve cid admitted room replied, (replied.satisfies completes).2.1⟩

section Passed

private def memo : Component := ⟨[109], by decide, by decide, by decide, by decide⟩

/-- Two clients start; the first makes a file and the second writes to it. -/
private theorem passed : ∃ ino st count locks, ∃ W : World Nat,
    Shared .kernel [(1, .write ino [4, 5, 6] 0, .write count), (0, .create 1 memo, .create ino st)] W locks ∧
      tree (extents W) ino = some (.file [4, 5, 6]) ∧
      tree (extents W) 1 = some (.dir [(memo.bytes, ino)]) := by
  have fresh : Shared .kernel [] (World.boot ⟨0, 0, 0⟩ : World Nat) fun _ => false := .start _
  have holds := (fresh.kept kernel_lawful).1.holds
  have root : extents (World.boot ⟨0, 0, 0⟩ : World Nat) = emptyRoot := (holds_boot _).extents_eq
  have empty : extents (World.boot ⟨0, 0, 0⟩ : World Nat) 1 = some ⟨T_DIR, []⟩ := by
    rw [root]
    rfl
  obtain ⟨locks, W, started⟩ := holds.unremembered.joins empty 1
  have joined := fresh.join 1 empty started
  obtain ⟨rfl, same, backs⟩ := holds.unremembered.joined empty started
  have bare : tree (extents W) = FileTree.empty := by rw [same, root, tree_emptyRoot]
  have admitted : (tree (extents W)).Admits (.create 1 memo) := by
    rw [bare]
    exact FileTree.admits_first_file (by decide)
  have unused : (World.boot ⟨0, 0, 0⟩ : World Nat).Unused 2 := boot_unused _ (by decide)
  have room : ∃ id, W.Unused id := ⟨2, backs.unused unused (same ▸ holds.free unused)⟩
  obtain ⟨_, _, V, created, handles⟩ := joined.next kernel_lawful admitted (fun _ => room) 0
  rw [bare] at handles
  obtain ⟨ino, st, apart, rfl, file, names⟩ := handles.first_file
  have writes : (tree (extents V)).Admits (.write ino [4, 5, 6] 0) := ⟨by decide, [], file⟩
  obtain ⟨_, locks, U, written, handles⟩ := created.next kernel_lawful writes (by simp [Request.makes]) 1
  obtain ⟨count, rfl, after⟩ := handles.wrote file
  refine ⟨ino, st, count, locks, U, written, ?_, ?_⟩
  · rw [after, Function.update_self]
    rfl
  · rw [after, Function.update_of_ne (Ne.symm apart), names]

/-- The first client unlinks the file. -/
private theorem unlinked_again : ∃ ino st count locks, ∃ W : World Nat,
    Shared .kernel [(0, .unlink 1 memo, .err 0), (1, .write ino [4, 5, 6] 0, .write count),
      (0, .create 1 memo, .create ino st)] W locks ∧ ∃ names, tree (extents W) 1 = some (.dir names) := by
  obtain ⟨ino, st, count, locks, W, shared, file, names⟩ := passed
  have admitted : (tree (extents W)).Admits (.unlink 1 memo) := by
    refine ⟨_, names, fun i children member => ?_⟩
    obtain rfl : i = ino := by simpa using member
    simp [file]
  obtain ⟨_, locks, V, shared, handles⟩ := shared.next kernel_lawful admitted (by simp [Request.makes]) 0
  obtain ⟨rfl, root⟩ := handles.removed names (by simp)
  exact ⟨ino, st, count, locks, V, shared, root⟩

theorem Shared.refines_one_tree_passed : ∃ ino st count locks, ∃ W : World Nat,
    FileTree.Run .kernel [(.unlink 1 memo, .err 0), (.write ino [4, 5, 6] 0, .write count),
      (.create 1 memo, .create ino st)] (tree (extents W)) ∧ locks = fun _ : Nat => false := by
  obtain ⟨ino, st, count, locks, W, shared, -⟩ := unlinked_again
  obtain ⟨idle, run⟩ := shared.refines_one_tree kernel_lawful
  exact ⟨ino, st, count, locks, W, run, idle⟩

end Passed

/-- At every client a request comes to its end: no client reaches the `exit(0)` of `flush`, the
server dereferences no null pointer, and nobody waits for a lock. And `write_file` has no content to
store that is larger than a file can be. -/
theorem Shared.replies_anywhere (lawful : L.Lawful) (shared : Shared L handled W locks)
    (admitted : (tree (extents W)).Admits request) (room : request.makes ≠ none → ∃ id, W.Unused id)
    (cid : Cid) (memory : Nat → Entry) :
    (handle L memory request).Completes (servedFrom W.Unused cid) (fun reply locks' W' =>
      Shared L ((cid, request, reply) :: handled) W' locks' ∧
        FileTree.Handles L (tree (extents W)) request reply (tree (extents W')) ∧
        ∀ i x, extents W' i = some x → x.bytes.length ≤ MAXSIZE) locks W := by
  have completes := (shared.kept lawful).1.completes lawful admitted room cid memory
  refine completes_solo (fun reply locks' W' replied => ?_) completes
  obtain ⟨⟨_, _, mounted⟩, handles, -⟩ := replied.satisfies completes
  exact ⟨shared.serve cid admitted room replied, handles, fun i x => mounted.sane.fits mounted.compact⟩

theorem Shared.replies_anywhere_passed : ∃ ino handled locks, ∃ W : World Nat,
    Shared .kernel handled W locks ∧
    (handle .kernel (fun _ _ => 0) (.read ino 3 0)).Completes (servedFrom W.Unused 0) (fun reply locks' W' =>
      Shared .kernel ((0, .read ino 3 0, reply) :: handled) W' locks' ∧
        FileTree.Handles .kernel (tree (extents W)) (.read ino 3 0) reply (tree (extents W')) ∧
        ∀ i x, extents W' i = some x → x.bytes.length ≤ MAXSIZE) locks W := by
  obtain ⟨ino, st, count, locks, W, shared, file, -⟩ := passed
  have admitted : (tree (extents W)).Admits (.read ino 3 0) := ⟨_, file, by decide⟩
  have completes := shared.replies_anywhere kernel_lawful admitted (by simp [Request.makes]) 0 fun _ _ => 0
  exact ⟨ino, _, locks, W, shared, completes⟩

/-- Whoever reads, follows a link or looks up, finds what has been written and made, by itself or by
others, and not what has been unlinked. -/
theorem Shared.sees_others {earlier later : List (Cid × Request × Reply)} {reply : Reply} {cid : Cid}
    (lawful : L.Lawful) (shared : Shared L (later ++ (cid, request, reply) :: earlier) W locks) :
    (∀ ino size off, request = .read ino size off →
      reply = .buf (readAt (content (earlier.map Prod.snd) ino) off size)) ∧
    (∀ ino, request = .readlink ino → reply = .readlink (content (earlier.map Prod.snd) ino)) ∧
    ∀ parent name, request = .lookup parent name →
      match bound (earlier.map Prod.snd) parent name.bytes with
      | some ino => ∃ st, reply = .entry ino st
      | none => reply = .err ENOENT := by
  have run := (shared.kept lawful).2
  rw [List.map_append, List.map_cons] at run
  exact ⟨run.reads.1, run.reads.2, run.finds⟩

/-- The first client reads what the second one has written, and the second does not find what the
first has unlinked. -/
theorem Shared.sees_others_passed :
    (∃ ino reply handled locks, ∃ W : World Nat,
      Shared .kernel ((0, .read ino 3 0, reply) :: handled) W locks ∧ reply = .buf [4, 5, 6]) ∧
    ∃ handled reply locks, ∃ W : World Nat,
      Shared .kernel ((1, .lookup 1 memo, reply) :: (0, .unlink 1 memo, .err 0) :: handled) W locks ∧
        reply = .err ENOENT := by
  constructor
  · obtain ⟨ino, st, count, locks, W, shared, file, -⟩ := passed
    have admitted : (tree (extents W)).Admits (.read ino 3 0) := ⟨_, file, by decide⟩
    obtain ⟨reply, locks', W', shared, _⟩ := shared.next kernel_lawful admitted (by simp [Request.makes]) 0
    refine ⟨ino, reply, _, locks', W', shared, ?_⟩
    have session : Shared .kernel ([] ++ (0, .read ino 3 0, reply) :: _) W' locks' := shared
    have bytes : content [(.write ino [4, 5, 6] 0, .write count), (.create 1 memo, .create ino st)] ino =
        writeAt [] 0 [4, 5, 6] := by
      simp [content, change, Request.makes, Reply.inum, Node.bytes]
    rw [(session.sees_others kernel_lawful).1 ino 3 0 rfl]
    simp only [List.map_cons, List.map_nil, bytes]
    decide
  · obtain ⟨ino, st, count, locks, W, shared, root⟩ := unlinked_again
    have admitted : (tree (extents W)).Admits (.lookup 1 memo) := root
    obtain ⟨reply, locks, V, shared, _⟩ := shared.next kernel_lawful admitted (by simp [Request.makes]) 1
    refine ⟨_, reply, locks, V, shared, ?_⟩
    have session : Shared .kernel ([] ++ (1, .lookup 1 memo, reply) :: _) V locks := shared
    simpa [bound, change] using (session.sees_others kernel_lawful).2.2 1 memo rfl

end Yfs.Client.Fuse
