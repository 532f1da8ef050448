import Yfs.Extent.Calls
import Yfs.Store.Refinement

/-! Requests to the extent server for ids that name no live inode. -/

namespace Yfs.Extent

open Yfs.Lib Yfs.Store

/-- The RPCs of `extent_protocol` other than `create`. -/
inductive ServerCall (Cid : Type) where
  | get (cid : Cid) (id : Nat)
  | put (cid : Cid) (id : Nat) (buf : List UInt8)
  | getattr (cid : Cid) (id : Nat)
  | remove (cid : Cid) (id : Nat)

variable {Cid : Type}

def ServerCall.id : ServerCall Cid → Nat
  | .get _ id | .put _ id _ | .getattr _ id | .remove _ id => id

/-- A callback to a client that may die in it: the call fails, its result stays as it
was, and the server goes on. A null `inode_t` is a fault of the server itself. -/
def attempt {α : Type} (unset : α) (handler : Ext Cid α) : Ext Cid α := fun W =>
  match handler W with
  | (events, .error .nullInode) => (events, .error .nullInode)
  | (events, .error _) => (events, .ok (unset, W))
  | returned => returned

variable [DecidableEq Cid]

/-- A request as the extent service answers it as long as no client dies. -/
def ServerCall.run (env : Env) : ServerCall Cid → Ext Cid Answer
  | .get cid id => return .data (← Server.get env cid id)
  | .put _ id buf => do
    Server.put id buf env.flushed
    return .done
  | .getattr _ id => return .attr (← Server.getattr id)
  | .remove _ id => do
    Server.remove id
    return .done

/-- `extent_server::get`, `put`, `getattr` and `remove`. -/
def Server.serve (env : Env) : ServerCall Cid → Ext Cid Answer
  | .get cid id => do
    let id := mask id
    callOwner id Callback.flush fun owner id => attempt () (Client.flushHandler env owner id)
    Act.modify (·.setOwner id cid)
    let W ← Act.get
    let (buf, files) ← orFault .nullInode (W.server.files.readFile id env.fetched)
    Act.modify (·.setFiles files)
    return .data buf
  | .put _ id buf => do
    put id buf env.flushed
    return .done
  | .getattr _ id => do
    let id := mask id
    let W ← Act.get
    match W.server.ownerMap id with
    | some owner =>
      Act.emit (.syncMeta owner id)
      return .attr (← attempt env.memory (Client.syncMetaHandler owner id))
    | none => return .attr (W.server.files.getattr id ⟨0, 0, 0, 0, 0⟩)
  | .remove _ id => do
    let id := mask id
    callOwner id Callback.clear fun owner id => attempt () (Client.clearHandler owner id)
    let W ← Act.get
    let files ← orFault .nullInode (W.server.files.removeFile id)
    Act.modify (·.setFiles files)
    return .done

section Serve

variable {W W' : World Cid} {env : Env} {α : Type}

omit [DecidableEq Cid] in
theorem returns_attempt {unset a : α} {handler : Ext Cid α} :
    Act.Returns (attempt unset handler) W a W' ↔ Act.Returns handler W a W' ∨
      (∃ fault, (handler W).2 = .error fault ∧ fault ≠ .nullInode) ∧ a = unset ∧ W' = W := by
  unfold Act.Returns attempt
  rcases handler W with ⟨events, fault | result⟩
  · cases fault <;> simp [eq_comm]
  · simp

theorem mask_mask (id : Nat) : mask (mask id) = mask id := Nat.mod_mod ..

theorem dead_of_flush {owner : Cid} {k : Nat} (masked : mask k = k) (dead : W.server.files k = none)
    (returned : Act.Returns (attempt () (Client.flushHandler env owner k)) W () W') :
    W'.server.files k = none := by
  rcases returns_attempt.mp returned with flushed | ⟨-, -, rfl⟩
  · obtain ⟨_, _, f, -, -, live, -⟩ := (returns_flushHandler masked).mp flushed
    exact absurd (dead.symm.trans live) (by simp)
  · exact dead

theorem dead_of_clear {owner : Cid} {k : Nat} (dead : W.server.files k = none)
    (returned : Act.Returns (attempt () (Client.clearHandler owner k)) W () W') :
    W'.server.files k = none := by
  rcases returns_attempt.mp returned with cleared | ⟨-, -, rfl⟩
  · obtain ⟨cache, info, -, -, rfl⟩ := returns_clearHandler.mp cleared
    simpa [World.setView, View.setInfo, View.setData, World.view] using dead
  · exact dead

omit [DecidableEq Cid] in
theorem dead_of_callOwner {k : Nat} {callback : Cid → Nat → Callback Cid} {handler : Cid → Nat → Ext Cid Unit}
    (dead : W.server.files k = none) (called : Act.Returns (Server.callOwner k callback handler) W () W')
    (handled : ∀ owner, Act.Returns (handler owner k) W () W' → W'.server.files k = none) :
    W'.server.files k = none := by
  obtain ⟨_, _, got, rest⟩ := Act.returns_bind.mp called
  obtain ⟨rfl, rfl⟩ := Act.returns_get.mp got
  split at rest
  · rename_i owner _
    obtain ⟨_, _, emitted, ran⟩ := Act.returns_bind.mp rest
    cases Act.returns_emit.mp emitted
    exact handled owner ran
  · obtain ⟨-, rfl⟩ := Act.returns_pure.mp rest
    exact dead

/-- No request but `getattr` comes back for a dead id. -/
theorem not_returns_of_dead {call : ServerCall Cid} {answer : Answer}
    (dead : W.server.files (mask call.id) = none)
    (other : ∀ cid id, call ≠ .getattr cid id) : ¬ Act.Returns (Server.serve env call) W answer W' := by
  intro returned
  cases call with
  | get cid id =>
    obtain ⟨_, W₁, called, rest⟩ := Act.returns_bind.mp returned
    have still := dead_of_callOwner dead called fun owner => dead_of_flush (mask_mask id) dead
    simp only [Act.returns_bind, Act.returns_modify, Act.returns_get, returns_orFault] at rest
    obtain ⟨_, _, rfl, _, _, ⟨rfl, rfl⟩, _, _, ⟨read, -⟩, -⟩ := rest
    obtain ⟨file, found, -⟩ := FileTable.readFile_some read
    exact absurd (still.symm.trans found) (by simp)
  | put cid id buf =>
    simp only [Server.serve, Server.put, Act.returns_bind, Act.returns_get, returns_orFault] at returned
    obtain ⟨_, _, ⟨_, _, ⟨rfl, rfl⟩, _, _, ⟨written, -⟩, -⟩, -⟩ := returned
    obtain ⟨file, found, -⟩ := FileTable.writeFile_some written
    exact absurd (dead.symm.trans found) (by simp)
  | getattr cid id => exact other cid id rfl
  | remove cid id =>
    obtain ⟨_, W₁, called, rest⟩ := Act.returns_bind.mp returned
    have still := dead_of_callOwner dead called fun owner => dead_of_clear dead
    simp only [Act.returns_bind, Act.returns_get, returns_orFault] at rest
    obtain ⟨_, _, ⟨rfl, rfl⟩, _, _, ⟨removed, -⟩, -⟩ := rest
    obtain ⟨file, found, -⟩ := FileTable.removeFile_some removed
    exact absurd (still.symm.trans found) (by simp)

/-- `getattr` comes back with nothing changed, whatever the owner answers. -/
theorem returns_getattr_serve (cid : Cid) (id : Nat) :
    ∃ answer, Act.Returns (Server.serve env (.getattr cid id)) W answer W := by
  cases owned : W.server.ownerMap (mask id) with
  | none =>
    refine ⟨.attr (W.server.files.getattr (mask id) ⟨0, 0, 0, 0, 0⟩),
      Act.returns_bind.mpr ⟨W, W, Act.returns_get.mpr ⟨rfl, rfl⟩, ?_⟩⟩
    rw [owned]
    exact Act.returns_pure.mpr ⟨rfl, rfl⟩
  | some owner =>
    have answers : ∃ a, Act.Returns (attempt env.memory (Client.syncMetaHandler owner (mask id))) W a W := by
      cases known : (W.clients owner).metadataMap (mask id) with
      | none =>
        refine ⟨env.memory, returns_attempt.mpr (.inr ⟨⟨.nullMetadata, ?_, by simp⟩, rfl, rfl⟩)⟩
        change (Act.bind Act.get _ W).2 = _
        simp only [Act.bind, Act.get, known]
        rfl
      | some info =>
        refine ⟨info.metadata, returns_attempt.mpr (.inl ?_)⟩
        simp [Client.syncMetaHandler, known]
    obtain ⟨a, answered⟩ := answers
    refine ⟨.attr a, Act.returns_bind.mpr ⟨W, W, Act.returns_get.mpr ⟨rfl, rfl⟩, ?_⟩⟩
    rw [owned]
    refine Act.returns_bind.mpr ⟨(), W, Act.returns_emit.mpr rfl, Act.returns_bind.mpr ⟨a, W, answered, ?_⟩⟩
    exact Act.returns_pure.mpr ⟨rfl, rfl⟩

/-- A request that comes back and leaves all files as they were. -/
def Harmless (W : World Cid) (env : Env) (call : ServerCall Cid) : Prop :=
  ∃ answer W', Act.Returns (Server.serve env call) W answer W' ∧ W'.server.files = W.server.files

theorem harmless_iff {call : ServerCall Cid} (dead : W.server.files (mask call.id) = none) :
    Harmless W env call ↔ ∃ cid id, call = .getattr cid id := by
  constructor
  · rintro ⟨answer, W', returned, -⟩
    by_contra other
    refine not_returns_of_dead dead (fun cid id same => other ⟨cid, id, same⟩) returned
  · rintro ⟨cid, id, rfl⟩
    obtain ⟨answer, returned⟩ := @returns_getattr_serve Cid _ W env cid id
    exact ⟨answer, W, returned, rfl⟩

end Serve

section Manager

open InodeManager

/-- The inum that a call of the inode layer names. -/
def Op.inum : Op → Option Nat
  | .alloc .. => none
  | .write i _ _ _ | .read i _ | .getattr i _ | .remove i => some i

theorem deref_stops {α : Type} {im : InodeManager} {i : Nat} (dead : (getInode i im).2 = .ok (none, im))
    (f : Inode → Manage α) : ((getInode i >>= fun found => deref found >>= f) im).2 = .error .nullInode := by
  change (Act.bind _ _ im).2 = _
  rcases outcome : getInode i im with ⟨events, result⟩
  rw [outcome] at dead
  cases dead
  simp only [Act.bind, outcome]
  rfl

/-- The inode layer itself: only `getattr` comes back for a dead inum, with the disk and
the block allocator as they were. -/
theorem op_returns_iff {im : InodeManager} {i : Nat} (dead : (getInode i im).2 = .ok (none, im)) {op : Op}
    (named : Op.inum op = some i) : (∃ r, Act.Returns op.run im r im) ↔ ∃ a, op = .getattr i a := by
  have stops {α : Type} {m : Manage α} (stopped : (m im).2 = .error .nullInode) (f : α → Manage Reply)
      (r : Reply) : ¬ Act.Returns (m >>= f) im r im := by
    intro returned
    have stopped' := Act.bind_stops stopped (f := f)
    rw [Act.Returns, stopped'] at returned
    cases returned
  cases op with
  | alloc => cases named
  | write j buf size now =>
    cases named
    refine ⟨fun ⟨r, returned⟩ => absurd returned (stops (deref_stops dead _) _ r), ?_⟩
    rintro ⟨a, ⟨⟩⟩
  | read j now =>
    cases named
    refine ⟨fun ⟨r, returned⟩ => absurd returned (stops (deref_stops dead _) _ r), ?_⟩
    rintro ⟨a, ⟨⟩⟩
  | remove j =>
    cases named
    refine ⟨fun ⟨r, returned⟩ => absurd returned (stops (deref_stops dead _) _ r), ?_⟩
    rintro ⟨a, ⟨⟩⟩
  | getattr j a =>
    cases named
    refine ⟨fun _ => ⟨a, rfl⟩, fun _ => ⟨.attr a, ?_⟩⟩
    refine Act.returns_bind.mpr ⟨a, im, Act.returns_bind.mpr ⟨none, im, dead, ?_⟩, ?_⟩
    · exact Act.returns_pure.mpr ⟨rfl, rfl⟩
    · exact Act.returns_pure.mpr ⟨rfl, rfl⟩

end Manager

/-- A request for an id without a live inode is harmless exactly when it is a `getattr`. -/
theorem harmless_iff_getattr :
    (∀ (W : World Cid) env call, W.server.files (mask call.id) = none →
      (Harmless W env call ↔ ∃ cid id, call = .getattr cid id)) ∧
    ∀ im i op, (InodeManager.getInode i im).2 = .ok (none, im) → Op.inum op = some i →
      ((∃ r, Act.Returns op.run im r im) ↔ ∃ a, op = .getattr i a) :=
  ⟨fun _ _ _ dead => harmless_iff dead, fun _ _ _ dead named => op_returns_iff dead named⟩

private def evening : Clock := ⟨31, 32, 33⟩

private def idle : Env := ⟨⟨0, 0, 0, 0, 0⟩, evening, evening, evening⟩

private def vacant : World Nat := World.boot evening

theorem harmless_iff_getattr_missing : Harmless vacant idle (.getattr 0 2) :=
  (harmless_iff_getattr.1 _ _ _ rfl).mpr ⟨0, 2, rfl⟩

/-- Client 0 creates a file and removes it. -/
private def newborn : World Nat :=
  vacant.setFiles (Function.update vacant.server.files 2 (some (.new T_FILE evening)))

private def gone : World Nat := newborn.setFiles (Function.update newborn.server.files 2 none)

/-- Client 1, which has the file open, reads it. -/
theorem get_removed_not_harmless : vacant.Initial ∧
    vacant.Run [⟨newborn, 0, .request (.remove 2), .done⟩, ⟨vacant, 0, .create T_FILE, .id 2⟩] gone ∧
    (Server.serve idle (.get 1 2) gone).2 = .error .nullInode ∧ ¬ Harmless gone idle (.get 1 2) := by
  have alloc : vacant.server.files.Step (.alloc T_FILE ⟨0, 0, 0, 0, 0, fun _ => 0⟩ evening) (.inum 2)
      (Function.update vacant.server.files 2 (some (.new T_FILE evening))) :=
    .alloc rfl ⟨by decide, by decide⟩
  have removed : ((Request.remove 2).run idle 0 newborn).2 = .ok (.done, gone) := rfl
  have stopped : (Server.serve idle (.get 1 2) gone).2 = .error .nullInode := rfl
  refine ⟨World.boot_initial evening, .cons (.cons .nil (.create alloc)) (.request removed), stopped, ?_⟩
  rintro ⟨answer, W', returned, -⟩
  rw [Act.Returns, stopped] at returned
  cases returned

end Yfs.Extent
