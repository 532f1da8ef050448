import Yfs.Extent.Coherence

/-! Runs of the extent service: what a `get` returns when nothing is removed, and how
long `owner_map` and the caches stay in step when something is. -/

namespace Yfs.Extent

open Yfs.Lib Yfs.Store

variable {Cid : Type}

/-- A call other than `remove` on a live extent. -/
def Request.Calm (W : World Cid) : Request → Prop
  | .get eid | .put eid _ | .getattr eid => W.server.files eid ≠ none
  | .remove _ => False

/-- The ids of `get` and `put` are not changed by the mask of the server, and nobody
owns an extent that is removed. -/
def Request.Spares (W : World Cid) : Request → Prop
  | .get eid | .put eid _ => mask eid = eid
  | .getattr _ => True
  | .remove eid => W.server.ownerMap (mask eid) = none

def Event.Calm (e : Event Cid) : Prop :=
  match e.call with
  | .create _ => True
  | .request r => r.Calm e.before

def Event.Spares (e : Event Cid) : Prop :=
  match e.call with
  | .create _ => True
  | .request r => r.Spares e.before

/-- A `create` that has found an inode: the id is not zero. -/
def Call.creates (answer : Answer) (id : Nat) : Call → Prop
  | .create _ => id ≠ 0 ∧ answer = .id id
  | .request _ => False

/-- The string of the most recent `put`, in a log with the newest call first. -/
def lastPut : List (Event Cid) → Nat → Option (List UInt8)
  | [], _ => none
  | e :: log, id =>
    match e.call with
    | .request (.put eid buf) => if eid = id then some buf else lastPut log id
    | _ => lastPut log id

/-- What a call on a live extent answers and does. -/
def Request.Effect (W : World Cid) (answer : Answer) (W' : World Cid) : Request → Prop
  | .get eid => answer = .data (W.content eid) ∧ W.Kept W'
  | .put eid buf => W.Written eid buf W'
  | .getattr _ => W.Kept W'
  | .remove _ => True

variable [DecidableEq Cid] {W : World Cid}

/-- `owner_map` and the caches are in step, so the server sends `flush` to owners only
and no call ends in the `exit(0)` of `flush`. -/
def World.Sound (W : World Cid) : Prop :=
  W.InStep ∧ ∀ (env : Env) (cid : Cid) (r : Request),
    (∀ owner id, .flush owner id ∈ (r.run env cid W).1 → W.Owns owner id) ∧
      (r.run env cid W).2 ≠ .error .flushNotOwning

theorem World.Inv.ensures_run (inv : W.Inv) (env : Env) (cid : Cid) (r : Request) :
    Act.Ensures W.Addressed (· = .nullInode) (r.run env cid) W fun _ W' =>
      (W'.InStep → r.Spares W) ∧ (r.Spares W → W'.Inv) := by
  -- A client that has fetched an extent owns it under the id it asked for.
  have fetched : ∀ eid (W' : World Cid), W'.Owns cid eid → W'.Masked → W'.InStep → mask eid = eid :=
    fun eid W' owns masked inStep => masked eid cid ((inStep eid cid).mpr owns)
  cases r with
  | get eid =>
    refine .seq (ensures_get inv (fun _ owns => ⟨owns, owns⟩) ?_ ?_)
    · exact fun _ => rfl
    · intro W' owns masked kept
      exact .pure ⟨fetched eid W' owns masked, fun same => (kept same).inv⟩
  | put eid buf =>
    refine .seq (ensures_put inv (fun _ owns => ⟨owns, owns⟩) ?_ ?_)
    · exact fun _ => rfl
    · intro W' owns masked written
      exact .pure ⟨fetched eid W' owns masked, fun same => (written same).inv⟩
  | getattr eid =>
    refine .seq (ensures_getattr inv (fun _ owns => owns) ?_)
    exact fun W' kept _ _ => .pure ⟨fun _ => trivial, fun _ => kept.inv⟩
  | remove eid =>
    refine .seq (ensures_remove inv ?_ (fun _ owns => owns) ?_ ?_)
    · exact fun _ => rfl
    · exact fun files unowned _ => .pure ⟨fun _ => unowned, fun _ => inv.setFiles files⟩
    · intro W' owned broken
      exact .pure ⟨fun inStep => absurd inStep broken, fun unowned => absurd unowned owned⟩

theorem World.Inv.ensures_calm {r : Request} (inv : W.Inv) (env : Env) (cid : Cid) (calm : r.Calm W)
    (small : ∀ id, W.server.files id ≠ none → mask id = id) :
    Act.Ensures W.Addressed (fun _ => False) (r.run env cid) W fun answer W' =>
      r.Effect W answer W' := by
  cases r with
  | get eid =>
    have masked := small eid calm
    refine .seq (ensures_get inv (fun _ owns => ⟨owns, owns⟩) ?_ ?_)
    · rw [masked]
      exact calm
    · intro W' _ _ kept
      rw [masked]
      exact .pure ⟨rfl, kept masked⟩
  | put eid buf =>
    have masked := small eid calm
    refine .seq (ensures_put inv (fun _ owns => ⟨owns, owns⟩) ?_ ?_)
    · rw [masked]
      exact calm
    · exact fun W' _ _ written => .pure (written masked)
  | getattr eid =>
    refine .seq (ensures_getattr inv (fun _ owns => owns) ?_)
    exact fun W' kept _ _ => .pure kept
  | remove eid => exact calm.elim

namespace World

theorem Inv.sound (inv : W.Inv) : W.Sound := by
  refine ⟨inv.inStep, fun env cid r => ?_⟩
  obtain ⟨sends, stops, _⟩ := inv.ensures_run env cid r
  constructor
  · exact fun owner id sent => sends _ sent
  · intro stopped
    cases stops _ stopped

/-- A step that spares the owners keeps the invariant, and no other step stays in step. -/
theorem Inv.step {W' : World Cid} {cid : Cid} {call : Call} {answer : Answer} (inv : W.Inv)
    (step : W.Step cid call answer W') :
    (W'.InStep → Event.Spares ⟨W, cid, call, answer⟩) ∧
      (Event.Spares ⟨W, cid, call, answer⟩ → W'.Inv) := by
  cases step with
  | create _ => exact ⟨fun _ => trivial, fun _ => inv.setFiles _⟩
  | request ran => exact (inv.ensures_run _ cid _).2.2 _ _ ran

theorem Run.inv {start : World Cid} {log : List (Event Cid)} (initial : start.Initial)
    (run : start.Run log W) (spares : ∀ e ∈ log, e.Spares) : W.Inv := by
  induction run with
  | nil => exact initial.inv
  | cons run step ih =>
    rw [List.forall_mem_cons] at spares
    exact ((ih spares.2).step step).2 spares.1

/-- The states of a run are sound exactly as long as no call takes an owned extent away. -/
theorem Run.sound_iff_spares {start : World Cid} {log : List (Event Cid)} (initial : start.Initial)
    (run : start.Run log W) :
    ((∀ e ∈ log, e.before.Sound) ∧ W.Sound) ↔ ∀ e ∈ log, e.Spares := by
  constructor
  · rintro ⟨states, sound⟩
    induction run with
    | nil => simp
    | cons run step ih =>
      rw [List.forall_mem_cons] at states ⊢
      have earlier := ih states.2 states.1
      exact ⟨((run.inv initial earlier).step step).1 sound.1, earlier⟩
  · intro spares
    refine ⟨?_, (run.inv initial spares).sound⟩
    induction run with
    | nil => simp
    | cons run step ih =>
      rw [List.forall_mem_cons] at spares ⊢
      exact ⟨(run.inv initial spares.2).sound, ih spares.2⟩

private def daybreak : Clock := ⟨0, 0, 0⟩

/-- A server with the root directory only. -/
private def fresh : World Nat := World.boot daybreak

/-- Client 0 fetches a file that it has created and removes it. -/
private def created : World Nat :=
  fresh.setFiles (Function.update fresh.server.files 2 (some (.new T_FILE daybreak)))

private def fetched : World Nat := created.next .still 0 (.get 2)

private def removed : World Nat := fetched.next .still 0 (.remove 2)

private def removal : List (Event Nat) :=
  [⟨fetched, 0, .request (.remove 2), .done⟩, ⟨created, 0, .request (.get 2), .data []⟩,
    ⟨fresh, 0, .create T_FILE, .id 2⟩]

private theorem fetched_run : fresh.Run
    [⟨created, 0, .request (.get 2), .data []⟩, ⟨fresh, 0, .create T_FILE, .id 2⟩] fetched := by
  have alloc : fresh.server.files.Step (.alloc T_FILE ⟨0, 0, 0, 0, 0, fun _ => 0⟩ daybreak) (.inum 2)
      created.server.files := .alloc rfl (by decide)
  have got : ((Request.get 2).run .still 0 created).2 = .ok (.data [], fetched) := rfl
  exact .cons (.cons .nil (.create alloc)) (.request got)

theorem Run.sound_iff_spares_fetched :
    ((∀ e ∈ [(⟨created, 0, .request (.get 2), .data []⟩ : Event Nat),
        ⟨fresh, 0, .create T_FILE, .id 2⟩], e.before.Sound) ∧ fetched.Sound) ↔
      ∀ e ∈ [(⟨created, 0, .request (.get 2), .data []⟩ : Event Nat),
        ⟨fresh, 0, .create T_FILE, .id 2⟩], e.Spares :=
  Run.sound_iff_spares (World.boot_initial daybreak) fetched_run

/-- The server still takes client 0 for the owner, and the next `get` of the id makes
client 0 exit. -/
theorem Run.remove_leaves_owner :
    fresh.Initial ∧ fresh.Run removal removed ∧ removed.server.ownerMap 2 = some 0 ∧
      ¬ removed.Owns 0 2 ∧ ¬ removed.Sound ∧
      ((Request.get 2).run .still 1 removed).2 = .error .flushNotOwning := by
  have ran : ((Request.remove 2).run .still 0 fetched).2 = .ok (.done, removed) := rfl
  have exits : ((Request.get 2).run .still 1 removed).2 = .error .flushNotOwning := rfl
  refine ⟨World.boot_initial daybreak, .cons fetched_run (.request ran), rfl, ?_, ?_, exits⟩
  · rintro ⟨data, cached⟩
    cases cached
  · intro sound
    exact (sound.2 .still 1 (.get 2)).2 exits

/-- The content of every extent is the string of its most recent `put`, or what the
server stored in the beginning. -/
structure Tracks (start : World Cid) (log : List (Event Cid)) (W : World Cid) : Prop where
  inv : W.Inv
  content : ∀ id, W.content id = (lastPut log id).getD (start.stored id)
  stored : ∀ id, lastPut log id = none → W.stored id = start.stored id
  small : ∀ id, W.server.files id ≠ none → id < INODE_NUM
  dead : ∀ id, W.server.files id = none → W.content id = []

omit [DecidableEq Cid] in
theorem Initial.tracks {start : World Cid} (initial : start.Initial) : start.Tracks [] start where
  inv := initial.inv
  content id := by simp [World.content, initial.ownerMap id, lastPut]
  stored _ _ := rfl
  small := initial.files
  dead id missing := by simp [World.content, World.stored, initial.ownerMap id, missing]

omit [DecidableEq Cid] in
/-- A call that only moves extents between the server and the caches. -/
theorem Tracks.kept {start W' : World Cid} {log : List (Event Cid)} {e : Event Cid}
    (tracks : start.Tracks log W) (kept : W.Kept W') (same : lastPut (e :: log) = lastPut log) :
    start.Tracks (e :: log) W' where
  inv := kept.inv
  content id := by rw [same, kept.content, tracks.content]
  stored id none := by
    rw [same] at none
    rcases kept.stored id with stays | flushed
    · rw [stays, tracks.stored id none]
    · rw [flushed, tracks.content, none, Option.getD_none]
  small id live := tracks.small id (mt (kept.live id).mpr live)
  dead id missing := by rw [kept.content, tracks.dead id ((kept.live id).mp missing)]

section Create

variable {type : UInt32} {memory : Inode} {now : Clock} {eid : Nat} {files : FileTable}
  (alloc : W.server.files.Step (.alloc type memory now) (.inum eid) files)
include alloc

omit [DecidableEq Cid]

theorem stored_create (id : Nat) : (W.setFiles files).stored id = W.stored id := by
  obtain ⟨_, rfl⟩ | ⟨dead, _, rfl⟩ := FileTable.alloc_cases alloc
  · rfl
  · by_cases new : id = eid
    · simp [World.stored, new, dead, File.new]
    · simp [World.stored, new]

theorem content_create (id : Nat) : (W.setFiles files).content id = W.content id := by
  simp [World.content, stored_create alloc]

theorem Tracks.create {start : World Cid} {log : List (Event Cid)} {e : Event Cid}
    (tracks : start.Tracks log W) (same : lastPut (e :: log) = lastPut log) :
    start.Tracks (e :: log) (W.setFiles files) where
  inv := tracks.inv.setFiles files
  content id := by rw [same, content_create alloc, tracks.content]
  stored id none := by rw [stored_create alloc, tracks.stored id (by rwa [← same])]
  small id live := by
    obtain ⟨_, rfl⟩ | ⟨_, small, rfl⟩ := FileTable.alloc_cases alloc
    · exact tracks.small id live
    · by_cases new : id = eid
      · exact new ▸ small
      · exact tracks.small id (by simpa [new] using live)
  dead id missing := by
    rw [content_create alloc]
    apply tracks.dead
    obtain ⟨_, rfl⟩ | ⟨_, _, rfl⟩ := FileTable.alloc_cases alloc
    · exact missing
    · by_cases new : id = eid
      · simp [new] at missing
      · simpa [new] using missing

end Create

omit [DecidableEq Cid] in
/-- What a `get` answers where the contents are tracked. -/
theorem Tracks.content_eq {start : World Cid} {log : List (Event Cid)} (tracks : start.Tracks log W)
    (id : Nat) : W.content id = (lastPut log id).getD (W.stored id) := by
  rw [tracks.content]
  rcases put : lastPut log id with _ | buf
  · rw [Option.getD_none, Option.getD_none, tracks.stored id put]
  · rfl

theorem Tracks.step {start W' : World Cid} {log : List (Event Cid)} {cid : Cid} {call : Call}
    {answer : Answer} (tracks : start.Tracks log W) (step : W.Step cid call answer W')
    (calm : Event.Calm ⟨W, cid, call, answer⟩) :
    start.Tracks (⟨W, cid, call, answer⟩ :: log) W' ∧
      ∀ eid, call = .request (.get eid) → answer = .data (W.content eid) := by
  have masked : ∀ id, W.server.files id ≠ none → mask id = id :=
    fun id live => mask_of_lt (tracks.small id live)
  cases step with
  | create alloc => exact ⟨Tracks.create alloc tracks rfl, by rintro eid ⟨⟩⟩
  | @request r _ _ _ ran =>
    have effect := (tracks.inv.ensures_calm _ cid calm masked).2.2 _ _ ran
    cases r with
    | get eid =>
      refine ⟨tracks.kept effect.2 rfl, ?_⟩
      rintro _ ⟨⟩
      exact effect.1
    | put eid buf =>
      refine ⟨⟨effect.inv, ?_, ?_, ?_, ?_⟩, by rintro _ ⟨⟩⟩
      · intro id
        rw [effect.content, lastPut]
        by_cases same : eid = id
        · simp [same]
        · simpa [same, Function.update_of_ne (Ne.symm same)] using tracks.content id
      · intro id none
        rw [lastPut] at none
        have earlier : lastPut log id = .none := by
          by_cases same : eid = id
          · simp [same] at none
          · simpa [same] using none
        rcases effect.stored id with stays | flushed
        · rw [stays, tracks.stored id earlier]
        · rw [flushed, tracks.content, earlier, Option.getD_none]
      · exact fun id live => tracks.small id (mt (effect.live id).mpr live)
      · intro id missing
        have gone := (effect.live id).mp missing
        have apart : id ≠ eid := fun same => calm (same ▸ gone)
        rw [effect.content, Function.update_of_ne apart, tracks.dead id gone]
    | getattr eid => exact ⟨tracks.kept effect rfl, by rintro _ ⟨⟩⟩
    | remove eid => exact calm.elim

theorem Run.tracks {start : World Cid} {log : List (Event Cid)} (initial : start.Initial)
    (run : start.Run log W) (calm : ∀ e ∈ log, e.Calm) : start.Tracks log W := by
  induction run with
  | nil => exact initial.tracks
  | cons run step ih =>
    rw [List.forall_mem_cons] at calm
    exact ((ih calm.2).step step calm.1).1

/-- Extents live on, and a `create` that finds an inode adds one. -/
theorem Tracks.live_step {start W' : World Cid} {log : List (Event Cid)} {cid : Cid} {call : Call}
    {answer : Answer} (tracks : start.Tracks log W) (step : W.Step cid call answer W')
    (calm : Event.Calm ⟨W, cid, call, answer⟩) {id : Nat}
    (live : W.server.files id ≠ none ∨ call.creates answer id) : W'.server.files id ≠ none := by
  have masked : ∀ id, W.server.files id ≠ none → mask id = id :=
    fun id live => mask_of_lt (tracks.small id live)
  cases step with
  | create alloc =>
    obtain ⟨zero, same⟩ | ⟨_, _, same⟩ := FileTable.alloc_cases alloc
    · rw [World.setFiles_files, same]
      refine live.resolve_right ?_
      rintro ⟨positive, found⟩
      exact positive ((Answer.id.inj found).symm.trans zero)
    · rw [World.setFiles_files, same]
      rcases live with old | ⟨_, found⟩
      · rw [Function.update_apply]
        split
        · simp
        · exact old
      · simp [Answer.id.inj found]
  | @request r _ _ _ ran =>
    have effect := (tracks.inv.ensures_calm _ cid calm masked).2.2 _ _ ran
    have old : W.server.files id ≠ none := live.resolve_right not_false
    cases r with
    | get eid => exact mt (effect.2.live id).mp old
    | put eid buf => exact mt (effect.live id).mp old
    | getattr eid => exact mt (effect.live id).mp old
    | remove eid => exact calm.elim

/-- Without removals every extent is one string. A `get` answers the most recent `put`,
or what the server stores; only the client in `owner_map` owns an extent; the
extents of the beginning and those created later stay live, and every call on a
live extent returns. -/
theorem Run.coherent {start : World Cid} {log : List (Event Cid)} (initial : start.Initial)
    (run : start.Run log W) (calm : ∀ e ∈ log, e.Calm) :
    (∀ later e earlier eid, log = later ++ e :: earlier → e.call = .request (.get eid) →
      e.answer = .data ((lastPut earlier eid).getD (e.before.stored eid))) ∧
    (∀ id, lastPut log id = none → W.stored id = start.stored id) ∧
    (∀ id cid, W.Owns cid id ↔ W.server.ownerMap id = some cid) ∧
    (∀ id, (start.server.files id ≠ none ∨ ∃ e ∈ log, e.call.creates e.answer id) →
      W.server.files id ≠ none) ∧
    ∀ (env : Env) (cid : Cid) (r : Request), r.Calm W →
      ∃ answer W', (r.run env cid W).2 = .ok (answer, W') := by
  have tracks := run.tracks initial calm
  refine ⟨?_, tracks.stored, fun id cid => (tracks.inv.inStep id cid).symm, ?_, ?_⟩
  · induction run with
    | nil => simp
    | cons run step ih =>
      rw [List.forall_mem_cons] at calm
      have before := run.tracks initial calm.2
      intro later e earlier eid split called
      rcases List.cons_eq_append_iff.mp split with ⟨_, same⟩ | ⟨rest, _, same⟩
      · cases same
        rw [(before.step step calm.1).2 eid called, before.content_eq]
      · exact ih calm.2 before rest e earlier eid same called
  · induction run with
    | nil => simp
    | cons run step ih =>
      rw [List.forall_mem_cons] at calm
      have before := run.tracks initial calm.2
      intro id known
      refine before.live_step step calm.1 ?_
      rcases known with old | ⟨e, member, created⟩
      · exact .inl (ih calm.2 before id (.inl old))
      · rcases List.mem_cons.mp member with rfl | earlier
        · exact .inr created
        · exact .inl (ih calm.2 before id (.inr ⟨e, earlier, created⟩))
  · intro env cid r allowed
    have masked : ∀ id, W.server.files id ≠ none → mask id = id :=
      fun id live => mask_of_lt (tracks.small id live)
    have returns := (tracks.inv.ensures_calm env cid allowed masked).2.1
    rcases outcome : (r.run env cid W).2 with fault | ⟨answer, W'⟩
    · exact (returns fault outcome).elim
    · exact ⟨answer, W', rfl⟩

private def rootWritten : World Nat := fresh.next .still 0 (.put 1 [7])

private def rootRead : World Nat := rootWritten.next .still 1 (.get 1)

private def putEvent : Event Nat := ⟨fresh, 0, .request (.put 1 [7]), .done⟩

private def getEvent : Event Nat := ⟨rootWritten, 1, .request (.get 1), .data [7]⟩

theorem Run.coherent_root :
    getEvent.answer = .data ((lastPut [putEvent] 1).getD (rootWritten.stored 1)) ∧
      (rootRead.Owns 1 1 ↔ rootRead.server.ownerMap 1 = some 1) := by
  have put : ((Request.put 1 [7]).run .still 0 fresh).2 = .ok (.done, rootWritten) := rfl
  have got : ((Request.get 1).run .still 1 rootWritten).2 = .ok (.data [7], rootRead) := rfl
  have run : fresh.Run [getEvent, putEvent] rootRead := .cons (.cons .nil (.request put)) (.request got)
  have calm : ∀ e ∈ [getEvent, putEvent], e.Calm := by
    rw [List.forall_mem_cons, List.forall_mem_singleton]
    exact ⟨Option.some_ne_none _, Option.some_ne_none _⟩
  have coherent := Run.coherent (World.boot_initial daybreak) run calm
  exact ⟨coherent.1 [] getEvent [putEvent] 1 rfl rfl, coherent.2.2.1 1 1⟩

end World

end Yfs.Extent
