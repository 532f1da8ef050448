import Yfs.Client.Directories
import Yfs.Client.Sections
import Yfs.Lock.Rounds

/-! Requests of many clients at once, with the locks of the caching lock clients between them. -/

namespace Yfs.Client

open Yfs.Lib Program
open Yfs.Store (T_FILE T_DIR T_SYMLINK INODE_NUM MAXSIZE Attr Clock)
open Yfs.Extent (World)

namespace Fuse

def fileMode : UInt32 := S_IFREG ||| 0o666
def dirMode : UInt32 := S_IFDIR ||| 0o777
def linkMode : UInt32 := S_IFLNK ||| 0o777

/-- The mode bits of an inode. -/
def modeOf (type : UInt32) : UInt32 :=
  if type = T_DIR then dirMode else if type = T_SYMLINK then linkMode else fileMode

/-- The inode that a reply names is there, with the mode that it tells. -/
def Reply.Holds (reply : Reply) (E : Extents) : Prop :=
  ∀ ino st, reply = .entry ino st ∨ reply = .create ino st → ∃ x, E ino = some x ∧ st.mode = modeOf x.type

/-- A `read` that has come back empty. -/
def Leaky (r : Request × Reply) : Prop := (∃ ino size off, r.1 = .read ino size off) ∧ r.2 = .buf []

/-- What the kernel knows from the replies so far: the root, and the inodes they name. -/
def Knows (results : List (Request × Reply)) (ino : Nat) (mode : UInt32) : Prop :=
  ino = 1 ∧ mode = dirMode ∨
    ∃ r ∈ results, ∃ st, (r.2 = .entry ino st ∨ r.2 = .create ino st) ∧ st.mode = mode

/-- The requests that the kernel sends, to inodes it knows and of the right kind; names fit in a
directory entry, contents in a file, and offsets in 32 bits. `unlink` is not among them. -/
def Sends (results : List (Request × Reply)) : Request → Prop
  | .getattr ino => ∃ mode, Knows results ino mode
  | .setattr ino size toSet =>
    Knows results ino fileMode ∧ (FUSE_SET_ATTR_SIZE &&& toSet ≠ 0 → size ≤ MAXSIZE)
  | .read ino _ off => Knows results ino fileMode ∧ off < 2 ^ 32
  | .write ino data off => Knows results ino fileMode ∧ off + data.length ≤ MAXSIZE
  | .create parent name | .mknod parent name | .mkdir parent name =>
    Knows results parent dirMode ∧ name.bytes.length ≤ MAX_LENGTH
  | .symlink link parent name =>
    Knows results parent dirMode ∧ name.bytes.length ≤ MAX_LENGTH ∧ 0 ∉ link ∧ link.length ≤ MAXSIZE
  | .lookup parent _ => Knows results parent dirMode
  | .unlink _ _ => False
  | .readlink ino => Knows results ino linkMode
  | .readdir ino _ _ => Knows results ino dirMode
  | .open _ | .statfs => True

/-- A request at a client, with the stack memory that its handler finds. -/
structure Job (Cid : Type) where
  cid : Cid
  memory : Nat → Entry
  request : Request

/-- The reply to a request, by the extent client of its client. -/
def serve {Cid : Type} (L : Libfuse) (job : Job Cid) :
    Program Nat (Cid × Call) (fun c => c.2.Reply) (Request × Reply) :=
  (do return (job.request, ← handle L job.memory job.request) : Prog (Request × Reply)).via job.cid

section Handlers

variable {E : Extents} {ino : Nat} {type : UInt32}

theorem typed_of_is (up : Up E) (is : Is E ino type) : type = T_FILE ∨ type = T_DIR ∨ type = T_SYMLINK := by
  obtain ⟨x, live, rfl⟩ := is
  exact up.mounted.typed ino x live

/-- `getattr` tells the mode of the inode, although it asks for it in several sections. -/
theorem safe_stat {Q : Status × Stat → List Nat → Extents → Prop} (is : Is E ino type) (up : Up E)
    (rest : ∀ E' st, Later E E' → st.mode = modeOf type → Q (OK, st) [] E') :
    Safe Q (Fuse.getattr ino) [] E := by
  have asked (kind : UInt32) {α : Type} {f : Bool → Prog α} {Q : α → List Nat → Extents → Prop} {E₁ : Extents}
      (later : Later E E₁) (rest : ∀ E₂, Later E E₂ → Safe Q (f (decide (type = kind))) [] E₂) :
      Safe Q (hasType kind ino >>= f) [] E₁ :=
    Cells.Serves.bind (safe_hasType (is.later later) kind fun E₂ further => rest E₂ (later.trans further))
  have filled {α β : Type} {fill : Attr → β} {f : Status × Option β → Prog α}
      {Q : α → List Nat → Extents → Prop} {E₁ : Extents} (later : Later E E₁)
      (rest : ∀ E₂ a, Later E E₂ → Safe Q (f (OK, some (fill a))) [] E₂) :
      Safe Q (getinfo fill ino >>= f) [] E₁ :=
    Cells.Serves.bind (safe_getinfo (is.later later) fill fun E₂ a further => rest E₂ a (later.trans further))
  refine asked T_FILE ⟨.refl E, up⟩ fun E₁ first => asked T_FILE first fun E₂ second => ?_
  rcases typed_of_is up is with rfl | rfl | rfl
  · rw [if_pos (by decide)]
    exact filled second fun E₃ a third => rest E₃ _ third rfl
  · rw [if_neg (by decide)]
    refine asked T_DIR second fun E₃ third => ?_
    rw [if_pos (by decide)]
    exact filled third fun E₄ a fourth => rest E₄ _ fourth rfl
  · rw [if_neg (by decide)]
    refine asked T_DIR second fun E₃ third => ?_
    rw [if_neg (by decide)]
    refine asked T_SYMLINK third fun E₄ fourth => ?_
    rw [if_pos (by decide)]
    exact filled fourth fun E₅ a fifth => rest E₅ _ fifth rfl

/-- What is known when a handler has sent its reply. -/
def Answers (request : Request) (reply : Reply) (own : List Nat) (E : Extents) : Prop :=
  (own ≠ [] → Up E ∧ Leaky (request, reply)) ∧ reply.Holds E

theorem answers_plain {request : Request} {reply : Reply} (entry : ∀ ino st, reply ≠ .entry ino st)
    (create : ∀ ino st, reply ≠ .create ino st) : Answers request reply [] E := by
  refine ⟨fun inside => absurd rfl inside, ?_⟩
  rintro ino st (same | same)
  · exact absurd same (entry ino st)
  · exact absurd same (create ino st)

/-- The reply names an inode that is there. -/
theorem answers_named {request : Request} {reply : Nat → Stat → Reply} {st : Stat}
    (kind : reply = .entry ∨ reply = .create) (is : Is E ino type) (mode : st.mode = modeOf type) :
    Answers request (reply ino st) [] E := by
  obtain ⟨x, live, rfl⟩ := is
  refine ⟨fun inside => absurd rfl inside, ?_⟩
  rcases kind with rfl | rfl <;> rintro _ _ (same | same) <;> cases same <;> exact ⟨x, live, mode⟩

theorem safe_fuseserverGetattr (is : Is E ino type) (up : Up E) :
    Safe (Answers (.getattr ino)) (fuseserverGetattr ino) [] E := by
  refine Cells.Serves.bind (safe_stat is up fun E' st later mode => ?_)
  exact answers_plain nofun nofun

theorem safe_fuseserverSetattr (is : Is E ino T_FILE) {size toSet : Nat}
    (sized : FUSE_SET_ATTR_SIZE &&& toSet ≠ 0 → size ≤ MAXSIZE) :
    Safe (Answers (.setattr ino size toSet)) (fuseserverSetattr ino size toSet) [] E := by
  unfold fuseserverSetattr
  split
  · rename_i resizes
    refine Cells.Serves.bind (safe_setattr is (sized resizes) fun E' later => ?_)
    refine Cells.Serves.bind (safe_stat (is.later later) later.2 fun E'' st _ _ => ?_)
    exact answers_plain nofun nofun
  · exact answers_plain nofun nofun

theorem safe_fuseserverRead (is : Is E ino T_FILE) {off : Nat} (small : off < 2 ^ 32) (size : Nat) :
    Safe (Answers (.read ino size off)) (fuseserverRead ino size off) [] E := by
  refine Cells.Serves.bind (safe_read is small size ?_ ?_)
  · exact fun E' data later => answers_plain nofun nofun
  · refine fun E' later => ⟨fun _ => ⟨later.2, ⟨ino, size, off, rfl⟩, rfl⟩, ?_⟩
    rintro _ _ (same | same) <;> cases same

theorem safe_fuseserverWrite (is : Is E ino T_FILE) {off : Nat} {data : List UInt8}
    (sized : off + data.length ≤ MAXSIZE) :
    Safe (Answers (.write ino data off)) (fuseserverWrite ino data off) [] E := by
  refine Cells.Serves.bind (safe_write is sized fun E' count later => ?_)
  exact answers_plain nofun nofun

theorem safe_fuseserverReadlink (is : Is E ino T_SYMLINK) :
    Safe (Answers (.readlink ino)) (fuseserverReadlink ino) [] E := by
  refine Cells.Serves.bind (safe_readlink is fun E' bytes later => ?_)
  exact answers_plain nofun nofun

section Directory

variable {d : Nat} (is : Is E d T_DIR)
include is

theorem safe_fuseserverLookup (name : Component) :
    Safe (Answers (.lookup d name)) (fuseserverLookup d name.bytes) [] E := by
  refine Cells.Serves.bind (safe_lookup is fun E' r later there => ?_)
  obtain ⟨status, _ | ino⟩ := r
  · exact answers_plain nofun nofun
  · obtain ⟨x, live⟩ := Option.ne_none_iff_exists'.mp (there ino rfl)
    have named : Is E' ino x.type := ⟨x, live, rfl⟩
    refine Cells.Serves.bind (safe_stat named later.2 fun E'' st further mode => ?_)
    exact answers_named (.inl rfl) (named.later further) mode

/-- The handlers of a creation. -/
theorem safe_replyMade {request : Request} {op : TreeOp} {name : Component} {memory : Entry}
    {reply : Nat → Stat → Reply} (kind : reply = .entry ∨ reply = .create)
    (file : type = T_FILE ∨ type = T_DIR) (making : op.making = some ⟨d, name, memory, type, []⟩)
    (short : name.bytes.length ≤ MAX_LENGTH) : Safe (Answers request)
      (do return replyMade reply (← fuseserverCreatehelper d name.bytes type memory)) [] E := by
  have body : (if type = T_FILE then create d name.bytes memory else mkdir d name.bytes memory) =
      createNode type d name.bytes memory := by
    rcases file with rfl | rfl <;> rfl
  refine Cells.Serves.bind ?_
  rw [fuseserverCreatehelper, body]
  refine Cells.Serves.bind (safe_createNode is making short ?_ ?_)
  · exact fun E' later => answers_plain nofun nofun
  · intro E' ino later new
    have made : Is E' ino type := ⟨_, new, rfl⟩
    refine Cells.Serves.bind (safe_stat made later.2 fun E'' st further mode => ?_)
    exact answers_named kind (made.later further) mode

theorem safe_fuseserverSymlink {link : List UInt8} {name : Component} (memory : Entry) (plain : 0 ∉ link)
    (sized : link.length ≤ MAXSIZE) (short : name.bytes.length ≤ MAX_LENGTH) :
    Safe (Answers (.symlink link d name)) (fuseserverSymlink link d name.bytes memory) [] E := by
  refine Cells.Serves.bind (safe_symlink is memory plain sized short ?_ ?_)
  · exact fun E' later => answers_plain nofun nofun
  · intro E' ino later new
    have made : Is E' ino T_SYMLINK := ⟨_, new, rfl⟩
    refine Cells.Serves.bind (safe_stat made later.2 fun E'' st further mode => ?_)
    exact answers_named (.inl rfl) (made.later further) mode

theorem safe_readdir_request (L : Libfuse) (memory : Nat → Entry) (size off : Nat) :
    Safe (Answers (.readdir d size off)) (handle L memory (.readdir d size off)) [] E := by
  refine Cells.Serves.bind (Cells.Serves.bind (safe_hasType is T_DIR fun E' later => ?_))
  rw [if_pos (by decide)]
  refine Cells.Serves.bind (safe_readdir (is.later later) fun E'' list further => ?_)
  exact answers_plain nofun nofun

end Directory

theorem modeOf_injective {a b : UInt32} (first : a = T_FILE ∨ a = T_DIR ∨ a = T_SYMLINK)
    (second : b = T_FILE ∨ b = T_DIR ∨ b = T_SYMLINK) (same : modeOf a = modeOf b) : a = b := by
  rcases first with rfl | rfl | rfl <;> rcases second with rfl | rfl | rfl <;> revert same <;> decide

/-- What the kernel knows is so. -/
theorem Knows.is {results : List (Request × Reply)} {mode : UInt32} (knows : Knows results ino mode)
    (up : Up E) (holds : ∀ r ∈ results, r.2.Holds E) : ∃ type, Is E ino type ∧ modeOf type = mode := by
  rcases knows with ⟨rfl, rfl⟩ | ⟨r, member, st, named, rfl⟩
  · obtain ⟨buf, root⟩ := up.root
    exact ⟨T_DIR, ⟨_, root, rfl⟩, rfl⟩
  · obtain ⟨x, live, mode⟩ := holds r member ino st named
    exact ⟨x.type, ⟨x, live, rfl⟩, mode.symm⟩

theorem Knows.kind {results : List (Request × Reply)} (up : Up E) (holds : ∀ r ∈ results, r.2.Holds E)
    (typed : type = T_FILE ∨ type = T_DIR ∨ type = T_SYMLINK) (knows : Knows results ino (modeOf type)) :
    Is E ino type := by
  obtain ⟨kind, is, mode⟩ := knows.is up holds
  rwa [← modeOf_injective (typed_of_is up is) typed mode]

theorem safe_handle (L : Libfuse) (memory : Nat → Entry) {results : List (Request × Reply)}
    {request : Request} (up : Up E) (holds : ∀ r ∈ results, r.2.Holds E) (sends : Sends results request) :
    Safe (Answers request) (handle L memory request) [] E := by
  have file : ∀ {ino}, Knows results ino fileMode → Is E ino T_FILE :=
    Knows.kind up holds (.inl rfl)
  have dir : ∀ {ino}, Knows results ino dirMode → Is E ino T_DIR :=
    Knows.kind up holds (.inr (.inl rfl))
  have link : ∀ {ino}, Knows results ino linkMode → Is E ino T_SYMLINK :=
    Knows.kind up holds (.inr (.inr rfl))
  cases request with
  | getattr ino =>
    obtain ⟨mode, knows⟩ := sends
    obtain ⟨type, is, -⟩ := knows.is up holds
    exact safe_fuseserverGetattr is up
  | setattr ino size toSet => exact safe_fuseserverSetattr (file sends.1) sends.2
  | read ino size off => exact safe_fuseserverRead (file sends.1) sends.2 size
  | write ino data off => exact safe_fuseserverWrite (file sends.1) sends.2
  | create parent name | mknod parent name =>
    have making : (TreeOp.create parent name (memory 0)).making =
      some ⟨parent, name, memory 0, T_FILE, []⟩ := rfl
    exact safe_replyMade (dir sends.1) (by simp) (.inl rfl) making sends.2
  | mkdir parent name =>
    have making : (TreeOp.mkdir parent name (memory 0)).making =
      some ⟨parent, name, memory 0, T_DIR, []⟩ := rfl
    exact safe_replyMade (dir sends.1) (.inl rfl) (.inr rfl) making sends.2
  | symlink target parent name =>
    exact safe_fuseserverSymlink (dir sends.1) (memory 0) sends.2.2.1 sends.2.2.2 sends.2.1
  | lookup parent name => exact safe_fuseserverLookup (dir sends) name
  | unlink parent name => exact sends.elim
  | readlink ino => exact safe_fuseserverReadlink (link sends)
  | readdir ino size off => exact safe_readdir_request (dir sends) L memory size off
  | «open» ino => exact answers_plain nofun nofun
  | statfs => exact answers_plain nofun nofun

theorem safe_serve {Cid : Type} (L : Libfuse) (results : List (Request × Reply)) (job : Job Cid)
    (up : Up E) (holds : ∀ r ∈ results, r.2.Holds E) (sends : Sends results job.request) :
    (extentCells.via Cid).Serves Up (Cells.Ends Up Leaky fun r E => r.2.Holds E) (serve L job) [] E := by
  have handled := safe_handle L job.memory up holds sends
  have replied := Cells.Serves.mono (fun _ _ _ answered => answered) handled
  exact Cells.Serves.via job.cid (Cells.Serves.bind replied)

end Handlers

theorem holds_stable (r : Request × Reply) (E E' : Extents) (holds : r.2.Holds E)
    (grows : Grows Extent.type E E') : r.2.Holds E' := by
  intro ino st named
  obtain ⟨x, live, mode⟩ := holds ino st named
  obtain ⟨y, found, same⟩ := grows ino x live
  exact ⟨y, found, by rw [same, mode]⟩

section Hosted

variable {Cid : Type} [DecidableEq Cid] {W W' : World Cid}

/-- How the extent client of the caller answers, while the inode table is not full. -/
def hosted : (c : Cid × Call) → World Cid → c.2.Reply → World Cid → Prop
  | (cid, .create type), W, r, W' => r.2 ≠ 0 ∧ served cid (.create type) W r W'
  | (cid, .get eid), W, r, W' => served cid (.get eid) W r W'
  | (cid, .put eid buf), W, r, W' => served cid (.put eid buf) W r W'
  | (cid, .getattr eid), W, r, W' => served cid (.getattr eid) W r W'
  | (cid, .remove eid), W, r, W' => served cid (.remove eid) W r W'

omit [DecidableEq Cid] in
/-- Nothing is remembered of any inum that is free, and no content is larger than a file can be. -/
structure Pristine (W : World Cid) : Prop where
  backs : Backs (fun _ => True) W (extents W)
  bounded : ∀ i x, extents W i = some x → x.bytes.length ≤ MAXSIZE

/-- An inum is free. -/
theorem hosted_create {ino : Nat} (range : 1 ≤ ino ∧ ino < INODE_NUM) (dead : W.server.files ino = none)
    (cid : Cid) (type : UInt32) : ∃ r W', hosted (cid, .create type) W r W' := by
  have alloc : W.server.files.Step (.alloc type ⟨0, 0, 0, 0, 0, fun _ => 0⟩ ⟨0, 0, 0⟩) (.inum ino) _ :=
    .alloc dead range
  exact ⟨(OK, ino), _, Nat.ne_of_gt range.1, ino, .create alloc, rfl⟩

/-- A client's extent client answers from the extents. -/
theorem hosted_roomy {c : Cid × Call} {r : c.2.Reply} (pristine : Pristine W) (stays : c.2.scope ≠ .wide)
    (possible : c.2.scope ≠ .fresh → ∃ r E, roomy c.2 (extents W) r E) (answered : hosted c W r W') :
    roomy c.2 (extents W) r (extents W') ∧ Pristine W' := by
  have settle : ∀ {E}, Backs (fun _ => True) W' E → roomy c.2 (extents W) r E →
      roomy c.2 (extents W) r (extents W') ∧ Pristine W' := by
    intro E backs above
    have same := backs.holds.extents_eq
    rw [← same] at backs above
    exact ⟨above, backs, roomy_bounded above pristine.bounded⟩
  obtain ⟨cid, c⟩ := c
  cases c with
  | get | getattr =>
    obtain ⟨E, above, after⟩ := (simulates cid _ _ _ pristine.backs (possible nofun)).2 r W' answered
    exact settle after above
  | put eid buf =>
    obtain ⟨r', E', fits, written⟩ := possible nofun
    have possible : ∃ r E, given (fun _ => True) (.put eid buf) (extents W) r E := ⟨r', E', written⟩
    obtain ⟨E, above, after⟩ := (simulates cid _ _ _ pristine.backs possible).2 r W' answered
    exact settle after ⟨fits, above⟩
  | create type =>
    obtain ⟨positive, eid, step, rfl⟩ := answered
    cases step with
    | create alloc =>
      cases alloc with
      | alloc dead range =>
        have missing := pristine.backs.holds.dead.mpr dead
        exact settle (pristine.backs.created trivial dead range.2)
          ⟨range.2, missing, range.2.trans (by decide), rfl, rfl⟩
      | full => exact absurd rfl positive
  | remove => exact absurd rfl stays

/-- And it has an answer where they have one. -/
theorem hosted_answer {c : Cid × Call} (pristine : Pristine W) (stays : c.2.scope ≠ .wide)
    (old : c.2.scope ≠ .fresh) (possible : ∃ r E, roomy c.2 (extents W) r E) : ∃ r W', hosted c W r W' := by
  obtain ⟨cid, c⟩ := c
  cases c with
  | get | getattr => exact (simulates cid _ _ _ pristine.backs possible).1
  | put =>
    obtain ⟨r, E, -, written⟩ := possible
    exact (simulates cid _ _ _ pristine.backs ⟨r, E, written⟩).1
  | create => exact absurd rfl old
  | remove => exact absurd rfl stays

end Hosted

/-- Clients at work on one file system, each with its handlers, its lock client and its extent
client. -/
abbrev Site (Cid Tid : Type) :=
  Lock.Cluster Nat Cid Tid (Cid × Call) (fun c => c.2.Reply) (Request × Reply) (Job Cid) (World Cid)

/-- Clients that do every operation at once on the extents. -/
abbrev Team (Cid Tid : Type) :=
  Crew Nat (Cid × Call) (fun c => c.2.Reply) (Request × Reply) (Cid × Tid) Extent

section Site

open Relation (ReflTransGen)
open Lock (Cluster)

variable {Cid Tid : Type} [LinearOrder Cid] [DecidableEq Tid] {L : Libfuse} {start : World Cid}
  {K K' : Site Cid Tid} {A : Team Cid Tid}

/-- The requests that may be started after these replies. -/
def Started (results : List (Request × Reply)) (job : Job Cid) : Prop := Sends results job.request

/-- One step of a site whose kernels send what they may send, each of them to its client. -/
def Traffic (L : Libfuse) (K K' : Site Cid Tid) : Prop :=
  Cluster.Proceeds (serve L) hosted Started K K' ∧
    ∀ i th, K.threads i = none → K'.threads i = some th → th.job.cid = i.1

/-- One step of clients that do every operation at once. -/
abbrev Turn (L : Libfuse) : Team Cid Tid → Team Cid Tid → Prop :=
  Crew.Step (serve L) (fun c => roomy c.2) Started

omit [LinearOrder Cid] in
/-- The extent service holds a file system in use, and remembers nothing of free inums. -/
structure Ready (W : World Cid) : Prop where
  pristine : Pristine W
  up : Up (extents W)

omit [LinearOrder Cid] in
theorem ready_boot (now : Clock) : Ready (World.boot now : World Cid) := by
  have holds : Holds (World.boot now : World Cid) emptyRoot := holds_boot now
  have same := holds.extents_eq
  refine ⟨⟨same ▸ ⟨holds, fun _ _ _ => ⟨rfl, nofun⟩⟩, fun i x => ?_⟩, same ▸ ⟨mounted_emptyRoot, [], rfl⟩⟩
  rw [same]
  exact emptyRoot_sane.fits emptyRoot_compact

/-- A client may start while the root is empty. -/
theorem Ready.joined {W W' : World Cid} {cid : Cid} {locks : Nat → Bool} (ready : Ready W)
    (empty : extents W 1 = some ⟨T_DIR, []⟩)
    (started : Solo (served cid) construct (fun _ => false) W () locks W') :
    Ready W' ∧ extents W' = extents W := by
  obtain ⟨-, same, after⟩ := ready.pristine.backs.joined empty started
  exact ⟨⟨⟨after, same ▸ ready.pristine.bounded⟩, same ▸ ready.up⟩, same⟩

/-- A site and the team it looks like. -/
structure Tracked (K : Site Cid Tid) (A : Team Cid Tid) (holder : Nat → Option (Cid × Tid))
    (own : Cid × Tid → List Nat) (view : Cid × Tid → Extents) : Prop where
  inv : K.Inv
  shows : K.Shows holder
  pristine : Pristine K.store
  covers : Pool.Covers (extentCells.via Cid) ((K.onto extents).pool holder) A own view
  held : ((K.onto extents).pool holder).Held Leaky own
  good : A.Good (extentCells.via Cid) Up Leaky fun r E => r.2.Holds E

theorem tracked_init (ready : Ready start) : Tracked (Cluster.init start : Site Cid Tid)
    (Crew.init (extents start)) (fun _ => none) (fun _ => []) fun _ => extents start where
  inv := .init start
  shows _ _ := iff_of_false nofun fun holds => nomatch holds.1
  pristine := ready.pristine
  covers := Pool.covers_init
  held := nofun
  good := Crew.good_init ready.up

section Tracked

variable {holder : Nat → Option (Cid × Tid)} {own : Cid × Tid → List Nat} {view : Cid × Tid → Extents}
  {i : Cid × Tid} {th : Thread Nat (Cid × Call) (fun c => c.2.Reply) (Request × Reply) (Job Cid)}
  (tracked : Tracked K A holder own view)
include tracked

/-- What a thread that calls its extent client may rely on. -/
theorem Tracked.calls {job : Job Cid} {c : Cid × Call} {next : c.2.Reply → Program Nat (Cid × Call) _ _}
    {n : Nat} (running : K.threads i = some ⟨job, .call c next, n⟩) : c.2.scope ≠ .wide ∧
      (c.2.scope ≠ .fresh → ∃ r E, roomy c.2 (extents K.store) r E) := by
  refine ⟨fun wide => ?_, fun old => tracked.covers.answered tracked.good running old⟩
  have allows := (tracked.covers.serves tracked.good running).2.1
  simp [Cells.Allows, Cells.via, extentCells, wide] at allows

/-- Every call gets an answer, while an inum is free. -/
theorem Tracked.answer {job : Job Cid} {c : Cid × Call} {next : c.2.Reply → Program Nat (Cid × Call) _ _}
    {n : Nat} (running : K.threads i = some ⟨job, .call c next, n⟩)
    (room : ∃ ino, (1 ≤ ino ∧ ino < INODE_NUM) ∧ K.store.server.files ino = none) :
    ∃ r W, hosted c K.store r W := by
  obtain ⟨cid, c⟩ := c
  obtain ⟨stays, possible⟩ := tracked.calls running
  by_cases fresh : c.scope = .fresh
  · cases c with
    | create type =>
      obtain ⟨ino, range, dead⟩ := room
      exact hosted_create range dead cid type
    | _ => cases fresh
  · exact hosted_answer tracked.pristine stays fresh (possible fresh)

theorem Tracked.step (step : Traffic L K K') :
    ∃ A' holder' own' view', ReflTransGen (Turn L) A A' ∧ Tracked K' A' holder' own' view' := by
  obtain ⟨above, pristine⟩ := step.1.1.onto (f := extents) tracked.pristine fun running answered =>
    hosted_roomy tracked.pristine (tracked.calls running).1 (tracked.calls running).2 answered
  have inv : (K.onto extents).Inv := ⟨tracked.inv.locks, tracked.inv.fits, tracked.inv.called⟩
  obtain ⟨-, holder', shows, steps⟩ := inv.run tracked.shows (.single ⟨above, step.1.2⟩)
  obtain ⟨A', own', view', turns, covers, good, held⟩ :=
    tracked.covers.run holds_stable
      (fun results job E up holds sends => safe_serve L results job up holds sends)
      tracked.good tracked.held steps
  exact ⟨A', holder', own', view', turns, tracked.inv.step step.1.1, shows, pristine, covers, held, good⟩

theorem Tracked.run (run : ReflTransGen (Traffic L) K K') :
    ∃ A' holder' own' view', ReflTransGen (Turn L) A A' ∧ Tracked K' A' holder' own' view' := by
  induction run with
  | refl => exact ⟨A, holder, own, view, .refl, tracked⟩
  | tail _ step ih =>
    obtain ⟨A₁, holder₁, own₁, view₁, turns, tracked₁⟩ := ih
    obtain ⟨A₂, holder₂, own₂, view₂, more, tracked₂⟩ := tracked₁.step step
    exact ⟨A₂, holder₂, own₂, view₂, turns.trans more, tracked₂⟩

/-- No handler comes to an `exit(0)` or an exception. -/
theorem Tracked.unaborted (running : K.threads i = some th) : th.rest ≠ .abort := by
  intro aborted
  have serves := tracked.covers.serves tracked.good running
  rw [aborted] at serves
  exact serves

variable (stalled : K.Stalled (serve L) hosted)
  (room : ∃ ino, (1 ≤ ino ∧ ino < INODE_NUM) ∧ K.store.server.files ino = none)
include stalled room

/-- Inside an operation there is always something to do, while an inum is free. -/
theorem Tracked.outside (i : Cid × Tid) : own i = [] := by
  by_contra busy
  obtain ⟨l, body, ⟨job, p, n⟩, -, running, calls, holds⟩ := tracked.covers.inside i busy
  have serves := tracked.covers.serves tracked.good running
  obtain ⟨made, head⟩ := calls.head
  rcases stalled.thread tracked.inv running with rfl | ⟨c, next, rfl, unanswered⟩ | ⟨k, rest, rfl, lost⟩ |
    ⟨k, rest, j, rfl, -⟩
  · exact serves
  · obtain ⟨r, W, answered⟩ := tracked.answer running room
    exact unanswered r W answered
  · have same : l = k := by simpa [head] using serves.1
    subst same
    exact lost ((tracked.shows l i).mp holds).1
  · exact busy serves.1

/-- Where nothing is left to do but new requests, every request has been answered. -/
theorem Tracked.idle (sound : ∀ r ∈ K.results, ¬ Leaky r.2) (i : Cid × Tid) : K.threads i = none := by
  by_contra busy
  obtain ⟨⟨job, p, n⟩, running⟩ := Option.ne_none_iff_exists'.mp busy
  have serves := tracked.covers.serves tracked.good running
  rw [tracked.outside stalled room i] at serves
  rcases stalled.thread tracked.inv running with rfl | ⟨c, next, rfl, -⟩ | ⟨k, rest, rfl, -⟩ |
    ⟨l, rest, j, rfl, holds⟩
  · exact serves
  · exact serves.1 rfl
  · cases serves.1
  · rcases tracked.held l j ((tracked.shows l j).mpr holds) with ⟨made, inside⟩ | ⟨r, member, leaky⟩
    · rw [tracked.outside stalled room j] at inside
      cases inside
    · obtain ⟨entry, there, rfl⟩ := List.mem_map.mp member
      exact sound entry there leaky

end Tracked

/-- What the clients see of a site is a team. -/
def Looks (K : Site Cid Tid) (A : Team Cid Tid) : Prop :=
  ∃ holder, K.Shows holder ∧ ((K.onto extents).pool holder).Looks A

/-- Clients that work at once, with the caching lock clients and the write-back caches between them,
might as well do one operation after the other. After every run there is such a team that has sent
the same replies, whose threads are where those of the site are or, inside an operation, before it,
and whose extents are those of the site when no operation is under way; its extents are a mounted
tree. And whatever the site does then, the team can go on to do. -/
theorem sections_atomic (ready : Ready start) (run : ReflTransGen (Traffic L) (Cluster.init start) K)
    (later : ReflTransGen (Traffic L) K K') :
    ∃ A, ReflTransGen (Turn L) (Crew.init (extents start)) A ∧ Looks K A ∧ Up A.store ∧
      ∃ A', ReflTransGen (Turn L) A A' ∧ Looks K' A' ∧ Up A'.store := by
  obtain ⟨A, holder, own, view, turns, tracked⟩ := (tracked_init ready).run run
  obtain ⟨A', holder', own', view', further, tracked'⟩ := tracked.run later
  exact ⟨A, turns, ⟨holder, tracked.shows, tracked.covers.looks⟩, tracked.good.store,
    A', further, ⟨holder', tracked'.shows, tracked'.covers.looks⟩, tracked'.good.store⟩

/-- At any time of any run no handler has come to an `exit(0)` or an exception, and every call to an
extent client has an answer while an inum is free. No content is larger than a file can be, and the
inodes that replies have named are there, with the modes they told. When no thread at work holds a
lock, the extents are those of a mounted tree. -/
theorem stays_up (ready : Ready start) (run : ReflTransGen (Traffic L) (Cluster.init start) K) :
    (∀ i th, K.threads i = some th → th.rest ≠ .abort) ∧
      (∀ i job c next n, K.threads i = some ⟨job, .call c next, n⟩ →
        (∃ ino, (1 ≤ ino ∧ ino < INODE_NUM) ∧ K.store.server.files ino = none) →
        ∃ r W, hosted c K.store r W) ∧
      (∀ i x, extents K.store i = some x → x.bytes.length ≤ MAXSIZE) ∧
      (∀ r ∈ K.results, r.2.2.Holds (extents K.store)) ∧
      ((∀ i th l, K.threads i = some th → ¬ K.Holds i l) → Up (extents K.store)) := by
  obtain ⟨A, holder, own, view, -, tracked⟩ := (tracked_init ready).run run
  refine ⟨fun i th running => tracked.unaborted running,
    fun i job c next n running room => tracked.answer running room, tracked.pristine.bounded,
    fun r member => ?_, fun quiet => ?_⟩
  · have told : r.2 ∈ A.results := by
      rw [tracked.covers.results]
      exact List.mem_map_of_mem member
    exact holds_stable r.2 _ _ (tracked.good.results _ told) tracked.covers.grows
  · have same : A = ((K.onto extents).pool holder).crew := tracked.covers.eq_crew fun i th l running holds =>
      quiet i th l running ((tracked.shows l i).mp holds)
    have store := tracked.good.store
    rwa [same] at store

theorem works_traffic (works : Cluster.Works (serve L) hosted K K') : Traffic L K K' := by
  have starts : ∀ i th, K.threads i = none → K'.threads i ≠ some th := by
    intro i th idle busy
    cases (works.2 i idle).symm.trans busy
  exact ⟨⟨works.1, fun i th idle busy => absurd busy (starts i th idle)⟩,
    fun i th idle busy => absurd busy (starts i th idle)⟩

theorem reachable_of_traffic (run : ReflTransGen (Traffic L) (Cluster.init start) K) :
    Cluster.Reachable (serve L) hosted start K := by
  induction run with
  | refl => exact .init
  | tail _ step ih => exact ih.step step.1.1

/-- Every request is answered. After any run the clients come to the end of their work unless new
requests keep coming; and there, every request has got its reply, if an inum was free and no
`read` came back empty. -/
theorem every_request_answered (ready : Ready start) (run : ReflTransGen (Traffic L) (Cluster.init start) K) :
    Acc (fun K' K => Cluster.Works (serve L) hosted K K') K ∧
      ∀ K', ReflTransGen (Cluster.Works (serve L) hosted) K K' →
        (∀ K'', ¬ Cluster.Works (serve L) hosted K' K'') →
        (∃ ino, (1 ≤ ino ∧ ino < INODE_NUM) ∧ K'.store.server.files ino = none) →
        (∀ r ∈ K'.results, ¬ Leaky r.2) → ∀ i, K'.threads i = none := by
  refine ⟨(reachable_of_traffic run).works_acc, fun K' further stuck room sound => ?_⟩
  have whole := run.trans (further.lift id fun _ _ works => works_traffic works)
  obtain ⟨A, holder, own, view, -, tracked⟩ := (tracked_init ready).run whole
  exact tracked.idle (Cluster.stalled_of_works stuck) room sound

end Site

section Crossing

open Relation (ReflTransGen)
open Lock (Cluster)

private def label : Component := ⟨[108], by decide, by decide, by decide, by decide⟩

/-- `mkdir` of the same name at two clients. -/
private def make (cid : Nat) : Job Nat := ⟨cid, fun _ _ => 0, .mkdir 1 label⟩

/-- Two clients have started on an extent server. -/
private theorem opened : ∃ W : World Nat, Ready W := by
  have boot : Ready (World.boot ⟨0, 0, 0⟩ : World Nat) := ready_boot _
  have empty : extents (World.boot ⟨0, 0, 0⟩ : World Nat) 1 = some ⟨T_DIR, []⟩ := by
    rw [(holds_boot _).extents_eq]
    rfl
  obtain ⟨locks, W, started⟩ := boot.pristine.backs.joins empty 0
  obtain ⟨first, same⟩ := boot.joined empty started
  rw [← same] at empty
  obtain ⟨locks, V, started⟩ := first.pristine.backs.joins empty 1
  exact ⟨V, (first.joined empty started).1⟩

variable {start : World Nat}

/-- A thread without a request may start one. -/
private theorem traffic_start {K : Site Nat Nat} {i : Nat × Nat}
    (run : ReflTransGen (Traffic .kernel) (Cluster.init start) K) (idle : K.threads i = none)
    (sends : Sends (K.results.map Prod.snd) (make i.1).request) :
    ReflTransGen (Traffic .kernel) (Cluster.init start)
      (K.setThread i (some ⟨make i.1, serve .kernel (make i.1), 0⟩)) := by
  have only : ∀ j th, K.threads j = none →
      (K.setThread i (some ⟨make i.1, serve .kernel (make i.1), 0⟩)).threads j = some th →
        j = i ∧ th.job = make i.1 := by
    intro j th none busy
    by_cases same : j = i
    · subst same
      cases (Function.update_self ..).symm.trans busy
      exact ⟨rfl, rfl⟩
    · cases none.symm.trans ((Function.update_of_ne same ..).symm.trans busy)
  refine run.tail ⟨⟨.start idle, fun j th none busy => ?_⟩, fun j th none busy => ?_⟩
  · obtain ⟨-, job⟩ := only j th none busy
    rw [Started, job]
    exact sends
  · obtain ⟨rfl, job⟩ := only j th none busy
    rw [job]
    rfl

/-- Two clients make the same directory: one is inside the operation, and one waits. -/
private theorem crossing (start : World Nat) : ∃ K : Site Nat Nat,
    ReflTransGen (Traffic .kernel) (Cluster.init start) K ∧ K.Holds (0, 0) 1 ∧
      K.calls (1, 0) = .acquire 1 := by
  have sends : ∀ i, Sends [] (make i).request := fun _ => ⟨.inl ⟨rfl, rfl⟩, by decide⟩
  have none : ReflTransGen (Traffic .kernel) (Cluster.init start) (Cluster.init start : Site Nat Nat) := .refl
  have first := traffic_start (i := (0, 0)) none rfl (sends 0)
  have second := traffic_start (i := (1, 0)) first rfl (sends 1)
  have asked := second.tail (works_traffic ⟨.acquire (i := (0, 0)) (l := 1) rfl rfl rfl, fun _ => id⟩)
  have handled := asked.tail (works_traffic ⟨.run (x := (0, 0)) (l := 1) rfl, fun _ => id⟩)
  have replied := handled.tail (works_traffic ⟨.run (x := (0, 0)) (l := 1) rfl, fun _ => id⟩)
  have granted := replied.tail
    (works_traffic ⟨.granted (i := (0, 0)) (l := 1) rfl rfl rfl, Cluster.idle_update rfl _⟩)
  have waits := granted.tail (works_traffic ⟨.acquire (i := (1, 0)) (l := 1) rfl rfl rfl, fun _ => id⟩)
  have free : Lock.LockCall.none ≠ .acquire 1 := by decide
  exact ⟨_, waits, ⟨rfl, free⟩, rfl⟩

theorem sections_atomic_crossing : ∃ (start : World Nat) (K : Site Nat Nat), K.Holds (0, 0) 1 ∧
    K.calls (1, 0) = .acquire 1 ∧
    ∃ A, ReflTransGen (Turn .kernel) (Crew.init (extents start)) A ∧ Looks K A ∧ Up A.store := by
  obtain ⟨start, ready⟩ := opened
  obtain ⟨K, run, holds, waits⟩ := crossing start
  obtain ⟨A, turns, looks, up, -⟩ := sections_atomic ready run .refl
  exact ⟨start, K, holds, waits, A, turns, looks, up⟩

theorem stays_up_crossing : ∃ K : Site Nat Nat, K.Holds (0, 0) 1 ∧ K.calls (1, 0) = .acquire 1 ∧
    ∀ i th, K.threads i = some th → th.rest ≠ .abort := by
  obtain ⟨start, ready⟩ := opened
  obtain ⟨K, run, holds, waits⟩ := crossing start
  exact ⟨K, holds, waits, (stays_up ready run).1⟩

theorem every_request_answered_crossing : ∃ K : Site Nat Nat, K.Holds (0, 0) 1 ∧ K.calls (1, 0) = .acquire 1 ∧
    Acc (fun K' K => Cluster.Works (serve .kernel) hosted K K') K := by
  obtain ⟨start, ready⟩ := opened
  obtain ⟨K, run, holds, waits⟩ := crossing start
  exact ⟨K, holds, waits, (every_request_answered ready run).1⟩

end Crossing

end Fuse

end Yfs.Client
