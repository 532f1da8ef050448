import Yfs.Client.Exhaustion
import Yfs.Client.Mount
import Yfs.Lib.Solo

/-! The extent service as the operations of a client see it. As long as no inum is given out that
the service still remembers, the caches of all clients and the server answer as coherent extents
do. -/

namespace Yfs.Extent

open Yfs.Store

variable {Cid : Type}

namespace View

/-- An id without an owner in `owner_map`, of which no client trusts any attributes. -/
def Forgotten (v : View Cid) : Prop := v.owner = none ∧ ∀ cid a, v.info cid ≠ some ⟨.own, a⟩

/-- An id without a file, whose content no client has. -/
def Gone (v : View Cid) : Prop := v.file = none ∧ ∀ cid b, v.data cid ≠ some ⟨.own, b⟩

section Removed

variable [DecidableEq Cid] {type : UInt32} {sized : UInt32 → Prop} {bytes : List UInt8} {v v' : View Cid}

/-- A `remove` of an intact extent returns. -/
theorem Intact.removes (intact : Intact type sized bytes v) : ∃ v', Removed v v' := by
  obtain ⟨f, live, -⟩ := intact.file
  rcases owner : v.owner with _ | o
  · exact ⟨_, .unowned owner (by simp [live])⟩
  · obtain ⟨cached, a, described⟩ := intact.owner o owner
    exact ⟨_, .owned owner cached described (by simp [live])⟩

/-- The owner of a removed extent gives its content up. -/
theorem Intact.removed (intact : Intact type sized bytes v) (removed : Removed v v') : v'.Gone := by
  cases removed with
  | unowned free live =>
    refine ⟨rfl, fun c b own => ?_⟩
    cases free.symm.trans (intact.owned c b own)
  | @owned o cache i owner cached known live =>
    refine ⟨rfl, fun c b own => ?_⟩
    by_cases same : c = o
    · simp [same] at own
    · have owned := intact.owned c b (by simpa [same] using own)
      cases owner.symm.trans owned
      exact same rfl

end Removed

/-- A new file under an id of which nothing is remembered. -/
theorem Gone.created {v : View Cid} (gone : v.Gone) (forgotten : v.Forgotten) (type : UInt32) (now : Clock) :
    Intact type (fun _ => True) [] (v.setFile (some (.new type now))) where
  file := ⟨_, rfl, rfl, fun _ => rfl⟩
  owner o owned := by cases forgotten.1.symm.trans owned
  owned c b own := absurd own (gone.2 c b)
  known c a known := absurd known (forgotten.2 c a)

end View

/-- An inum that is free and of which nothing is remembered. -/
structure World.Unused (W : World Cid) (id : Nat) : Prop where
  range : 1 ≤ id ∧ id < INODE_NUM
  dead : W.server.files id = none
  forgotten : (W.view id).Forgotten

end Yfs.Extent

namespace Yfs.Client

open Yfs.Lib Program
open Yfs.Store (T_FILE T_DIR T_SYMLINK INODE_NUM Attr Clock FileTable)
open Yfs.Extent (World View Env mask)

variable {Cid : Type}

/-- The extents of a state of the extent service, wherever their contents are. -/
def extents (W : World Cid) : Extents := fun id => (W.type id).map fun type => ⟨type, W.content id⟩

/-- A state of the extent service holds some extents: each one has the content and the type that
`owner_map`, the files and the caches agree on, and of any other id there is no content left. -/
def Holds (W : World Cid) (E : Extents) : Prop :=
  ∀ id, match E id with
    | some x => id < INODE_NUM ∧ View.Intact x.type (fun _ => True) x.bytes (W.view id)
    | none => (W.view id).Gone

namespace Holds

variable {W : World Cid} {E : Extents} {id : Nat} {x : Extent}

theorem live (holds : Holds W E) (found : E id = some x) :
    id < INODE_NUM ∧ View.Intact x.type (fun _ => True) x.bytes (W.view id) := by
  simpa [found] using holds id

theorem gone (holds : Holds W E) (missing : E id = none) : (W.view id).Gone := by
  simpa [missing] using holds id

theorem masked (holds : Holds W E) (found : E id = some x) : mask id = id :=
  World.mask_of_lt (holds.live found).1

/-- Extents without a file are not there. -/
theorem dead (holds : Holds W E) : E id = none ↔ W.server.files id = none := by
  constructor
  · exact fun missing => (holds.gone missing).1
  · intro missing
    rcases found : E id with _ | x
    · rfl
    · obtain ⟨f, there, -⟩ := (holds.live found).2.file
      cases missing.symm.trans there

/-- The service holds nothing but its own extents. -/
theorem extents_eq (holds : Holds W E) : extents W = E := by
  funext id
  rcases found : E id with _ | x
  · simp [extents, World.type, holds.dead.mp found]
  · have intact := (holds.live found).2
    obtain ⟨f, there, typed, -⟩ := intact.file
    have live : W.server.files id = some f := there
    simp [extents, World.type, live, typed, World.content_of_intact intact]

/-- What is kept for one id has changed. -/
theorem setView {v : View Cid} {y : Option Extent} (holds : Holds W E)
    (here : match y with
      | some x => id < INODE_NUM ∧ View.Intact x.type (fun _ => True) x.bytes v
      | none => v.Gone) : Holds (W.setView id v) (Function.update E id y) := by
  intro k
  by_cases same : k = id
  · subst same
    simpa using here
  · rw [Function.update_of_ne same, World.view_setView_ne _ _ _ same]
    exact holds k

end Holds

theorem holds_boot (now : Clock) : Holds (World.boot now : World Cid) emptyRoot := by
  intro id
  by_cases root : id = 1
  · subst root
    exact ⟨by decide, ⟨_, rfl, rfl, fun _ => rfl⟩, nofun, nofun, nofun⟩
  · simp [emptyRoot, root, World.view, World.boot, View.Gone]

variable [DecidableEq Cid]

/-- How the extent client of `cid` answers, with inums that `alloc_inode` takes from `spare`; it
returns 0 when there is none. -/
def servedFrom (spare : Nat → Prop) (cid : Cid) : (c : Call) → World Cid → c.Reply → World Cid → Prop
  | .get eid, W, r, W' => served cid (.get eid) W r W'
  | .put eid buf, W, r, W' => served cid (.put eid buf) W r W'
  | .getattr eid, W, r, W' => served cid (.getattr eid) W r W'
  | .create type, W, r, W' => (r.2 ≠ 0 → spare r.2) ∧ served cid (.create type) W r W'
  | .remove eid, W, r, W' => served cid (.remove eid) W r W'

/-- The service holds the extents, and it remembers nothing of the inums of `spare` that are
free. -/
structure Backs (spare : Nat → Prop) (W : World Cid) (E : Extents) : Prop where
  holds : Holds W E
  forgotten : ∀ id, spare id → E id = none → (W.view id).Forgotten

section Simulation

variable {W : World Cid} {E : Extents} {spare : Nat → Prop} {id : Nat}

omit [DecidableEq Cid] in
/-- What is kept for one id changes, and no inum of `spare` gets free. -/
theorem Backs.change {y : Option Extent} {v : View Cid} (backs : Backs spare W E)
    (here : match y with
      | some x => id < INODE_NUM ∧ View.Intact x.type (fun _ => True) x.bytes v
      | none => v.Gone) (kept : y = none → ¬ spare id) :
    Backs spare (W.setView id v) (Function.update E id y) := by
  refine ⟨backs.holds.setView here, fun k free dead => ?_⟩
  have apart : k ≠ id := by
    rintro rfl
    rw [Function.update_self] at dead
    exact kept dead free
  rw [Function.update_of_ne apart] at dead
  rw [World.view_setView_ne _ _ _ apart]
  exact backs.forgotten k free dead

omit [DecidableEq Cid] in
/-- What is kept for a live extent has changed. -/
theorem Backs.setView {x y : Extent} {v : View Cid} (backs : Backs spare W E) (found : E id = some x)
    (intact : View.Intact y.type (fun _ => True) y.bytes v) :
    Backs spare (W.setView id v) (Function.update E id (some y)) :=
  backs.change (y := some y) ⟨(backs.holds.live found).1, intact⟩ (by simp)

omit [DecidableEq Cid] in
/-- The same extents, with another view of one of them. -/
theorem Backs.review {x : Extent} {v : View Cid} (backs : Backs spare W E) (found : E id = some x)
    (intact : View.Intact x.type (fun _ => True) x.bytes v) : Backs spare (W.setView id v) E := by
  simpa [← found] using backs.setView found intact

omit [DecidableEq Cid] in
theorem Backs.created {type : UInt32} {now : Clock} (backs : Backs spare W E) (free : spare id)
    (dead : W.server.files id = none) (small : id < INODE_NUM) :
    Backs spare (W.setFiles (Function.update W.server.files id (some (.new type now))))
      (Function.update E id (some ⟨type, []⟩)) := by
  have missing := backs.holds.dead.mpr dead
  have new := (backs.holds.gone missing).created (backs.forgotten id free missing) type now
  rw [World.setFiles_eq]
  exact backs.change (y := some ⟨type, []⟩) ⟨small, new⟩ (by simp)

/-- The caches and the server answer as the extents do. -/
theorem simulates (cid : Cid) : Simulates (servedFrom spare cid) (given spare) (Backs spare) := by
  intro c W E backs possible
  have holds := backs.holds
  cases c with
  | get id =>
    obtain ⟨_, _, x, found, -, -⟩ := possible
    have masked := holds.masked found
    have intact := (holds.live found).2
    constructor
    · obtain ⟨v, got⟩ := intact.gets .still cid id
      exact ⟨_, _, (served_get masked).mpr ⟨.still, _, v, got, rfl, rfl⟩⟩
    · rintro _ _ answered
      obtain ⟨env, buf, v, got, rfl, rfl⟩ := (served_get masked).mp answered
      obtain ⟨rfl, after⟩ := intact.got trivial got
      exact ⟨E, ⟨x, found, rfl, rfl⟩, backs.review found after⟩
  | put id buf =>
    obtain ⟨_, _, x, found, -, -⟩ := possible
    have masked := holds.masked found
    have intact := (holds.live found).2
    constructor
    · obtain ⟨v, put⟩ := intact.puts .still cid buf
      exact ⟨_, _, .still, (Yfs.Extent.returns_put_iff masked).mpr ⟨v, put, rfl⟩, rfl⟩
    · rintro _ _ ⟨env, ran, rfl⟩
      obtain ⟨v, put, rfl⟩ := (Yfs.Extent.returns_put_iff masked).mp ran
      have after : View.Intact x.type (fun _ => True) buf v :=
        intact.put trivial trivial (fun _ _ _ _ _ => trivial) put
      exact ⟨_, ⟨x, found, rfl, rfl⟩, backs.setView (y := { x with bytes := buf }) found after⟩
  | getattr id =>
    obtain ⟨_, _, x, found, -, -⟩ := possible
    have masked := holds.masked found
    have intact := (holds.live found).2
    constructor
    · obtain ⟨a, v, asked⟩ := intact.asks Env.still.memory cid
      exact ⟨_, _, (served_getattr masked).mpr ⟨.still, a, v, asked, rfl, rfl⟩⟩
    · rintro _ _ answered
      obtain ⟨env, a, v, asked, rfl, rfl⟩ := (served_getattr masked).mp answered
      obtain ⟨right, after⟩ := intact.asked trivial asked
      exact ⟨E, ⟨x, found, rfl, right.1, rfl⟩, backs.review found after⟩
  | create type =>
    have full_of : (∀ i, 1 ≤ i → i < INODE_NUM → W.server.files i ≠ none) ↔ Full E :=
      forall_congr' fun i => imp_congr_right fun _ => imp_congr_right fun _ => holds.dead.not.symm
    constructor
    · obtain ⟨⟨_, i⟩, _, free, -, ⟨low, high, dead, -⟩ | ⟨full, -, -⟩⟩ := possible
      · have alloc : W.server.files.Step (.alloc type ⟨0, 0, 0, 0, 0, fun _ => 0⟩ ⟨0, 0, 0⟩) (.inum i) _ :=
          .alloc (holds.dead.mp dead) ⟨low, high⟩
        exact ⟨(OK, i), _, free, i, .create alloc, rfl⟩
      · have alloc : W.server.files.Step (.alloc type ⟨0, 0, 0, 0, 0, fun _ => 0⟩ ⟨0, 0, 0⟩) (.inum 0)
          W.server.files := .full (full_of.mpr full)
        exact ⟨(OK, 0), _, fun positive => absurd rfl positive, 0, .create alloc, rfl⟩
    · rintro _ _ ⟨free, eid, step, rfl⟩
      cases step with
      | create alloc =>
        cases alloc with
        | alloc dead bounds =>
          have spares := free (Nat.ne_of_gt bounds.1)
          exact ⟨_, ⟨free, rfl, .inl ⟨bounds.1, bounds.2, holds.dead.mpr dead, rfl⟩⟩,
            backs.created spares dead bounds.2⟩
        | full live => exact ⟨E, ⟨free, rfl, .inr ⟨full_of.mp live, rfl, rfl⟩⟩, backs⟩
  | remove id =>
    obtain ⟨_, _, ⟨there, kept⟩, -⟩ := possible
    obtain ⟨x, found⟩ := Option.ne_none_iff_exists'.mp there
    have masked := holds.masked found
    have intact := (holds.live found).2
    have same : W.view (mask id) = W.view id := by rw [masked]
    constructor
    · obtain ⟨v, removed⟩ := intact.removes
      exact ⟨OK, _, Yfs.Extent.returns_remove.mpr ⟨v, same ▸ removed, rfl⟩, rfl⟩
    · rintro _ _ ⟨ran, rfl⟩
      obtain ⟨v, removed, rfl⟩ := Yfs.Extent.returns_remove.mp ran
      rw [same] at removed
      rw [masked]
      have after : Backs spare (W.setView id v) (Function.update E id none) :=
        backs.change (y := none) (intact.removed removed) fun _ => kept
      exact ⟨_, ⟨⟨there, kept⟩, rfl, rfl⟩, after⟩

/-- The inums that are given out may be fewer. -/
theorem servedFrom_mono {wider : Nat → Prop} (more : ∀ id, spare id → wider id) (cid : Cid) (c : Call)
    (W : World Cid) (r : c.Reply) (W' : World Cid) (answered : servedFrom spare cid c W r W') :
    servedFrom wider cid c W r W' := by
  cases c with
  | create => exact ⟨fun positive => more _ (answered.1 positive), answered.2⟩
  | get | put | getattr | remove => exact answered

theorem served_of_servedFrom (cid : Cid) (c : Call) (W : World Cid) (r : c.Reply) (W' : World Cid)
    (answered : servedFrom spare cid c W r W') : served cid c W r W' := by
  cases c with
  | create => exact answered.2
  | get | put | getattr | remove => exact answered

omit [DecidableEq Cid] in
theorem Holds.backs (holds : Holds W E) (unused : ∀ id, spare id → W.Unused id) : Backs spare W E :=
  ⟨holds, fun id free _ => (unused id free).forgotten⟩

omit [DecidableEq Cid] in
theorem Holds.unremembered (holds : Holds W E) : Backs W.Unused W E := holds.backs fun _ => id

omit [DecidableEq Cid] in
theorem Holds.free (holds : Holds W E) (unused : W.Unused id) : E id = none := holds.dead.mpr unused.dead

omit [DecidableEq Cid] in
/-- What is unused stays so until it is given out. -/
theorem Backs.unused {V : World Cid} (backs : Backs V.Unused W E) (before : V.Unused id)
    (dead : E id = none) : W.Unused id :=
  ⟨before.range, backs.holds.dead.mp dead, backs.forgotten id before dead⟩

end Simulation

end Yfs.Client
