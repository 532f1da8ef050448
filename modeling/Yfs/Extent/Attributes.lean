import Yfs.Extent.Intact
import Yfs.Extent.Runs

/-! The attributes that clients are told while nothing is removed. The type is always
right; a `put` of another length is missed by every client that has looked the extent up
and does not own it. -/

namespace Yfs.Extent

open Yfs.Lib Yfs.Store

variable {Cid : Type}

/-- The type an extent had at the start or was given by `create`. -/
def born (start : World Cid) : List (Event Cid) → Nat → Option UInt32
  | [], id => start.type id
  | e :: log, id =>
    match e.call, e.answer with
    | .create type, .id eid => if eid = id ∧ eid ≠ 0 then some type else born start log id
    | _, _ => born start log id

/-- `P` holds of every state of a run, with the log that leads to it. -/
def Throughout (P : List (Event Cid) → World Cid → Prop) : List (Event Cid) → World Cid → Prop
  | [], W => P [] W
  | e :: log, W => P (e :: log) W ∧ Throughout P log e.before

/-- A `put` has a length that fits in the attributes. It keeps the length of the extent,
or nobody but the client itself and the owner trusts attributes of it. -/
def Event.Suits (e : Event Cid) : Prop :=
  match e.call with
  | .request (.put eid buf) => buf.length < 2 ^ 32 ∧
    (buf.length = (e.before.content eid).length ∨
      ∀ c a, c ≠ e.cid → (e.before.clients c).metadataMap eid = some ⟨.own, a⟩ →
        e.before.server.ownerMap eid = some c)
  | _ => True

variable [DecidableEq Cid]

/-- Whatever client asks, `getattr` reports the type and the length that a `get` of any
client would return. -/
def World.Attests (W : World Cid) (id : Nat) (type : UInt32) : Prop :=
  ∀ env c a W₁, Act.Returns (Client.getattr env c id) W a W₁ → a.type = type ∧
    ∀ env' d buf W₂, Act.Returns (Client.get env' d id) W buf W₂ → a.size.toNat = buf.length

/-- The attributes of every extent are right. -/
def World.Attested (start : World Cid) (log : List (Event Cid)) (W : World Cid) : Prop :=
  ∀ id type, born start log id = some type → W.Attests id type

namespace View

variable {v v' : View Cid} {cid c : Cid} {k : Nat} {env : Env} {type : UInt32} {bytes buf : List UInt8}

omit [DecidableEq Cid] in
/-- Nothing is kept for an id. -/
def nothing : View Cid := ⟨none, none, fun _ => none, fun _ => none⟩

omit [DecidableEq Cid] in
/-- What is kept for an id whose extent was given a type, or for an id that was not
given out. -/
def Records (v : View Cid) : Option UInt32 → Prop
  | none => v = nothing
  | some type => ∃ bytes, bytes.length < 2 ^ 32 ∧ Intact type (·.toNat = bytes.length) bytes v

theorem toNat_length (small : bytes.length < 2 ^ 32) :
    (UInt32.ofNat bytes.length).toNat = bytes.length := UInt32.toNat_ofNat_of_lt' small

omit [DecidableEq Cid] in
theorem intact_new (type : UInt32) (now : Clock) :
    Intact type (·.toNat = ([] : List UInt8).length) []
      ((nothing : View Cid).setFile (some (.new type now))) where
  file := ⟨_, rfl, rfl, fun _ => rfl⟩
  owner := nofun
  owned := nofun
  known := nofun

theorem filled_size {i : MetadataCache} (described : (filled env cid v buf).info cid = some i) :
    i.metadata.size = .ofNat buf.length := by
  have written : resized env buf (v.noted env.memory cid) = i := by simpa [filled] using described
  rw [← written]
  rfl

/-- The size in the cache of the client that has put. -/
theorem Put.size {i : MetadataCache} (put : Put env cid v buf v') (described : v'.info cid = some i) :
    i.metadata.size = .ofNat buf.length := by
  cases put with
  | owned => exact filled_size described
  | fetched => exact filled_size described

theorem Put.own (put : Put env cid v buf v') : v'.data cid = some ⟨.own, buf⟩ := by
  cases put with
  | owned => simp [filled]
  | fetched => simp [filled]

/-- A `put` leaves the attributes alone that a client trusts without owning the extent. -/
theorem Put.info_other (put : Put env cid v buf v') (other : c ≠ cid) (apart : v.owner ≠ some c) :
    v'.info c = v.info c := by
  cases put with
  | owned own => simp [filled, other]
  | fetched stale fetched =>
    cases fetched with
    | fresh => simp [filled, other]
    | @taken o _ i f a owner =>
      have before : c ≠ o := by
        rintro rfl
        exact apart owner
      simp [filled, other, before]

end View

namespace World

variable {start W W' : World Cid} {log : List (Event Cid)} {id : Nat} {type : UInt32} {cid : Cid}
  {bytes : List UInt8} {sized : UInt32 → Prop}

/-- Everything that is kept is what the log says. -/
def Recorded (start : World Cid) (log : List (Event Cid)) (W : World Cid) : Prop :=
  ∀ id, mask id = id → (W.view id).Records (born start log id)

omit [DecidableEq Cid] in
theorem Initial.recorded (initial : start.Initial)
    (short : ∀ id f, start.server.files id = some f → f.bytes.length < 2 ^ 32) :
    Recorded start [] start := by
  intro id _
  have data : (start.view id).data = fun _ => none := funext fun c => initial.dataMap c id
  have info : (start.view id).info = fun _ => none := funext fun c => initial.metadataMap c id
  have owner : (start.view id).owner = none := initial.ownerMap id
  rcases found : start.server.files id with _ | f
  · have missing : (start.view id).file = none := found
    simp only [born, type, found, Option.map_none]
    exact View.ext missing owner data info
  · have live : (start.view id).file = some f := found
    simp only [born, type, found, Option.map_some]
    refine ⟨f.bytes, short id f found, ⟨f, live, rfl, fun _ => rfl⟩, ?_, ?_, ?_⟩
    · intro o owned
      simp [owner] at owned
    · intro c b own
      simp [data] at own
    · intro c a known
      simp [info] at known

omit [DecidableEq Cid] in
/-- What an id that is in use has got. -/
theorem Recorded.intact (recorded : Recorded start log W) (masked : mask id = id)
    (live : W.server.files id ≠ none) : ∃ type bytes, born start log id = some type ∧
      bytes.length < 2 ^ 32 ∧ View.Intact type (·.toNat = bytes.length) bytes (W.view id) := by
  have records := recorded id masked
  rcases given : born start log id with _ | type
  · rw [given] at records
    have missing : (W.view id).file = none := by rw [records]; rfl
    exact absurd missing live
  · rw [given] at records
    obtain ⟨bytes, small, intact⟩ := records
    exact ⟨type, bytes, rfl, small, intact⟩

omit [DecidableEq Cid] in
theorem calm_live {r : Request} (calm : r.Calm W) : W.server.files r.eid ≠ none := by
  cases r with
  | remove => exact calm.elim
  | _ => exact calm

omit [DecidableEq Cid] in
/-- A call other than `create` gives no type. -/
theorem born_request (r : Request) (answer : Answer) :
    born start (⟨W, cid, .request r, answer⟩ :: log) = born start log := rfl

theorem Recorded.step {call : Call} {answer : Answer} (recorded : Recorded start log W)
    (small : ∀ id, W.server.files id ≠ none → mask id = id) (step : W.Step cid call answer W')
    (calm : Event.Calm ⟨W, cid, call, answer⟩) (suits : Event.Suits ⟨W, cid, call, answer⟩) :
    Recorded start (⟨W, cid, call, answer⟩ :: log) W' := by
  intro k masked
  have records := recorded k masked
  have move := step.move masked
  generalize W'.view k = v' at move ⊢
  cases move with
  | @created type _ now dead found =>
    have unused : W.view k = View.nothing := by
      rcases given : born start log k with _ | old
      · rwa [given] at records
      · rw [given] at records
        obtain ⟨bytes, -, intact⟩ := records
        obtain ⟨f, live, -⟩ := intact.file
        simp [dead] at live
    rw [unused]
    simp only [born, found, ne_eq, not_false_eq_true, and_self, if_true]
    exact ⟨[], by simp, View.intact_new type now⟩
  | other apart =>
    have same := not_and_or.mpr (apart.imp id Decidable.not_not.mpr)
    simpa only [born, if_neg same] using records
  | got got =>
    obtain ⟨type, bytes, given, short, intact⟩ := recorded.intact masked calm
    rw [born_request, given]
    exact ⟨bytes, short, (intact.got (View.toNat_length short) got).2⟩
  | put put =>
    obtain ⟨type, bytes, given, short, intact⟩ := recorded.intact masked calm
    obtain ⟨fits, others⟩ := suits
    rw [born_request, given]
    refine ⟨_, fits, intact.put (View.toNat_length short) (View.toNat_length fits) ?_ put⟩
    intro c a other known apart
    rcases others with equal | owners
    · rw [equal, content_of_intact intact]
      exact (intact.known c a known).2
    · exact absurd (owners c a other known) apart
  | asked asked =>
    obtain ⟨type, bytes, given, short, intact⟩ := recorded.intact masked calm
    rw [born_request, given]
    exact ⟨bytes, short, (intact.asked (View.toNat_length short) asked).2⟩
  | removed => exact calm.elim
  | aliased same other =>
    exact absurd ((small _ (calm_live calm)).symm.trans same) other
  | idle => exact records

theorem Run.recorded (initial : start.Initial)
    (short : ∀ id f, start.server.files id = some f → f.bytes.length < 2 ^ 32) (run : start.Run log W)
    (calm : ∀ e ∈ log, e.Calm) (suits : ∀ e ∈ log, e.Suits) : Recorded start log W := by
  induction run with
  | nil => exact initial.recorded short
  | cons run step ih =>
    rw [List.forall_mem_cons] at calm suits
    have small := (run.tracks initial calm.2).small
    exact (ih calm.2 suits.2).step (fun id live => mask_of_lt (small id live)) step calm.1 suits.1

theorem Run.born_small (initial : start.Initial) (run : start.Run log W)
    (given : born start log id = some type) : id < INODE_NUM := by
  induction run with
  | nil =>
    have live : start.server.files id ≠ none := by
      intro missing
      simp [born, World.type, missing] at given
    exact initial.files id live
  | cons run step ih =>
    cases step with
    | request => exact ih given
    | create alloc =>
      simp only [born] at given
      split at given
      · rename_i made
        rcases FileTable.alloc_cases alloc with ⟨zero, _⟩ | ⟨_, small, _⟩
        · exact absurd zero made.2
        · rw [← made.1]
          exact small
      · exact ih given

/-- Where everything is kept as the log says, all attributes are right. -/
theorem Recorded.attests (recorded : Recorded start log W) (masked : mask id = id)
    (given : born start log id = some type) : W.Attests id type := by
  have records := recorded id masked
  rw [given] at records
  obtain ⟨bytes, short, intact⟩ := records
  have fits := View.toNat_length short
  intro env c a W₁ asked
  obtain ⟨_, answered, -⟩ := (returns_getattr_iff masked).mp asked
  obtain ⟨⟨typed, sized⟩, -⟩ := intact.asked fits answered
  refine ⟨typed, ?_⟩
  intro env' d buf W₂ got
  obtain ⟨_, returned, -⟩ := (returns_get_iff masked).mp got
  rw [(intact.got fits returned).1]
  exact sized

/-- After a `put` that does not suit, a client is told a wrong size. -/
theorem Recorded.suits {call : Call} {answer : Answer} (recorded : Recorded start log W)
    (small : ∀ id, W.server.files id ≠ none → mask id = id) (step : W.Step cid call answer W')
    (calm : Event.Calm ⟨W, cid, call, answer⟩)
    (attested : Attested start (⟨W, cid, call, answer⟩ :: log) W') :
    Event.Suits ⟨W, cid, call, answer⟩ := by
  rcases call with _ | _ | ⟨eid, buf⟩ | _ | _
  case request.put =>
    have masked := small eid calm
    obtain ⟨type, bytes, given, short, intact⟩ := recorded.intact masked calm
    have attests := attested eid type given
    have move := step.move masked
    generalize seen : W'.view eid = v' at move
    cases move with
    | put put =>
      have after : View.Intact type (fun _ => True) buf v' :=
        intact.put (View.toNat_length short) trivial (fun _ _ _ _ _ => trivial) put
      have told : ∀ c a, v'.info c = some ⟨.own, a⟩ → a.size.toNat = buf.length := by
        intro c a known
        obtain ⟨_, got⟩ := after.gets .still cid eid
        refine (attests .still c a W' (returns_getattr.mpr (.inl ⟨seen ▸ known, rfl⟩))).2 .still cid buf _
          ((returns_get_iff masked).mpr ⟨_, seen ▸ got, rfl⟩)
      obtain ⟨-, a, described⟩ := after.owner cid (after.owned cid buf put.own)
      constructor
      · rw [← told cid a described]
        exact a.size.toNat_lt
      · by_cases trusted : ∀ c a, c ≠ cid → (W.clients c).metadataMap eid = some ⟨.own, a⟩ →
            W.server.ownerMap eid = some c
        · exact .inr trusted
        · simp only [not_forall] at trusted
          obtain ⟨c, b, other, known, apart⟩ := trusted
          have stays := put.info_other other apart
          left
          rw [← told c b (stays.trans known), content_of_intact intact]
          exact (intact.known c b known).2
    | aliased _ other => exact absurd rfl other
    | idle apart => exact absurd rfl apart
  all_goals trivial

/-- Without removals every client is told the type and the length of every extent, in
every state of a run, if and only if every `put` fits and changes no length behind the
back of a client that trusts its attributes. -/
theorem Run.attested_iff_suits (initial : start.Initial)
    (short : ∀ id f, start.server.files id = some f → f.bytes.length < 2 ^ 32) (run : start.Run log W)
    (calm : ∀ e ∈ log, e.Calm) : Throughout (Attested start) log W ↔ ∀ e ∈ log, e.Suits := by
  have attested : ∀ {log W}, start.Run log W → (∀ e ∈ log, e.Calm) → (∀ e ∈ log, e.Suits) →
      Attested start log W := by
    intro log W run calm suits id type given
    exact (run.recorded initial short calm suits).attests (mask_of_lt (run.born_small initial given)) given
  induction run with
  | nil => simpa [Throughout] using attested .nil (by simp) (by simp)
  | cons run step ih =>
    rw [List.forall_mem_cons]
    have earlier := ih (List.forall_mem_cons.mp calm).2
    have small := (run.tracks initial (List.forall_mem_cons.mp calm).2).small
    constructor
    · rintro ⟨now, before⟩
      have suits := earlier.mp before
      have recorded := run.recorded initial short (List.forall_mem_cons.mp calm).2 suits
      exact ⟨recorded.suits (fun id live => mask_of_lt (small id live)) step
        (List.forall_mem_cons.mp calm).1 now, suits⟩
    · rintro ⟨now, suits⟩
      exact ⟨attested (.cons run step) calm (List.forall_mem_cons.mpr ⟨now, suits⟩), earlier.mpr suits⟩

private def sunrise : World Nat := boot ⟨0, 0, 0⟩

private theorem sunrise_short (id : Nat) (f : File) (live : sunrise.server.files id = some f) :
    f.bytes.length < 2 ^ 32 := by
  by_cases root : id = 1
  · subst root
    cases live
    decide
  · simp [sunrise, boot, root] at live

/-- Client 0 writes the root. -/
private def inked : World Nat := sunrise.next .still 0 (.put 1 [7])

theorem Run.attested_iff_suits_put :
    Throughout (Attested sunrise) [⟨sunrise, 0, .request (.put 1 [7]), .done⟩] inked := by
  let e : Event Nat := ⟨sunrise, 0, .request (.put 1 [7]), .done⟩
  have put : ((Request.put 1 [7]).run .still 0 sunrise).2 = .ok (.done, inked) := rfl
  have calm : e.Calm := Option.some_ne_none _
  have suits : e.Suits := ⟨by decide, .inr nofun⟩
  exact (Run.attested_iff_suits (boot_initial _) sunrise_short (.cons .nil (.request put))
    (List.forall_mem_singleton.mpr calm)).mpr (List.forall_mem_singleton.mpr suits)

/-- Client 1 asks for the attributes of the root before client 0 writes it, and is told
the old size afterwards. -/
private def asked : World Nat := sunrise.next .still 1 (.getattr 1)

private def overwritten : World Nat := asked.next .still 0 (.put 1 [7])

private def overwriting : List (Event Nat) :=
  [⟨asked, 0, .request (.put 1 [7]), .done⟩,
    ⟨sunrise, 1, .request (.getattr 1), .attr ⟨T_DIR, 0, 0, 0, 0⟩⟩]

theorem Run.put_leaves_size :
    sunrise.Initial ∧ sunrise.Run overwriting overwritten ∧ (∀ e ∈ overwriting, e.Calm) ∧
      Act.Returns (Client.getattr .still 1 1) overwritten ⟨T_DIR, 0, 0, 0, 0⟩ overwritten ∧
      Act.Returns (Client.get .still 0 1) overwritten [7] overwritten ∧
      ¬ Throughout (Attested sunrise) overwriting overwritten := by
  have looked : ((Request.getattr 1).run .still 1 sunrise).2 = .ok (.attr ⟨T_DIR, 0, 0, 0, 0⟩, asked) := rfl
  have put : ((Request.put 1 [7]).run .still 0 asked).2 = .ok (.done, overwritten) := rfl
  have told : Act.Returns (Client.getattr .still 1 1) overwritten ⟨T_DIR, 0, 0, 0, 0⟩ overwritten := rfl
  have got : Act.Returns (Client.get .still 0 1) overwritten [7] overwritten := rfl
  refine ⟨boot_initial _, .cons (.cons .nil (.request looked)) (.request put), ?_, told, got, ?_⟩
  · rw [overwriting, List.forall_mem_cons, List.forall_mem_singleton]
    exact ⟨Option.some_ne_none _, Option.some_ne_none _⟩
  · intro attested
    exact absurd ((attested.1 1 T_DIR rfl .still 1 _ _ told).2 .still 0 [7] _ got) (by decide)

end World

end Yfs.Extent
