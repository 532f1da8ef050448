import Yfs.Extent.Calls

/-! An extent that is not removed: one content, one type, and what every call makes of
the caches that hold them. -/

namespace Yfs.Extent.View

open Yfs.Lib Yfs.Store

variable {Cid : Type} [DecidableEq Cid] {v v' : View Cid} {cid : Cid} {k : Nat} {env : Env}
  {type : UInt32} {sized : UInt32 → Prop} {bytes buf : List UInt8} {a : Attr}

omit [DecidableEq Cid] in
/-- The content is where `owner_map` says, and the attributes a client trusts have the
type of the extent and a size that is `sized`. -/
structure Intact (type : UInt32) (sized : UInt32 → Prop) (bytes : List UInt8) (v : View Cid) : Prop where
  file : ∃ f, v.file = some f ∧ f.type = type ∧ (v.owner = none → f.bytes = bytes)
  owner : ∀ o, v.owner = some o → v.data o = some ⟨.own, bytes⟩ ∧ ∃ a, v.info o = some ⟨.own, a⟩
  owned : ∀ c b, v.data c = some ⟨.own, b⟩ → v.owner = some c
  known : ∀ c a, v.info c = some ⟨.own, a⟩ → a.type = type ∧ sized a.size

namespace Intact

omit [DecidableEq Cid] in
theorem bytes_of_own (intact : Intact type sized bytes v) (own : v.data cid = some ⟨.own, buf⟩) :
    buf = bytes := by
  have cached := (intact.owner cid (intact.owned cid buf own)).1
  simpa [own] using cached

/-- What the server answers to a client that has no attributes of its own. -/
theorem served {memory : Attr} (intact : Intact type sized bytes v) (fits : sized (.ofNat bytes.length))
    (stale : ∀ b, v.info cid ≠ some ⟨.own, b⟩) (served : (v.setInfo cid (v.noted memory cid)).Serves a) :
    a.type = type ∧ sized a.size := by
  rcases serves_iff.mp served with ⟨unowned, rfl⟩ | ⟨o, i, owned, known, rfl⟩
  · obtain ⟨f, live, typed, stored⟩ := intact.file
    simpa [live, File.attr, typed, stored unowned] using fits
  · obtain ⟨-, b, described⟩ := intact.owner o owned
    have other : o ≠ cid := by
      rintro rfl
      exact stale b described
    have same : i = ⟨.own, b⟩ := by simpa [other, described] using known.symm
    rw [same]
    exact intact.known o b described

/-- Attributes that are right may be put in a cache. -/
theorem setInfo (intact : Intact type sized bytes v) (right : a.type = type ∧ sized a.size) :
    Intact type sized bytes (v.setInfo cid ⟨.own, a⟩) := by
  refine ⟨intact.file, ?_, intact.owned, ?_⟩
  · intro o owned
    obtain ⟨cached, b, described⟩ := intact.owner o owned
    refine ⟨cached, ?_⟩
    by_cases same : o = cid
    · exact ⟨a, by simp [same]⟩
    · exact ⟨b, by simpa [same] using described⟩
  · intro c b known
    by_cases same : c = cid
    · have new : b = a := by simpa [same] using known.symm
      rw [new]
      exact right
    · exact intact.known c b (by simpa [same] using known)

theorem asked {memory : Attr} (intact : Intact type sized bytes v) (fits : sized (.ofNat bytes.length))
    (asked : Getattr memory cid v a v') : (a.type = type ∧ sized a.size) ∧ Intact type sized bytes v' := by
  obtain ⟨rfl, answered⟩ := getattr_iff.mp asked
  have right : a.type = type ∧ sized a.size := by
    rcases answered with own | ⟨stale, served⟩
    · exact intact.known cid a own
    · exact intact.served fits stale served
  exact ⟨right, intact.setInfo right⟩

omit [DecidableEq Cid] in
theorem knows {served : Attr} (intact : Intact type sized bytes v) (knows : v.Knows cid served a)
    (right : served.type = type ∧ sized served.size) : a.type = type ∧ sized a.size := by
  rcases knows with own | ⟨_, rfl⟩
  · exact intact.known cid a own
  · exact right

theorem fetched (intact : Intact type sized bytes v) (fits : sized (.ofNat bytes.length))
    (fetched : Fetched env cid v buf v') : buf = bytes ∧ Intact type sized bytes v' := by
  obtain ⟨g, there, typed, stored⟩ := intact.file
  cases fetched with
  | @fresh f a unowned live known =>
    cases there.symm.trans live
    have same := stored unowned
    have right := intact.knows known ⟨typed, by simpa [File.attr, same] using fits⟩
    refine ⟨same, ⟨⟨_, rfl, typed, by simp⟩, ?_, ?_, (intact.setInfo right).known⟩⟩
    · intro o owned
      have new : o = cid := by simpa using owned.symm
      exact ⟨by simp [new, same], a, by simp [new]⟩
    · intro c b own
      by_cases new : c = cid
      · simp [new]
      · have old := intact.owned c b (by simpa [new] using own)
        simp [unowned] at old
  | @taken o _ i f a owner other cached described live known =>
    cases there.symm.trans live
    have same := intact.bytes_of_own cached
    obtain ⟨-, b, trusted⟩ := intact.owner o owner
    cases described.symm.trans trusted
    have right := intact.knows known (intact.known o b trusted)
    refine ⟨same, ⟨⟨_, rfl, typed, by simp⟩, ?_, ?_, ?_⟩⟩
    · intro c owned
      have new : c = cid := by simpa using owned.symm
      exact ⟨by simp [new, same], a, by simp [new, Ne.symm other]⟩
    · intro c d own
      by_cases new : c = cid
      · simp [new]
      · by_cases before : c = o
        · simp [before, other] at own
        · have old := intact.owned c d (by simpa [new, before] using own)
          rw [owner] at old
          exact absurd (Option.some.inj old).symm before
    · intro c d info
      by_cases before : c = o
      · simp [before] at info
      · exact (intact.setInfo right).known c d (by simpa [before] using info)

theorem got (intact : Intact type sized bytes v) (fits : sized (.ofNat bytes.length))
    (got : Get env cid k v buf v') : buf = bytes ∧ Intact type sized bytes v' := by
  cases got with
  | root own _ => exact ⟨intact.bytes_of_own own, intact⟩
  | @cached i own _ described =>
    obtain ⟨-, b, trusted⟩ := intact.owner cid (intact.owned cid buf own)
    cases described.symm.trans trusted
    exact ⟨intact.bytes_of_own own, intact.setInfo (intact.known cid b trusted)⟩
  | fetched _ fetched => exact intact.fetched fits fetched

/-- The end of `put`: the attributes that other clients trust have to suit the new size. -/
theorem filled {new : UInt32 → Prop} (intact : Intact type sized bytes v)
    (own : v.data cid = some ⟨.own, bytes⟩) (fits : new (.ofNat buf.length))
    (others : ∀ c a, c ≠ cid → v.info c = some ⟨.own, a⟩ → new a.size) :
    Intact type new buf (filled env cid v buf) := by
  have owner := intact.owned cid bytes own
  obtain ⟨-, b, trusted⟩ := intact.owner cid owner
  obtain ⟨f, live, typed, -⟩ := intact.file
  have kept : v.noted env.memory cid = ⟨.own, b⟩ := by simp [noted, trusted]
  refine ⟨⟨f, live, typed, ?_⟩, ?_, ?_, ?_⟩
  · intro unowned
    exact absurd (owner.symm.trans unowned) (by simp)
  · intro o owned
    have same : cid = o := Option.some.inj (owner.symm.trans owned)
    subst same
    exact ⟨by simp [View.filled], by simp [View.filled, resized, kept]⟩
  · intro c d cached
    by_cases same : c = cid
    · rw [same]
      exact owner
    · exact intact.owned c d (by simpa [View.filled, same] using cached)
  · intro c a info
    by_cases same : c = cid
    · have written : a = (resized env buf ⟨.own, b⟩).metadata := by
        simpa [View.filled, resized, kept, same] using info.symm
      rw [written]
      exact ⟨(intact.known cid b trusted).1, fits⟩
    · have old : v.info c = some ⟨.own, a⟩ := by simpa [View.filled, same] using info
      exact ⟨(intact.known c a old).1, others c a same old⟩

/-- `put` by a client. The one it takes the extent from forgets its attributes. -/
theorem put {new : UInt32 → Prop} (intact : Intact type sized bytes v)
    (fitted : sized (.ofNat bytes.length)) (fits : new (.ofNat buf.length))
    (others : ∀ c a, c ≠ cid → v.info c = some ⟨.own, a⟩ → v.owner ≠ some c → new a.size)
    (put : Put env cid v buf v') : Intact type new buf v' := by
  cases put with
  | owned own =>
    cases intact.bytes_of_own own
    refine intact.filled own fits ?_
    intro c a other known
    refine others c a other known ?_
    intro owner
    exact other (Option.some.inj (owner.symm.trans (intact.owned cid _ own)))
  | fetched stale fetched =>
    obtain ⟨rfl, after⟩ := intact.fetched fitted fetched
    have own : _ = some (⟨.own, _⟩ : DataCache) := (after.owner cid (by cases fetched <;> simp)).1
    refine after.filled own fits ?_
    intro c a other known
    cases fetched with
    | @fresh f d unowned live knows =>
      exact others c a other (by simpa [other] using known) (by simp [unowned])
    | @taken o _ i f d owner apart cached described live knows =>
      by_cases before : c = o
      · simp [before] at known
      · refine others c a other (by simpa [other, before] using known) ?_
        rw [owner]
        exact fun same => before (Option.some.inj same).symm

omit [DecidableEq Cid] in
theorem knows_some (v : View Cid) (cid : Cid) (served : Attr) : ∃ a, v.Knows cid served a := by
  by_cases own : ∃ a, v.info cid = some ⟨.own, a⟩
  · obtain ⟨a, known⟩ := own
    exact ⟨a, .inl known⟩
  · exact ⟨served, .inr ⟨not_exists.mp own, rfl⟩⟩

theorem fetches (intact : Intact type sized bytes v) (env : Env)
    (stale : ∀ b, v.data cid ≠ some ⟨.own, b⟩) : ∃ v', Fetched env cid v bytes v' := by
  obtain ⟨f, live, -, stored⟩ := intact.file
  rcases owner : v.owner with _ | o
  · obtain ⟨a, known⟩ := knows_some v cid f.attr
    cases stored owner
    exact ⟨_, .fresh owner live known⟩
  · obtain ⟨cached, b, described⟩ := intact.owner o owner
    obtain ⟨a, known⟩ := knows_some v cid b
    have other : o ≠ cid := by
      rintro rfl
      exact stale _ cached
    exact ⟨_, .taken owner other cached described live known⟩

/-- A `get` of an intact extent returns. -/
theorem gets (intact : Intact type sized bytes v) (env : Env) (cid : Cid) (k : Nat) :
    ∃ v', Get env cid k v bytes v' := by
  by_cases own : ∃ b, v.data cid = some ⟨.own, b⟩
  · obtain ⟨b, cached⟩ := own
    cases intact.bytes_of_own cached
    obtain ⟨-, a, described⟩ := intact.owner cid (intact.owned cid _ cached)
    by_cases first : k = 1
    · exact ⟨v, .root cached first⟩
    · exact ⟨_, .cached cached first described⟩
  · obtain ⟨v', fetched⟩ := intact.fetches env (not_exists.mp own)
    exact ⟨v', .fetched (not_exists.mp own) fetched⟩

theorem puts (intact : Intact type sized bytes v) (env : Env) (cid : Cid) (buf : List UInt8) :
    ∃ v', Put env cid v buf v' := by
  by_cases own : ∃ b, v.data cid = some ⟨.own, b⟩
  · obtain ⟨b, cached⟩ := own
    exact ⟨_, .owned cached⟩
  · obtain ⟨v', fetched⟩ := intact.fetches env (not_exists.mp own)
    exact ⟨_, .fetched (not_exists.mp own) fetched⟩

theorem asks (intact : Intact type sized bytes v) (memory : Attr) (cid : Cid) :
    ∃ a v', Getattr memory cid v a v' := by
  by_cases own : ∃ a, v.info cid = some ⟨.own, a⟩
  · obtain ⟨a, known⟩ := own
    exact ⟨a, v, .cached known⟩
  · have stale := not_exists.mp own
    rcases owner : v.owner with _ | o
    · exact ⟨_, _, .asked stale (.stored owner)⟩
    · obtain ⟨-, b, described⟩ := intact.owner o owner
      have other : o ≠ cid := by
        rintro rfl
        exact stale b described
      have known : (v.setInfo cid (v.noted memory cid)).info o = some ⟨.own, b⟩ := by
        simpa [other] using described
      exact ⟨_, _, .asked stale (.synced owner known)⟩

end Intact

end Yfs.Extent.View

namespace Yfs.Extent.World

theorem content_of_intact {Cid : Type} {W : World Cid} {id : Nat} {type : UInt32}
    {sized : UInt32 → Prop} {bytes : List UInt8} (intact : View.Intact type sized bytes (W.view id)) :
    W.content id = bytes := by
  obtain ⟨f, live, -, stored⟩ := intact.file
  rcases owner : (W.view id).owner with _ | o
  · have unowned : W.server.ownerMap id = none := owner
    have there : W.server.files id = some f := live
    simpa [content, unowned, World.stored, there] using stored owner
  · have owned : W.server.ownerMap id = some o := owner
    have cached : (W.clients o).dataMap id = some ⟨.own, bytes⟩ := (intact.owner o owner).1
    simp [content, owned, cached]

end Yfs.Extent.World
