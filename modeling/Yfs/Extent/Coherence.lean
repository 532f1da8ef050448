import Yfs.Extent.System

/-! Who owns an extent, what its content is, and what each operation does to both. -/

namespace Yfs.Extent

open Yfs.Lib Yfs.Store

variable {Cid : Type}

namespace World

theorem mask_of_lt {id : Nat} (small : id < INODE_NUM) : mask id = id := by
  rw [mask, Nat.mod_eq_of_lt]
  simp only [INODE_NUM] at small
  omega

/-- `data_map[id]` of a client is in state `OWN`. -/
def Owns (W : World Cid) (cid : Cid) (id : Nat) : Prop :=
  ∃ data, (W.clients cid).dataMap id = some ⟨.own, data⟩

/-- `owner_map` names exactly the clients whose caches own an extent. -/
def InStep (W : World Cid) : Prop :=
  ∀ id cid, W.server.ownerMap id = some cid ↔ W.Owns cid id

/-- The type of an extent; none when it is not live. -/
def type (W : World Cid) (id : Nat) : Option UInt32 := (W.server.files id).map File.type

/-- The bytes of an extent on the server. -/
def stored (W : World Cid) (id : Nat) : List UInt8 := (W.server.files id).elim [] File.bytes

/-- The bytes of an extent: those its owner caches, or the stored ones. -/
def content (W : World Cid) (id : Nat) : List UInt8 :=
  match W.server.ownerMap id with
  | some owner => ((W.clients owner).dataMap id).elim [] DataCache.data
  | none => W.stored id

/-- `owner_map` has masked keys only. -/
def Masked (W : World Cid) : Prop := ∀ id cid, W.server.ownerMap id = some cid → mask id = id

structure Inv (W : World Cid) : Prop where
  inStep : W.InStep
  described : ∀ id cid, W.Owns cid id → ∃ info, (W.clients cid).metadataMap id = some info
  masked : W.Masked

/-- The attributes the server answers for an extent. -/
def serverAttr (W : World Cid) (m : Nat) : Attr :=
  match W.server.ownerMap m with
  | some owner => ((W.clients owner).metadataMap m).elim ⟨0, 0, 0, 0, 0⟩ MetadataCache.metadata
  | none => W.server.files.getattr m ⟨0, 0, 0, 0, 0⟩

/-- The attributes a client sees: those it caches, or those the server answers. -/
def attr (W : World Cid) (cid : Cid) (eid : Nat) : Attr :=
  match (W.clients cid).metadataMap eid with
  | some ⟨.own, a⟩ => a
  | _ => W.serverAttr (mask eid)

/-- Every callback goes to a client that owns the extent. -/
def Addressed (W : World Cid) : Callback Cid → Prop
  | .flush owner id | .clear owner id | .syncMeta owner id => W.Owns owner id

/-- Nobody owns `m` any more, and the server stores what its content was. -/
structure Surrendered (W : World Cid) (m : Nat) (W' : World Cid) : Prop where
  files : ∀ k, k ≠ m → W'.server.files k = W.server.files k
  types : ∀ k, W'.type k = W.type k
  stored : W.server.files m ≠ none → W'.stored m = W.content m
  free : ∀ cid, ¬ W'.Owns cid m
  data : ∀ cid k, k ≠ m → (W'.clients cid).dataMap k = (W.clients cid).dataMap k
  metadata : ∀ cid k info, (W.clients cid).metadataMap k = some info →
    ∃ stat, (W'.clients cid).metadataMap k = some ⟨stat, info.metadata⟩

theorem type_eq_none {W : World Cid} {k : Nat} : W.type k = none ↔ W.server.files k = none := by
  simp [type]

theorem Surrendered.live {W W' : World Cid} {m : Nat} (surrendered : W.Surrendered m W') (k : Nat) :
    W'.server.files k = none ↔ W.server.files k = none := by
  rw [← type_eq_none, surrendered.types, type_eq_none]

theorem Initial.inv {W : World Cid} (initial : W.Initial) : W.Inv where
  inStep id cid := by simp [Owns, initial.ownerMap id, initial.dataMap cid id]
  described id cid owns := by simp [Owns, initial.dataMap cid id] at owns
  masked id cid owner := by simp [initial.ownerMap id] at owner

theorem content_of_owns {W : World Cid} {id : Nat} {cid : Cid} {data : List UInt8} (inStep : W.InStep)
    (cached : (W.clients cid).dataMap id = some ⟨.own, data⟩) : W.content id = data := by
  have owner := (inStep id cid).mpr ⟨data, cached⟩
  simp [content, owner, cached]

/-- The extents live on, with their contents, in a state that keeps the invariant. -/
structure Kept (W W' : World Cid) : Prop where
  inv : W'.Inv
  types : ∀ k, W'.type k = W.type k
  content : ∀ k, W'.content k = W.content k
  stored : ∀ k, W'.stored k = W.stored k ∨ W'.stored k = W.content k

/-- A live extent has got another content. -/
structure Written (W : World Cid) (eid : Nat) (buf : List UInt8) (W' : World Cid) : Prop where
  inv : W'.Inv
  types : ∀ k, W'.type k = W.type k
  content : ∀ k, W'.content k = Function.update W.content eid buf k
  stored : ∀ k, W'.stored k = W.stored k ∨ W'.stored k = W.content k

theorem Kept.live {W W' : World Cid} (kept : W.Kept W') (k : Nat) :
    W'.server.files k = none ↔ W.server.files k = none := by
  rw [← type_eq_none, kept.types, type_eq_none]

theorem Written.live {W W' : World Cid} {eid : Nat} {buf : List UInt8} (written : W.Written eid buf W')
    (k : Nat) : W'.server.files k = none ↔ W.server.files k = none := by
  rw [← type_eq_none, written.types, type_eq_none]

theorem Kept.refl {W : World Cid} (inv : W.Inv) : W.Kept W :=
  ⟨inv, fun _ => rfl, fun _ => rfl, fun _ => .inl rfl⟩

theorem Kept.trans {W₁ W₂ W₃ : World Cid} (first : Kept W₁ W₂) (second : Kept W₂ W₃) : Kept W₁ W₃ where
  inv := second.inv
  types k := (second.types k).trans (first.types k)
  content k := (second.content k).trans (first.content k)
  stored k := by
    rcases second.stored k with same | same
    · simpa [same] using first.stored k
    · exact .inr (same.trans (first.content k))

end World

variable [DecidableEq Cid] {W : World Cid} {sent : Callback Cid → Prop} {stops : Fault → Prop}

omit [DecidableEq Cid] in
theorem ensures_orFault {α : Type} {fault : Fault} {o : Option α} {Q : α → World Cid → Prop}
    (missing : o = none → stops fault) (found : ∀ a, o = some a → Q a W) :
    Act.Ensures sent stops (orFault fault o) W Q := by
  cases o with
  | none => exact .throw (missing rfl)
  | some a => exact .pure (found a rfl)

theorem ensures_clearHandler {cid : Cid} {eid : Nat} {cache : DataCache} {info : MetadataCache}
    {Q : Unit → World Cid → Prop} (cached : (W.clients cid).dataMap eid = some cache)
    (described : (W.clients cid).metadataMap eid = some info)
    (holds : Q () ((W.setData cid eid { cache with stat := .none }).setMetadata cid eid
      { info with stat := .none })) :
    Act.Ensures sent stops (Client.clearHandler cid eid) W Q := by
  refine .seq (.get (.seq (ensures_orFault (by simp [cached]) ?_)))
  intro found same
  cases cached.symm.trans same
  refine .seq (.modify (.seq (ensures_orFault (by simp [described]) ?_)))
  intro found same
  cases described.symm.trans same
  exact .modify holds

omit [DecidableEq Cid] in
theorem ensures_flush {env : Env} {cid : Cid} {eid : Nat} {data : List UInt8}
    {Q : Unit → World Cid → Prop} (cached : (W.clients cid).dataMap eid = some ⟨.own, data⟩)
    (masked : mask eid = eid) (dead : W.server.files eid = none → stops .nullInode)
    (holds : ∀ files, W.server.files.writeFile eid data env.flushed = some files →
      Q () (W.setFiles files)) :
    Act.Ensures sent stops (Client.flush env cid eid) W Q := by
  refine .seq (.get (.seq (ensures_orFault (by simp [cached]) ?_)))
  intro found same
  cases cached.symm.trans same
  rw [if_neg (by simp)]
  unfold Server.put
  rw [masked]
  refine .seq (.get (.seq (ensures_orFault ?_ ?_)))
  · exact fun missing => dead (FileTable.writeFile_none missing)
  · intro files written
    exact .modify (holds files written)

/-- The callback of a `get` on an extent that another client owns. -/
theorem World.Inv.ensures_surrender {env : Env} {m : Nat} {Q : Unit → World Cid → Prop} (inv : W.Inv)
    (addressed : ∀ owner, W.Owns owner m → sent (.flush owner m))
    (dead : W.server.files m = none → stops .nullInode)
    (holds : ∀ W', W.Surrendered m W' → W'.server.ownerMap = W.server.ownerMap → Q () W') :
    Act.Ensures sent stops (Server.callOwner m Callback.flush (Client.flushHandler env)) W Q := by
  refine .seq (.get ?_)
  rcases owner : W.server.ownerMap m with _ | cid
  · apply Act.Ensures.pure
    refine holds W ?_ rfl
    constructor
    · exact fun _ _ => rfl
    · exact fun _ => rfl
    · intro _
      simp [content, owner]
    · intro cid owns
      simp [(inv.inStep m cid).mpr owns] at owner
    · exact fun _ _ _ => rfl
    · exact fun _ _ info found => ⟨info.stat, found⟩
  · obtain ⟨data, cached⟩ := (inv.inStep m cid).mp owner
    have owns : W.Owns cid m := ⟨data, cached⟩
    obtain ⟨info, described⟩ := inv.described m cid owns
    refine .seq (.emit (addressed cid owns) (.seq ?_))
    refine ensures_flush cached (inv.masked m cid owner) dead ?_
    intro files written
    obtain ⟨file, found, rfl⟩ := FileTable.writeFile_some written
    refine ensures_clearHandler cached described (holds _ ?_ rfl)
    have alone : ∀ other, W.Owns other m → other = cid := by
      intro other owns
      exact Option.some.inj (((inv.inStep m other).mpr owns).symm.trans owner)
    constructor
    · intro k other
      simp [other]
    · intro k
      by_cases same : k = m <;> simp [World.type, same, found]
    · intro _
      simp [World.stored, World.content_of_owns inv.inStep cached]
    · rintro other ⟨data', cached'⟩
      by_cases same : other = cid
      · simp [same] at cached'
      · simp only [World.setMetadata_dataMap, World.setData_dataMap, same, false_and, if_false]
          at cached'
        exact same (alone other ⟨data', cached'⟩)
    · intro other k apart
      simp [apart]
    · intro other k info' known
      by_cases same : other = cid ∧ k = m
      · obtain ⟨rfl, rfl⟩ := same
        cases described.symm.trans known
        exact ⟨.none, by simp⟩
      · exact ⟨info'.stat, by simp [same, known]⟩

namespace World

/-- A `get` of the server hands an extent over to a client, which then owns it. -/
theorem Inv.handed {W' : World Cid} {m : Nat} {cid : Cid} (inv : W.Inv) (surrendered : W.Surrendered m W')
    (owner : W'.server.ownerMap = Function.update W.server.ownerMap m (some cid))
    (described : ∃ info, (W.clients cid).metadataMap m = some info) (masked : mask m = m) :
    W.Kept (W'.setData cid m ⟨.own, W.content m⟩) := by
  have owns_iff : ∀ k c, (W'.setData cid m ⟨.own, W.content m⟩).Owns c k ↔
      if k = m then c = cid else W.Owns c k := by
    intro k c
    have free := surrendered.free c
    unfold Owns at free ⊢
    by_cases same : k = m
    · by_cases mine : c = cid
      · simp [same, mine]
      · simpa [same, mine] using free
    · simp [same, surrendered.data c k same]
  refine ⟨⟨?_, ?_, ?_⟩, surrendered.types, ?_, ?_⟩
  · intro k c
    rw [owns_iff, setData_server, owner]
    by_cases same : k = m
    · simp [same, eq_comm]
    · simpa [same] using inv.inStep k c
  · intro k c owns
    rw [owns_iff] at owns
    have known : ∃ info, (W.clients c).metadataMap k = some info := by
      by_cases same : k = m
      · rw [if_pos same] at owns
        simpa [same, owns] using described
      · rw [if_neg same] at owns
        exact inv.described k c owns
    obtain ⟨info, found⟩ := known
    obtain ⟨stat, kept⟩ := surrendered.metadata c k info found
    exact ⟨⟨stat, info.metadata⟩, by simpa using kept⟩
  · intro k c found
    by_cases same : k = m
    · rw [same, masked]
    · simp only [setData_server, owner, Function.update_of_ne same] at found
      exact inv.masked k c found
  · intro k
    by_cases same : k = m
    · simp [content, same, owner]
    · rcases holder : W.server.ownerMap k with _ | c
      · simp [content, stored, owner, same, holder, surrendered.files k same]
      · simp [content, owner, same, holder, surrendered.data c k same]
  · intro k
    by_cases same : k = m
    · by_cases gone : W.server.files m = none
      · left
        simp [stored, same, gone, (surrendered.live m).mpr gone]
      · right
        rw [same]
        exact surrendered.stored gone
    · left
      simp [stored, surrendered.files k same]

@[simp] theorem setMetadata_owns {cid c : Cid} {eid k : Nat} {info : MetadataCache} :
    (W.setMetadata cid eid info).Owns c k ↔ W.Owns c k := by
  simp [Owns]

/-- Neither ownership nor contents depend on the cached attributes. -/
theorem Inv.setMetadata (inv : W.Inv) (cid : Cid) (eid : Nat) (info : MetadataCache) :
    W.Kept (W.setMetadata cid eid info) where
  inv := by
    refine ⟨?_, ?_, inv.masked⟩
    · intro k c
      simpa using inv.inStep k c
    · intro k c owns
      obtain ⟨info', found⟩ := inv.described k c (by simpa using owns)
      by_cases same : c = cid ∧ k = eid
      · exact ⟨info, by simp [same]⟩
      · exact ⟨info', by simp [same, found]⟩
  types k := rfl
  content k := by simp [World.content, World.stored]
  stored k := .inl rfl

omit [DecidableEq Cid] in
theorem Inv.setFiles (inv : W.Inv) (files : FileTable) : (W.setFiles files).Inv :=
  ⟨inv.inStep, inv.described, inv.masked⟩

/-- A new cache entry owns nothing. -/
theorem Inv.setData_new {cid : Cid} {eid : Nat} (inv : W.Inv)
    (missing : (W.clients cid).dataMap eid = none) : W.Kept (W.setData cid eid .new) := by
  have owns_iff : ∀ k c, (W.setData cid eid .new).Owns c k ↔ W.Owns c k := by
    intro k c
    by_cases same : c = cid ∧ k = eid
    · simp [Owns, same, missing, DataCache.new]
    · simp [Owns, same]
  refine ⟨⟨?_, ?_, inv.masked⟩, fun _ => rfl, ?_, fun _ => .inl rfl⟩
  · intro k c
    rw [owns_iff]
    exact inv.inStep k c
  · intro k c owns
    simpa using inv.described k c ((owns_iff k c).mp owns)
  · intro k
    rcases owner : W.server.ownerMap k with _ | c
    · simp [World.content, World.stored, owner]
    · have apart : ¬ (c = cid ∧ k = eid) := by
        rintro ⟨rfl, rfl⟩
        obtain ⟨data, cached⟩ := (inv.inStep k c).mp owner
        rw [missing] at cached
        cases cached
      simp [World.content, owner, apart]

/-- An owner replaces the content of its extent. -/
theorem Inv.setData_own {cid : Cid} {eid : Nat} {data : List UInt8} (inv : W.Inv)
    (cached : (W.clients cid).dataMap eid = some ⟨.own, data⟩) (buf : List UInt8) :
    (W.setData cid eid ⟨.own, buf⟩).Inv ∧
      ∀ k, (W.setData cid eid ⟨.own, buf⟩).content k = Function.update W.content eid buf k := by
  have owns_iff : ∀ k c, (W.setData cid eid ⟨.own, buf⟩).Owns c k ↔ W.Owns c k := by
    intro k c
    by_cases same : c = cid ∧ k = eid
    · simp [Owns, same, cached]
    · simp [Owns, same]
  refine ⟨⟨?_, ?_, inv.masked⟩, ?_⟩
  · intro k c
    rw [owns_iff]
    exact inv.inStep k c
  · intro k c owns
    simpa using inv.described k c ((owns_iff k c).mp owns)
  · intro k
    by_cases same : k = eid
    · have owner := (inv.inStep eid cid).mpr ⟨data, cached⟩
      simp [World.content, same, owner]
    · simp [World.content, World.stored, same]

end World

theorem ensures_metadataCache {env : Env} {cid : Cid} {eid : Nat}
    {Q : MetadataCache → World Cid → Prop}
    (known : ∀ info, (W.clients cid).metadataMap eid = some info → Q info W)
    (new : (W.clients cid).metadataMap eid = none →
      Q ⟨.none, env.memory⟩ (W.setMetadata cid eid ⟨.none, env.memory⟩)) :
    Act.Ensures sent stops (Client.metadataCache env cid eid) W Q := by
  refine .seq (.get ?_)
  rcases found : (W.clients cid).metadataMap eid with _ | info
  · exact .seq (.modify (.pure (new found)))
  · exact .pure (known info found)

theorem ensures_dataCache {cid : Cid} {eid : Nat} {Q : DataCache → World Cid → Prop}
    (known : ∀ cache, (W.clients cid).dataMap eid = some cache → Q cache W)
    (new : (W.clients cid).dataMap eid = none → Q .new (W.setData cid eid .new)) :
    Act.Ensures sent stops (Client.dataCache cid eid) W Q := by
  refine .seq (.get ?_)
  rcases found : (W.clients cid).dataMap eid with _ | cache
  · exact .seq (.modify (.pure (new found)))
  · exact .pure (known cache found)

omit [DecidableEq Cid] in
theorem ensures_serverGetattr {eid : Nat} {Q : Attr → World Cid → Prop} (inv : W.Inv)
    (addressed : ∀ owner, W.Owns owner (mask eid) → sent (.syncMeta owner (mask eid)))
    (holds : Q (W.serverAttr (mask eid)) W) :
    Act.Ensures sent stops (Server.getattr eid) W Q := by
  unfold World.serverAttr at holds
  refine .seq (.get ?_)
  rcases owner : W.server.ownerMap (mask eid) with _ | cid
  · rw [owner] at holds
    exact .pure holds
  · have owns := (inv.inStep _ cid).mp owner
    obtain ⟨info, described⟩ := inv.described _ cid owns
    refine .seq (.emit (addressed cid owns) (.seq (.get (.seq (ensures_orFault ?_ ?_)))))
    · simp [described]
    · intro found same
      cases described.symm.trans same
      simp only [owner, described] at holds
      exact .pure holds

theorem ensures_getattr {env : Env} {cid : Cid} {eid : Nat} {Q : Attr → World Cid → Prop} (inv : W.Inv)
    (addressed : ∀ owner, W.Owns owner (mask eid) → sent (.syncMeta owner (mask eid)))
    (holds : ∀ W', W.Kept W' → (∀ c k, W'.Owns c k ↔ W.Owns c k) →
      (W'.clients cid).metadataMap eid = some ⟨.own, W.attr cid eid⟩ → Q (W.attr cid eid) W') :
    Act.Ensures sent stops (Client.getattr env cid eid) W Q := by
  unfold World.attr at holds
  refine .seq (ensures_metadataCache ?_ ?_)
  · intro info known
    rw [known] at holds
    rcases info with ⟨_ | _, a⟩
    · refine .seq (ensures_serverGetattr inv addressed (.seq (.modify (.pure ?_))))
      exact holds _ (inv.setMetadata cid eid _) (by simp) (by simp)
    · exact .pure (holds W (.refl inv) (fun _ _ => Iff.rfl) known)
  · intro missing
    have kept := inv.setMetadata cid eid ⟨.none, env.memory⟩
    -- The new entry is not the one that `sync_meta` reads: an owner has its own.
    have same : (W.setMetadata cid eid ⟨.none, env.memory⟩).serverAttr (mask eid) =
        W.serverAttr (mask eid) := by
      rcases owner : W.server.ownerMap (mask eid) with _ | c
      · simp [World.serverAttr, owner]
      · obtain ⟨info, described⟩ := inv.described _ c ((inv.inStep _ c).mp owner)
        have apart : ¬ (c = cid ∧ mask eid = eid) := by
          rintro ⟨rfl, masked⟩
          rw [masked, missing] at described
          cases described
        simp [World.serverAttr, owner, apart]
    rw [missing] at holds
    refine .seq (ensures_serverGetattr kept.inv ?_ (.seq (.modify (.pure ?_))))
    · intro owner owns
      exact addressed owner (by simpa using owns)
    · rw [same]
      exact holds _ (kept.trans (kept.inv.setMetadata cid eid _)) (by simp) (by simp)

/-- A `get` RPC, on any id: the client becomes the owner of the masked one. -/
theorem ensures_serverGet {env : Env} {cid : Cid} {eid : Nat} {Q : List UInt8 → World Cid → Prop}
    (inv : W.Inv) (addressed : ∀ owner, W.Owns owner (mask eid) → sent (.flush owner (mask eid)))
    (dead : W.server.files (mask eid) = none → stops .nullInode)
    (holds : ∀ W', W.Surrendered (mask eid) W' →
      W'.server.ownerMap = Function.update W.server.ownerMap (mask eid) (some cid) →
      Q (W.content (mask eid)) W') :
    Act.Ensures sent stops (Server.get env cid eid) W Q := by
  refine .seq (inv.ensures_surrender addressed dead ?_)
  intro W₁ surrendered owners
  refine .seq (.modify (.seq (.get (.seq (ensures_orFault ?_ ?_)))))
  · intro missing
    exact dead ((surrendered.live _).mp (FileTable.readFile_none missing))
  · rintro ⟨buf, files⟩ read
    refine .seq (.modify (.pure ?_))
    obtain ⟨file, found, rfl, rfl⟩ := FileTable.readFile_some read
    have live : W.server.files (mask eid) ≠ none := by
      rw [ne_eq, ← surrendered.live, ← World.setOwner_files, found]
      simp
    have bytes : W.content (mask eid) = file.bytes := by
      rw [← surrendered.stored live, World.stored, ← World.setOwner_files, found]
      rfl
    rw [← bytes]
    apply holds
    · constructor
      · intro k apart
        simpa [apart] using surrendered.files k apart
      · intro k
        rw [← surrendered.types]
        by_cases same : k = mask eid
        · rw [World.setOwner_files] at found
          simp [World.type, same, found]
        · simp [World.type, same]
      · intro _
        simp [World.stored, bytes]
      · exact surrendered.free
      · exact surrendered.data
      · exact surrendered.metadata
    · simp [owners]

section Calls

variable {env : Env} {cid : Cid} {eid : Nat} (inv : W.Inv)
  (addressed : ∀ owner, W.Owns owner (mask eid) →
    sent (.flush owner (mask eid)) ∧ sent (.syncMeta owner (mask eid)))
  (dead : W.server.files (mask eid) = none → stops .nullInode)
include inv addressed dead

theorem ensures_fetch {Q : List UInt8 → World Cid → Prop}
    (holds : ∀ W', W'.Owns cid eid → W'.Masked → (mask eid = eid → W.Kept W') →
      Q (W.content (mask eid)) W') :
    Act.Ensures sent stops (Client.fetch env cid eid) W Q := by
  -- What the first two steps leave: the same extents, and an entry for the attributes.
  have rest : ∀ W₁, W.Kept W₁ → (∀ c k, W₁.Owns c k ↔ W.Owns c k) →
      (∃ info, (W₁.clients cid).metadataMap eid = some info) →
      Act.Ensures sent stops (do
        let buf ← Server.get env cid eid
        Act.modify (·.setData cid eid ⟨.own, buf⟩)
        return buf) W₁ Q := by
    intro W₁ kept owns_iff described
    refine .seq (ensures_serverGet kept.inv ?_ ?_ ?_)
    · exact fun owner owns => (addressed owner ((owns_iff owner _).mp owns)).1
    · exact fun missing => dead ((kept.live _).mp missing)
    · intro W₂ surrendered owners
      refine .seq (.modify (.pure ?_))
      rw [kept.content]
      apply holds
      · exact ⟨W.content (mask eid), by simp⟩
      · intro k c found
        rw [World.setData_server, owners] at found
        by_cases same : k = mask eid
        · rw [same, mask, mask, Nat.mod_mod]
        · rw [Function.update_of_ne same] at found
          exact kept.inv.masked k c found
      · intro masked
        rw [masked] at surrendered owners
        refine kept.trans ?_
        rw [← kept.content, masked]
        exact kept.inv.handed surrendered owners described masked
  refine .seq (ensures_metadataCache ?_ ?_)
  · intro info known
    refine .seq (.when ?_ ?_)
    · intro _
      refine .seq (ensures_getattr inv (fun owner owns => (addressed owner owns).2) ?_)
      exact fun W₁ kept owns_iff described => .pure (rest W₁ kept owns_iff ⟨_, described⟩)
    · intro _
      exact rest W (.refl inv) (fun _ _ => Iff.rfl) ⟨info, known⟩
  · intro missing
    have kept := inv.setMetadata cid eid ⟨.none, env.memory⟩
    refine .seq (.when ?_ (by simp))
    intro _
    refine .seq (ensures_getattr kept.inv ?_ ?_)
    · exact fun owner owns => (addressed owner (by simpa using owns)).2
    · intro W₁ kept₁ owns_iff described
      exact .pure (rest W₁ (kept.trans kept₁) (fun c k => (owns_iff c k).trans (by simp))
        ⟨_, described⟩)

theorem ensures_get {Q : List UInt8 → World Cid → Prop}
    (holds : ∀ W', W'.Owns cid eid → W'.Masked → (mask eid = eid → W.Kept W') →
      Q (W.content (mask eid)) W') :
    Act.Ensures sent stops (Client.get env cid eid) W Q := by
  refine .seq (ensures_dataCache ?_ ?_)
  · rintro ⟨_ | _, data⟩ known
    · exact ensures_fetch inv addressed dead holds
    · have owns : W.Owns cid eid := ⟨data, known⟩
      have masked := inv.masked eid cid ((inv.inStep eid cid).mpr owns)
      have bytes : W.content (mask eid) = data := by
        rw [masked, World.content_of_owns inv.inStep known]
      rw [← bytes]
      rw [if_pos rfl]
      refine .seq (.when ?_ ?_)
      · intro _
        obtain ⟨info, described⟩ := inv.described eid cid owns
        refine .seq (.get (.seq (ensures_orFault (by simp [described]) ?_)))
        intro info' _
        have kept := inv.setMetadata cid eid
          { info' with metadata := { info'.metadata with atime := env.client.atime } }
        exact .modify (.pure (holds _ (by simpa using owns) kept.inv.masked fun _ => kept))
      · intro _
        exact .pure (holds W owns inv.masked fun _ => .refl inv)
  · intro missing
    have kept := inv.setData_new missing
    rw [if_neg (by simp [DataCache.new])]
    refine ensures_fetch kept.inv ?_ ?_ ?_
    · intro owner owns
      apply addressed owner
      exact (inv.inStep _ owner).mp ((kept.inv.inStep _ owner).mpr owns)
    · exact fun gone => dead ((kept.live _).mp gone)
    · intro W' owns masked kept'
      rw [kept.content]
      exact holds W' owns masked fun same => kept.trans (kept' same)

theorem ensures_put {buf : List UInt8} {Q : Unit → World Cid → Prop}
    (holds : ∀ W', W'.Owns cid eid → W'.Masked → (mask eid = eid → W.Written eid buf W') → Q () W') :
    Act.Ensures sent stops (Client.put env cid eid buf) W Q := by
  have finish : ∀ W₁ info, W₁.Owns cid eid → W₁.Masked → (mask eid = eid → W.Kept W₁) →
      Act.Ensures sent stops (do
        Act.modify (·.setMetadata cid eid info)
        let cache ← Client.dataCache cid eid
        Act.modify (·.setData cid eid { cache with data := buf })) W₁ Q := by
    rintro W₁ info ⟨data, cached⟩ masked kept
    refine .seq (.modify (.seq (ensures_dataCache ?_ (by simp [cached]))))
    intro cache known
    rw [World.setMetadata_dataMap, cached] at known
    cases known
    refine .modify (holds _ ⟨buf, by simp⟩ masked fun same => ?_)
    have kept := (kept same).trans ((kept same).inv.setMetadata cid eid info)
    obtain ⟨inv, content⟩ := kept.inv.setData_own (by simpa using cached) buf
    refine ⟨inv, kept.types, fun k => ?_, kept.stored⟩
    rw [content, funext kept.content]
  have rest : ∀ W₁, W₁.Owns cid eid → W₁.Masked → (mask eid = eid → W.Kept W₁) →
      Act.Ensures sent stops (Client.fill env cid eid buf) W₁ Q := by
    intro W₁ owns masked kept
    refine .seq (ensures_metadataCache ?_ ?_)
    · exact fun info _ => finish W₁ _ owns masked kept
    · intro _
      refine finish _ _ (by simpa using owns) masked fun same => ?_
      exact (kept same).trans ((kept same).inv.setMetadata cid eid _)
  refine .seq (ensures_dataCache ?_ ?_)
  · rintro ⟨_ | _, data⟩ known
    · refine .seq (.when (fun _ => .seq ?_) (by simp))
      exact ensures_get inv addressed dead fun W₁ owns masked kept => .pure (rest W₁ owns masked kept)
    · refine .seq (.when (by simp) fun _ => ?_)
      exact rest W ⟨data, known⟩ inv.masked fun _ => .refl inv
  · intro missing
    have kept := inv.setData_new missing
    refine .seq (.when (fun _ => .seq ?_) (by simp [DataCache.new]))
    refine ensures_get kept.inv ?_ ?_ ?_
    · intro owner owns
      apply addressed owner
      exact (inv.inStep _ owner).mp ((kept.inv.inStep _ owner).mpr owns)
    · exact fun gone => dead ((kept.live _).mp gone)
    · intro W₁ owns masked kept₁
      exact .pure (rest W₁ owns masked fun same => kept.trans (kept₁ same))

omit addressed in
/-- A `remove` clears the cache of an owner, but `owner_map` keeps its entry. -/
theorem ensures_remove {Q : Unit → World Cid → Prop}
    (addressed : ∀ owner, W.Owns owner (mask eid) → sent (.clear owner (mask eid)))
    (unowned : ∀ files, W.server.ownerMap (mask eid) = none →
      W.server.files.removeFile (mask eid) = some files → Q () (W.setFiles files))
    (owned : ∀ W', W.server.ownerMap (mask eid) ≠ none → ¬ W'.InStep → Q () W') :
    Act.Ensures sent stops (Client.remove eid) W Q := by
  refine .seq (.seq (.get ?_))
  rcases owner : W.server.ownerMap (mask eid) with _ | cid
  · refine .pure (.seq (.get (.seq (ensures_orFault ?_ ?_))))
    · exact fun missing => dead (FileTable.removeFile_none missing)
    · exact fun files removed => .modify (unowned files owner removed)
  · obtain ⟨data, cached⟩ := (inv.inStep _ cid).mp owner
    have owns : W.Owns cid (mask eid) := ⟨data, cached⟩
    obtain ⟨info, described⟩ := inv.described _ cid owns
    refine .seq (.emit (addressed cid owns) (ensures_clearHandler cached described ?_))
    refine .seq (.get (.seq (ensures_orFault ?_ ?_)))
    · exact fun missing => dead (FileTable.removeFile_none missing)
    · intro files _
      refine .modify (owned _ (by simp [owner]) ?_)
      intro inStep
      obtain ⟨data', cached'⟩ := (inStep (mask eid) cid).mp owner
      simp at cached'

end Calls

end Yfs.Extent
