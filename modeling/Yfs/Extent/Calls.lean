import Yfs.Extent.View

/-! The calls of the extent service, one extent at a time. A call returns what its
relation on the view of an id says and leaves the views of all other ids alone. -/

namespace Yfs.Extent

open Yfs.Lib Yfs.Store

variable {Cid : Type}

section Calls

variable [DecidableEq Cid] {W W' : World Cid} {k : Nat} {env : Env} {cid : Cid}

omit [DecidableEq Cid] in
@[simp] theorem returns_orFault {α : Type} {fault : Fault} {o : Option α} {a : α} :
    Act.Returns (orFault fault o : Ext Cid α) W a W' ↔ o = some a ∧ W' = W := by
  cases o with
  | none => simp [orFault]
  | some b => simp [orFault, eq_comm]

theorem returns_clearHandler {o : Cid} :
    Act.Returns (Client.clearHandler o k) W () W' ↔ ∃ cache i, (W.view k).data o = some cache ∧
      (W.view k).info o = some i ∧ W' = W.setView k
        (((W.view k).setData o { cache with stat := .none }).setInfo o { i with stat := .none }) := by
  simp only [Client.clearHandler, Act.returns_bind, Act.returns_get, returns_orFault,
    Act.returns_modify]
  constructor
  · rintro ⟨_, _, ⟨rfl, rfl⟩, cache, _, ⟨cached, rfl⟩, _, _, rfl, i, _, ⟨known, rfl⟩, rfl⟩
    refine ⟨cache, i, cached, known, ?_⟩
    rw [World.setMetadata_eq, World.setData_eq, World.setView_setView, World.view_setView]
  · rintro ⟨cache, i, cached, known, rfl⟩
    refine ⟨_, _, ⟨rfl, rfl⟩, cache, _, ⟨cached, rfl⟩, (), _, rfl, i, _, ⟨known, rfl⟩, ?_⟩
    rw [World.setMetadata_eq, World.setData_eq, World.setView_setView, World.view_setView]

omit [DecidableEq Cid] in
theorem returns_serverPut (masked : mask k = k) {buf : List UInt8} {now : Clock} :
    Act.Returns (Server.put k buf now : Ext Cid Unit) W () W' ↔ ∃ f, (W.view k).file = some f ∧
      W' = W.setView k ((W.view k).setFile (some (f.write buf now))) := by
  simp only [Server.put, masked, Act.returns_bind, Act.returns_get, returns_orFault,
    Act.returns_modify]
  constructor
  · rintro ⟨_, _, ⟨rfl, rfl⟩, files, _, ⟨written, rfl⟩, rfl⟩
    obtain ⟨f, found, rfl⟩ := FileTable.writeFile_some written
    exact ⟨f, found, World.setFiles_eq ..⟩
  · rintro ⟨f, found, rfl⟩
    have live : W.server.files k = some f := found
    exact ⟨W, W, ⟨rfl, rfl⟩, _, W, ⟨by simp [FileTable.writeFile, live]; rfl, rfl⟩,
      (World.setFiles_eq ..).symm⟩

theorem returns_flushHandler (masked : mask k = k) {o : Cid} :
    Act.Returns (Client.flushHandler env o k) W () W' ↔
      ∃ bytes i f, (W.view k).data o = some ⟨.own, bytes⟩ ∧ (W.view k).info o = some i ∧
        (W.view k).file = some f ∧ W' = W.setView k ((((W.view k).setFile
          (some (f.write bytes env.flushed))).setData o ⟨.none, bytes⟩).setInfo o
            { i with stat := .none }) := by
  simp only [Client.flushHandler, Client.flush, Act.returns_bind, Act.returns_get, returns_orFault]
  constructor
  · rintro ⟨_, W₁, ⟨_, _, ⟨rfl, rfl⟩, cache, _, ⟨cached, rfl⟩, flushed⟩, cleared⟩
    split at flushed
    · exact absurd flushed Act.returns_throw
    · rename_i own
      obtain ⟨f, live, rfl⟩ := (returns_serverPut masked).mp flushed
      obtain ⟨cache', i, cached', known, rfl⟩ := returns_clearHandler.mp cleared
      rw [World.view_setView] at cached' known
      cases cached.symm.trans cached'
      have owned : cache = ⟨.own, cache.data⟩ := by
        rw [← Decidable.not_not.mp own]
      refine ⟨cache.data, i, f, by rw [← owned]; exact cached, known, live, ?_⟩
      rw [World.setView_setView, World.view_setView]
  · rintro ⟨bytes, i, f, cached, known, live, rfl⟩
    refine ⟨(), W.setView k ((W.view k).setFile (some (f.write bytes env.flushed))),
      ⟨W, W, ⟨rfl, rfl⟩, _, W, ⟨cached, rfl⟩, ?_⟩, ?_⟩
    · rw [if_neg (by simp)]
      exact (returns_serverPut masked).mpr ⟨f, live, rfl⟩
    · refine returns_clearHandler.mpr ⟨⟨.own, bytes⟩, i, ?_, ?_, ?_⟩
      · simpa using cached
      · simpa using known
      · rw [World.setView_setView, World.view_setView]

theorem mask_idem (id : Nat) : mask (mask id) = mask id := by
  rw [mask, mask, Nat.mod_mod]

theorem returns_callFlush (masked : mask k = k) :
    Act.Returns (Server.callOwner k Callback.flush (Client.flushHandler env) : Ext Cid Unit) W () W' ↔
      ∃ v, View.Flushed env.flushed (W.view k) v ∧ W' = W.setView k v := by
  simp only [Server.callOwner, Act.returns_bind, Act.returns_get]
  constructor
  · rintro ⟨_, _, ⟨rfl, rfl⟩, called⟩
    split at called
    · rename_i o owned
      simp only [Act.returns_bind, Act.returns_emit] at called
      obtain ⟨_, _, rfl, handled⟩ := called
      obtain ⟨bytes, i, f, cached, known, live, rfl⟩ := (returns_flushHandler masked).mp handled
      exact ⟨_, .owned owned cached known live, rfl⟩
    · rename_i unowned
      obtain ⟨-, rfl⟩ := Act.returns_pure.mp called
      exact ⟨_, .unowned unowned, by simp⟩
  · rintro ⟨v, flushed, rfl⟩
    refine ⟨W, W, ⟨rfl, rfl⟩, ?_⟩
    cases flushed with
    | unowned free =>
      have unowned : W.server.ownerMap k = none := free
      simp [unowned]
    | @owned o bytes i f owned cached known live =>
      have named : W.server.ownerMap k = some o := owned
      simp only [named, Act.returns_bind, Act.returns_emit]
      exact ⟨(), W, rfl, (returns_flushHandler masked).mpr ⟨bytes, i, f, cached, known, live, rfl⟩⟩

/-- `extent_server::get` on the view of the id it masks. -/
theorem returns_serverGet {id : Nat} (masked : mask id = k) {buf : List UInt8} :
    Act.Returns (Server.get env cid id) W buf W' ↔
      ∃ v, View.ServerGet env cid (W.view k) buf v ∧ W' = W.setView k v := by
  subst masked
  simp only [Server.get, Act.returns_bind, Act.returns_get, Act.returns_modify, returns_orFault,
    Act.returns_pure, returns_callFlush (mask_idem id)]
  constructor
  · rintro ⟨_, _, ⟨u, flushed, rfl⟩, _, _, rfl, _, _, ⟨rfl, rfl⟩, ⟨bytes, files⟩, _, ⟨read, rfl⟩, _, _,
      rfl, rfl, rfl⟩
    obtain ⟨f, live, rfl, rfl⟩ := FileTable.readFile_some read
    refine ⟨_, ⟨u, f, flushed, ?_, rfl, rfl⟩, ?_⟩
    · simpa [World.setView] using live
    · rw [World.setFiles_eq, World.setOwner_eq]
      simp
  · rintro ⟨v, ⟨u, f, flushed, live, rfl, rfl⟩, rfl⟩
    have found : ((W.setView (mask id) u).setOwner (mask id) cid).server.files (mask id) = some f := by
      simpa [World.setView] using live
    refine ⟨(), _, ⟨u, flushed, rfl⟩, (), _, rfl, _, _, ⟨rfl, rfl⟩, _, _,
      ⟨by simp only [FileTable.readFile, found]; rfl, rfl⟩, (), _, rfl, rfl, ?_⟩
    rw [World.setFiles_eq, World.setOwner_eq]
    simp

omit [DecidableEq Cid] in
theorem returns_serverGetattr {id : Nat} {a : Attr} :
    Act.Returns (Server.getattr id) W a W' ↔ (W.view (mask id)).Serves a ∧ W' = W := by
  simp only [Server.getattr, Act.returns_bind, Act.returns_get]
  constructor
  · rintro ⟨_, _, ⟨rfl, rfl⟩, answered⟩
    split at answered
    · rename_i o owned
      simp only [Client.syncMetaHandler, Act.returns_bind, Act.returns_emit, Act.returns_get,
        returns_orFault, Act.returns_pure] at answered
      obtain ⟨_, _, rfl, _, _, ⟨rfl, rfl⟩, i, _, ⟨known, rfl⟩, rfl, rfl⟩ := answered
      exact ⟨.synced owned known, rfl⟩
    · rename_i unowned
      obtain ⟨rfl, rfl⟩ := Act.returns_pure.mp answered
      exact ⟨.stored unowned, rfl⟩
  · rintro ⟨served, rfl⟩
    refine ⟨W', W', ⟨rfl, rfl⟩, ?_⟩
    cases served with
    | stored free =>
      have unowned : W'.server.ownerMap (mask id) = none := free
      simp only [unowned]
      exact Act.returns_pure.mpr ⟨rfl, rfl⟩
    | @synced o i owned known =>
      have named : W'.server.ownerMap (mask id) = some o := owned
      simp only [named, Client.syncMetaHandler, Act.returns_bind, Act.returns_emit, Act.returns_get,
        returns_orFault, Act.returns_pure]
      exact ⟨(), W', rfl, W', W', ⟨rfl, rfl⟩, i, W', ⟨known, rfl⟩, rfl, rfl⟩

theorem returns_metadataCache {eid : Nat} {i : MetadataCache} :
    Act.Returns (Client.metadataCache env cid eid) W i W' ↔ i = (W.view eid).noted env.memory cid ∧
      W' = W.setView eid ((W.view eid).setInfo cid i) := by
  simp only [Client.metadataCache, Act.returns_bind, Act.returns_get]
  rcases found : (W.view eid).info cid with _ | info
  · have missing : (W.clients cid).metadataMap eid = none := found
    simp only [View.noted, found, Option.getD_none]
    constructor
    · rintro ⟨_, _, ⟨rfl, rfl⟩, created⟩
      simp only [missing, Act.returns_bind, Act.returns_modify, Act.returns_pure] at created
      obtain ⟨_, _, rfl, rfl, rfl⟩ := created
      exact ⟨rfl, World.setMetadata_eq ..⟩
    · rintro ⟨rfl, rfl⟩
      refine ⟨W, W, ⟨rfl, rfl⟩, ?_⟩
      simp only [missing, Act.returns_bind, Act.returns_modify]
      exact ⟨(), _, rfl, Act.returns_pure.mpr ⟨rfl, (World.setMetadata_eq ..).symm⟩⟩
  · have known : (W.clients cid).metadataMap eid = some info := found
    simp only [View.noted, found, Option.getD_some]
    constructor
    · rintro ⟨_, _, ⟨rfl, rfl⟩, read⟩
      simp only [known, Act.returns_pure] at read
      obtain ⟨rfl, rfl⟩ := read
      exact ⟨rfl, by rw [View.setInfo_self found, World.setView_view]⟩
    · rintro ⟨rfl, rfl⟩
      refine ⟨W, W, ⟨rfl, rfl⟩, ?_⟩
      simp only [known]
      exact Act.returns_pure.mpr ⟨rfl, by rw [View.setInfo_self found, World.setView_view]⟩

/-- `getattr` with the client's entry under `eid` and the server's under the masked id. -/
theorem returns_getattr {eid : Nat} {a : Attr} : Act.Returns (Client.getattr env cid eid) W a W' ↔
    (W.view eid).info cid = some ⟨.own, a⟩ ∧ W' = W ∨
    (∀ a, (W.view eid).info cid ≠ some ⟨.own, a⟩) ∧
      ((W.setView eid ((W.view eid).setInfo cid ((W.view eid).noted env.memory cid))).view
        (mask eid)).Serves a ∧
      W' = W.setView eid ((W.view eid).setInfo cid ⟨.own, a⟩) := by
  simp only [Client.getattr, Act.returns_bind, returns_metadataCache]
  by_cases stale : ((W.view eid).noted env.memory cid).stat ≠ .own
  · have missing := View.noted_stat.mp stale
    constructor
    · rintro ⟨_, _, ⟨rfl, rfl⟩, asked⟩
      simp only [if_pos stale, Act.returns_bind, returns_serverGetattr, Act.returns_modify,
        Act.returns_pure] at asked
      obtain ⟨_, _, ⟨served, rfl⟩, _, _, rfl, rfl, rfl⟩ := asked
      refine .inr ⟨missing, served, ?_⟩
      rw [World.setMetadata_eq]
      simp
    · rintro (⟨own, _⟩ | ⟨_, served, rfl⟩)
      · exact absurd own (missing a)
      · refine ⟨_, _, ⟨rfl, rfl⟩, ?_⟩
        simp only [if_pos stale, Act.returns_bind, returns_serverGetattr, Act.returns_modify]
        refine ⟨a, _, ⟨served, rfl⟩, (), _, rfl, Act.returns_pure.mpr ⟨rfl, ?_⟩⟩
        rw [World.setMetadata_eq]
        simp
  · obtain ⟨b, own⟩ : ∃ b, (W.view eid).info cid = some ⟨.own, b⟩ := by
      by_contra none
      exact stale (View.noted_stat.mpr (not_exists.mp none))
    have noted : (W.view eid).noted env.memory cid = ⟨.own, b⟩ := by simp [View.noted, own]
    have same : W.setView eid ((W.view eid).setInfo cid ⟨.own, b⟩) = W := by
      rw [View.setInfo_self own, World.setView_view]
    constructor
    · rintro ⟨_, _, ⟨rfl, rfl⟩, cached⟩
      rw [if_neg stale, noted] at cached
      obtain ⟨rfl, rfl⟩ := Act.returns_pure.mp cached
      exact .inl ⟨own, same⟩
    · rintro (⟨own', rfl⟩ | ⟨missing, _⟩)
      · cases own.symm.trans own'
        refine ⟨_, _, ⟨rfl, rfl⟩, ?_⟩
        rw [if_neg stale, noted]
        exact Act.returns_pure.mpr ⟨rfl, same.symm⟩
      · exact absurd own (missing b)

/-- `getattr` of an id that the server does not mask away. -/
theorem returns_getattr_iff (masked : mask k = k) {a : Attr} :
    Act.Returns (Client.getattr env cid k) W a W' ↔
      ∃ v, View.Getattr env.memory cid (W.view k) a v ∧ W' = W.setView k v := by
  rw [returns_getattr, masked, World.view_setView]
  constructor
  · rintro (⟨own, rfl⟩ | ⟨stale, served, rfl⟩)
    · exact ⟨_, .cached own, by simp⟩
    · exact ⟨_, .asked stale served, rfl⟩
  · rintro ⟨v, answered, rfl⟩
    cases answered with
    | cached own => exact .inl ⟨own, by simp⟩
    | asked stale served => exact .inr ⟨stale, served, rfl⟩

/-- Looking the entry up before `getattr` does so changes nothing. -/
theorem returns_getattr_noted {eid : Nat} {a : Attr}
    (stale : ((W.view eid).noted env.memory cid).stat ≠ .own) :
    Act.Returns (Client.getattr env cid eid)
      (W.setView eid ((W.view eid).setInfo cid ((W.view eid).noted env.memory cid))) a W' ↔
      Act.Returns (Client.getattr env cid eid) W a W' := by
  have missing := View.noted_stat.mp stale
  have noted : ∀ a, some ((W.view eid).noted env.memory cid) ≠ some ⟨.own, a⟩ := by
    intro a same
    exact stale (congrArg MetadataCache.stat (Option.some.inj same))
  have again : ((W.view eid).setInfo cid ((W.view eid).noted env.memory cid)).noted env.memory cid =
      (W.view eid).noted env.memory cid := by
    simp [View.noted]
  rw [returns_getattr, returns_getattr]
  simp only [World.view_setView, View.setInfo_info, if_true, again, World.setView_setView,
    View.setInfo_setInfo]
  simp only [noted, missing, ne_eq, not_false_eq_true, implies_true, false_and, false_or]

theorem returns_fetch {eid : Nat} {buf : List UInt8} :
    Act.Returns (Client.fetch env cid eid) W buf W' ↔ ∃ a W₁ v,
      Act.Returns (Client.getattr env cid eid) W a W₁ ∧
      View.ServerGet env cid (W₁.view (mask eid)) buf v ∧
      W' = (W₁.setView (mask eid) v).setData cid eid ⟨.own, buf⟩ := by
  simp only [Client.fetch, Act.returns_bind, returns_metadataCache, Act.returns_modify,
    Act.returns_pure, Act.returns_when, returns_serverGet (k := mask eid) rfl]
  by_cases stale : ((W.view eid).noted env.memory cid).stat ≠ .own
  · have none : ((W.view eid).noted env.memory cid).stat = .none := by
      cases stat : ((W.view eid).noted env.memory cid).stat with
      | none => rfl
      | own => exact absurd stat stale
    constructor
    · rintro ⟨_, _, ⟨rfl, rfl⟩, _, _, known, _, _, ⟨v, served, rfl⟩, _, _, rfl, rfl, rfl⟩
      obtain ⟨_, a, _, asked, -, rfl⟩ | ⟨own, _⟩ := known
      · exact ⟨a, _, v, (returns_getattr_noted stale).mp asked, served, rfl⟩
      · exact absurd none own
    · rintro ⟨a, W₁, v, asked, served, rfl⟩
      exact ⟨_, _, ⟨rfl, rfl⟩, (), W₁, .inl ⟨none, a, W₁, (returns_getattr_noted stale).mpr asked,
        trivial, rfl⟩, buf, _, ⟨v, served, rfl⟩, (), _, rfl, rfl, rfl⟩
  · have own : ((W.view eid).noted env.memory cid).stat = .own := Decidable.not_not.mp stale
    obtain ⟨b, cached⟩ : ∃ b, (W.view eid).info cid = some ⟨.own, b⟩ := by
      by_contra none
      exact stale (View.noted_stat.mpr (not_exists.mp none))
    have same : W.setView eid ((W.view eid).setInfo cid ((W.view eid).noted env.memory cid)) = W := by
      simp [View.noted, cached, View.setInfo_self cached]
    constructor
    · rintro ⟨_, _, ⟨rfl, rfl⟩, _, _, known, _, _, ⟨v, served, rfl⟩, _, _, rfl, rfl, rfl⟩
      obtain ⟨none, _⟩ | ⟨_, rfl⟩ := known
      · rw [own] at none
        cases none
      · rw [same] at served ⊢
        exact ⟨b, W, v, returns_getattr.mpr (.inl ⟨cached, rfl⟩), served, rfl⟩
    · rintro ⟨a, W₁, v, asked, served, rfl⟩
      obtain ⟨_, rfl⟩ | ⟨missing, _⟩ := returns_getattr.mp asked
      · exact ⟨_, _, ⟨rfl, rfl⟩, (), W₁, .inr ⟨by simp [own], same.symm⟩, buf, _, ⟨v, served, rfl⟩,
          (), _, rfl, rfl, rfl⟩
      · exact absurd cached (missing b)

/-- `fetch` of an id that the server does not mask away. -/
theorem returns_fetch_iff (masked : mask k = k) {buf : List UInt8} :
    Act.Returns (Client.fetch env cid k) W buf W' ↔
      ∃ v, View.Fetch env cid (W.view k) buf v ∧ W' = W.setView k v := by
  rw [returns_fetch, masked]
  constructor
  · rintro ⟨a, _, w, asked, served, rfl⟩
    obtain ⟨u, answered, rfl⟩ := (returns_getattr_iff masked).mp asked
    rw [World.view_setView] at served
    refine ⟨_, ⟨a, u, w, answered, served, rfl⟩, ?_⟩
    rw [World.setData_eq]
    simp
  · rintro ⟨_, ⟨a, u, w, answered, served, rfl⟩, rfl⟩
    refine ⟨a, _, w, (returns_getattr_iff masked).mpr ⟨u, answered, rfl⟩, ?_, ?_⟩
    · rwa [World.view_setView]
    · rw [World.setData_eq]
      simp

/-- `data_map[eid]` of a client, created where it is missing. -/
theorem returns_dataCache {eid : Nat} {cache : DataCache} :
    Act.Returns (Client.dataCache cid eid) W cache W' ↔ cache = ((W.view eid).data cid).getD .new ∧
      W' = W.setView eid ((W.view eid).setData cid cache) := by
  simp only [Client.dataCache, Act.returns_bind, Act.returns_get]
  rcases found : (W.view eid).data cid with _ | old
  · have missing : (W.clients cid).dataMap eid = none := found
    constructor
    · rintro ⟨_, _, ⟨rfl, rfl⟩, created⟩
      simp only [missing, Act.returns_bind, Act.returns_modify, Act.returns_pure] at created
      obtain ⟨_, _, rfl, rfl, rfl⟩ := created
      exact ⟨rfl, World.setData_eq ..⟩
    · rintro ⟨rfl, rfl⟩
      refine ⟨W, W, ⟨rfl, rfl⟩, ?_⟩
      simp only [missing, Act.returns_bind, Act.returns_modify]
      exact ⟨(), _, rfl, Act.returns_pure.mpr ⟨rfl, (World.setData_eq ..).symm⟩⟩
  · have cached : (W.clients cid).dataMap eid = some old := found
    constructor
    · rintro ⟨_, _, ⟨rfl, rfl⟩, read⟩
      simp only [cached, Act.returns_pure] at read
      obtain ⟨rfl, rfl⟩ := read
      exact ⟨rfl, by rw [View.setData_self found, World.setView_view]⟩
    · rintro ⟨rfl, rfl⟩
      refine ⟨W, W, ⟨rfl, rfl⟩, ?_⟩
      simp only [cached]
      exact Act.returns_pure.mpr ⟨rfl, by rw [View.setData_self found, World.setView_view]⟩

/-- `get` with the client's entries under `eid`. -/
theorem returns_get {eid : Nat} {buf : List UInt8} : Act.Returns (Client.get env cid eid) W buf W' ↔
    (W.view eid).data cid = some ⟨.own, buf⟩ ∧ (eid = 1 ∧ W' = W ∨ eid ≠ 1 ∧ ∃ i,
      (W.view eid).info cid = some i ∧ W' = W.setView eid ((W.view eid).setInfo cid
        { i with metadata := { i.metadata with atime := env.client.atime } })) ∨
    (∀ b, (W.view eid).data cid ≠ some ⟨.own, b⟩) ∧ Act.Returns (Client.fetch env cid eid)
      (W.setView eid ((W.view eid).setData cid (((W.view eid).data cid).getD .new))) buf W' := by
  simp only [Client.get, Act.returns_bind, returns_dataCache]
  by_cases own : ∃ b, (W.view eid).data cid = some ⟨.own, b⟩
  · obtain ⟨b, cached⟩ := own
    have same : W.setView eid ((W.view eid).setData cid ⟨.own, b⟩) = W := by
      rw [View.setData_self cached, World.setView_view]
    simp only [cached, Option.getD_some]
    constructor
    · rintro ⟨_, _, ⟨rfl, rfl⟩, read⟩
      simp only [if_pos, Act.returns_bind, Act.returns_when, Act.returns_get, returns_orFault,
        Act.returns_modify, Act.returns_pure, same] at read
      obtain ⟨_, W₁, known, rfl, rfl⟩ := read
      refine .inl ⟨rfl, ?_⟩
      rcases known with ⟨other, _, _, ⟨rfl, rfl⟩, i, _, ⟨described, rfl⟩, rfl⟩ | ⟨first, rfl⟩
      · exact .inr ⟨other, i, described, World.setMetadata_eq ..⟩
      · exact .inl ⟨Decidable.not_not.mp first, rfl⟩
    · rintro (⟨⟨⟩, known⟩ | ⟨stale, _⟩)
      · refine ⟨_, _, ⟨rfl, rfl⟩, ?_⟩
        simp only [if_pos, Act.returns_bind, Act.returns_when, Act.returns_get, returns_orFault,
          Act.returns_modify, same]
        refine ⟨(), W', ?_, Act.returns_pure.mpr ⟨rfl, rfl⟩⟩
        rcases known with ⟨first, rfl⟩ | ⟨other, i, described, rfl⟩
        · exact .inr ⟨by simp [first], rfl⟩
        · exact .inl ⟨other, W, W, ⟨rfl, rfl⟩, i, W, ⟨described, rfl⟩, (World.setMetadata_eq ..).symm⟩
      · exact absurd rfl (stale b)
  · have stale := not_exists.mp own
    have none : (((W.view eid).data cid).getD .new).stat ≠ .own := by
      rcases found : (W.view eid).data cid with _ | ⟨stat, data⟩
      · simp [DataCache.new]
      · intro owns
        simp only [Option.getD_some] at owns
        subst owns
        exact stale data found
    constructor
    · rintro ⟨_, _, ⟨rfl, rfl⟩, fetched⟩
      rw [if_neg none] at fetched
      exact .inr ⟨stale, fetched⟩
    · rintro (⟨cached, _⟩ | ⟨_, fetched⟩)
      · exact absurd cached (stale buf)
      · refine ⟨_, _, ⟨rfl, rfl⟩, ?_⟩
        rw [if_neg none]
        exact fetched

omit [DecidableEq Cid] in
theorem stat_opened {v : View Cid} (stale : ∀ b, v.data cid ≠ some ⟨.own, b⟩) :
    ((v.data cid).getD .new).stat = .none := by
  rcases found : v.data cid with _ | ⟨stat, data⟩
  · rfl
  · cases stat with
    | none => rfl
    | own => exact absurd found (stale data)

/-- `get` of an id that the server does not mask away. -/
theorem returns_get_iff (masked : mask k = k) {buf : List UInt8} :
    Act.Returns (Client.get env cid k) W buf W' ↔
      ∃ v, View.Get env cid k (W.view k) buf v ∧ W' = W.setView k v := by
  rw [returns_get]
  constructor
  · rintro (⟨own, ⟨first, rfl⟩ | ⟨other, i, described, rfl⟩⟩ | ⟨stale, fetched⟩)
    · exact ⟨_, .root own first, by simp⟩
    · exact ⟨_, .cached own other described, rfl⟩
    · obtain ⟨v, through, rfl⟩ := (returns_fetch_iff masked).mp fetched
      rw [World.view_setView, View.fetch_iff (stat_opened stale)] at through
      exact ⟨v, .fetched stale through, by simp⟩
  · rintro ⟨v, got, rfl⟩
    cases got with
    | root own first => exact .inl ⟨own, .inl ⟨first, by simp⟩⟩
    | cached own other described => exact .inl ⟨own, .inr ⟨other, _, described, rfl⟩⟩
    | fetched stale through =>
      refine .inr ⟨stale, (returns_fetch_iff masked).mpr ⟨v, ?_, by simp⟩⟩
      rwa [World.view_setView, View.fetch_iff (stat_opened stale)]

/-- A client owns what it has fetched. -/
theorem owns_of_fetch {eid : Nat} {buf : List UInt8}
    (fetched : Act.Returns (Client.fetch env cid eid) W buf W') :
    (W'.view eid).data cid = some ⟨.own, buf⟩ := by
  obtain ⟨a, W₁, v, -, -, rfl⟩ := returns_fetch.mp fetched
  rw [World.setData_eq, World.view_setView, View.setData_data, if_pos rfl]

theorem returns_fill {eid : Nat} {buf old : List UInt8}
    (own : (W.view eid).data cid = some ⟨.own, old⟩) :
    Act.Returns (Client.fill env cid eid buf) W () W' ↔
      W' = W.setView eid (View.filled env cid (W.view eid) buf) := by
  simp only [Client.fill, Act.returns_bind, returns_metadataCache, Act.returns_modify, returns_dataCache]
  have finished (i : MetadataCache) : ((W.view eid).setInfo cid i).data cid = some ⟨.own, old⟩ := own
  constructor
  · rintro ⟨_, _, ⟨rfl, rfl⟩, _, _, rfl, _, _, ⟨rfl, rfl⟩, rfl⟩
    simp only [World.setMetadata_eq, World.setData_eq, World.view_setView, World.setView_setView,
      View.setInfo_setInfo, finished, Option.getD_some, View.setData_setData]
    rfl
  · rintro rfl
    refine ⟨_, _, ⟨rfl, rfl⟩, (), _, rfl, _, _, ⟨rfl, rfl⟩, ?_⟩
    simp only [World.setMetadata_eq, World.setData_eq, World.view_setView, World.setView_setView,
      View.setInfo_setInfo, finished, Option.getD_some, View.setData_setData]
    rfl

theorem returns_put {eid : Nat} {buf : List UInt8} : Act.Returns (Client.put env cid eid buf) W () W' ↔
    (∃ old, (W.view eid).data cid = some ⟨.own, old⟩ ∧
      W' = W.setView eid (View.filled env cid (W.view eid) buf)) ∨
    (∀ b, (W.view eid).data cid ≠ some ⟨.own, b⟩) ∧ ∃ old W₁, Act.Returns (Client.fetch env cid eid)
      (W.setView eid ((W.view eid).setData cid (((W.view eid).data cid).getD .new))) old W₁ ∧
      W' = W₁.setView eid (View.filled env cid (W₁.view eid) buf) := by
  rw [Client.put, Act.returns_bind]
  simp only [returns_dataCache]
  by_cases own : ∃ b, (W.view eid).data cid = some ⟨.own, b⟩
  · obtain ⟨b, cached⟩ := own
    have same : W.setView eid ((W.view eid).setData cid ⟨.own, b⟩) = W := by
      rw [View.setData_self cached, World.setView_view]
    constructor
    · rintro ⟨_, _, ⟨rfl, rfl⟩, put⟩
      obtain ⟨_, _, skipped, filled⟩ := Act.returns_bind.mp put
      rw [cached, Option.getD_some, same] at skipped
      rcases Act.returns_when.mp skipped with ⟨stale, _⟩ | ⟨_, rfl⟩
      · simp at stale
      · exact .inl ⟨b, cached, (returns_fill cached).mp filled⟩
    · rintro (⟨_, _, rfl⟩ | ⟨stale, _⟩)
      · refine ⟨_, _, ⟨rfl, rfl⟩, Act.returns_bind.mpr ⟨(), W, ?_, (returns_fill cached).mpr rfl⟩⟩
        rw [cached, Option.getD_some, same]
        exact Act.returns_when.mpr (.inr ⟨by simp, rfl⟩)
      · exact absurd cached (stale b)
  · have stale := not_exists.mp own
    have none := stat_opened stale
    let W₀ := W.setView eid ((W.view eid).setData cid (((W.view eid).data cid).getD .new))
    have opened : (W₀.view eid).data cid = some (((W.view eid).data cid).getD .new) := by simp [W₀]
    have still : ∀ b, (W₀.view eid).data cid ≠ some ⟨.own, b⟩ := by
      intro b owns
      rw [opened] at owns
      rw [Option.some.inj owns] at none
      cases none
    have again : W₀.setView eid ((W₀.view eid).setData cid (((W₀.view eid).data cid).getD .new)) = W₀ := by
      rw [opened, Option.getD_some, View.setData_self opened, World.setView_view]
    constructor
    · rintro ⟨_, _, ⟨rfl, rfl⟩, put⟩
      obtain ⟨_, W₁, got, filled⟩ := Act.returns_bind.mp put
      rcases Act.returns_when.mp got with ⟨_, fetched⟩ | ⟨owns, _⟩
      · obtain ⟨old, _, got, unit⟩ := Act.returns_bind.mp fetched
        obtain ⟨-, rfl⟩ := Act.returns_pure.mp unit
        rcases returns_get.mp got with ⟨cached, _⟩ | ⟨_, fetched⟩
        · exact absurd cached (still old)
        · rw [again] at fetched
          exact .inr ⟨stale, old, W₁, fetched, (returns_fill (owns_of_fetch fetched)).mp filled⟩
      · rw [none] at owns
        exact absurd (by simp) owns
    · rintro (⟨old, cached, _⟩ | ⟨_, old, W₁, fetched, rfl⟩)
      · exact absurd cached (stale old)
      · refine ⟨_, W₀, ⟨rfl, rfl⟩, Act.returns_bind.mpr ⟨(), W₁, ?_,
          (returns_fill (owns_of_fetch fetched)).mpr rfl⟩⟩
        refine Act.returns_when.mpr (.inl ⟨by simp [none], ?_⟩)
        refine Act.returns_bind.mpr ⟨old, W₁, returns_get.mpr (.inr ⟨still, ?_⟩),
          Act.returns_pure.mpr ⟨rfl, rfl⟩⟩
        rw [again]
        exact fetched

/-- `put` of an id that the server does not mask away. -/
theorem returns_put_iff (masked : mask k = k) {buf : List UInt8} :
    Act.Returns (Client.put env cid k buf) W () W' ↔
      ∃ v, View.Put env cid (W.view k) buf v ∧ W' = W.setView k v := by
  rw [returns_put]
  constructor
  · rintro (⟨old, own, rfl⟩ | ⟨stale, old, W₁, fetched, rfl⟩)
    · exact ⟨_, .owned own, rfl⟩
    · obtain ⟨v, through, rfl⟩ := (returns_fetch_iff masked).mp fetched
      rw [World.view_setView, View.fetch_iff (stat_opened stale)] at through
      exact ⟨_, .fetched stale through, by simp⟩
  · rintro ⟨v, put, rfl⟩
    cases put with
    | owned own => exact .inl ⟨_, own, rfl⟩
    | fetched stale through =>
      have opened := (View.fetch_iff (stat_opened stale)).mpr through
      exact .inr ⟨stale, _, _, (returns_fetch_iff masked).mpr ⟨_, by rwa [World.view_setView], rfl⟩,
        by simp⟩

/-- `extent_server::remove` on the view of the id it masks. -/
theorem returns_remove {id : Nat} : Act.Returns (Client.remove id : Ext Cid Unit) W () W' ↔
    ∃ v, View.Removed (W.view (mask id)) v ∧ W' = W.setView (mask id) v := by
  simp only [Client.remove, Server.remove, Server.callOwner, Act.returns_bind, Act.returns_get,
    returns_orFault, Act.returns_modify]
  constructor
  · rintro ⟨_, W₁, ⟨_, _, ⟨rfl, rfl⟩, called⟩, _, _, ⟨rfl, rfl⟩, files, _, ⟨removed, rfl⟩, rfl⟩
    obtain ⟨f, live, rfl⟩ := FileTable.removeFile_some removed
    rw [World.setFiles_eq]
    split at called
    · rename_i o owned
      simp only [Act.returns_bind, Act.returns_emit] at called
      obtain ⟨_, _, rfl, cleared⟩ := called
      obtain ⟨cache, i, cached, known, rfl⟩ := returns_clearHandler.mp cleared
      rename_i W
      have found : (W.view (mask id)).file = some f := by simpa [World.setView] using live
      exact ⟨_, .owned owned cached known (by simp [found]), by simp⟩
    · rename_i unowned
      obtain ⟨-, rfl⟩ := Act.returns_pure.mp called
      exact ⟨_, .unowned unowned (Option.ne_none_iff_exists'.mpr ⟨f, live⟩), rfl⟩
  · rintro ⟨v, removed, rfl⟩
    cases removed with
    | unowned free live =>
      have unowned : W.server.ownerMap (mask id) = none := free
      obtain ⟨f, found⟩ := Option.ne_none_iff_exists'.mp live
      have there : W.server.files (mask id) = some f := found
      refine ⟨(), W, ⟨W, W, ⟨rfl, rfl⟩, by simp [unowned]⟩, W, W, ⟨rfl, rfl⟩,
        Function.update W.server.files (mask id) none, W, ⟨by simp [FileTable.removeFile, there], rfl⟩, ?_⟩
      rw [World.setFiles_eq]
    | @owned o cache i owned cached known live =>
      have owner : W.server.ownerMap (mask id) = some o := owned
      obtain ⟨f, found⟩ := Option.ne_none_iff_exists'.mp live
      let W₁ := W.setView (mask id) (((W.view (mask id)).setData o { cache with stat := .none }).setInfo o
        { i with stat := .none })
      have cleared : Act.Returns (Client.clearHandler o (mask id)) W () W₁ :=
        returns_clearHandler.mpr ⟨cache, i, cached, known, rfl⟩
      have there : W₁.server.files (mask id) = some f := by simpa [W₁, World.setView] using found
      refine ⟨(), W₁, ⟨W, W, ⟨rfl, rfl⟩, by simpa [owner] using cleared⟩, W₁, W₁, ⟨rfl, rfl⟩,
        Function.update W₁.server.files (mask id) none, W₁, ⟨by simp [FileTable.removeFile, there], rfl⟩, ?_⟩
      rw [World.setFiles_eq]
      simp [W₁]

end Calls

/-- The id a request names. -/
def Request.eid : Request → Nat
  | .get eid | .put eid _ | .getattr eid | .remove eid => eid

/-- What a call does to the view of the id `k`. An `alias` is another id that the server
masks to `k`: the server acts on `k` while the client's cache has the other id. -/
inductive View.Move [DecidableEq Cid] (cid : Cid) (k : Nat) :
    Call → Answer → View Cid → View Cid → Prop where
  | created (dead : v.file = none) (found : k ≠ 0) :
      Move cid k (.create type) (.id k) v (v.setFile (some (.new type now)))
  | other (apart : eid ≠ k ∨ eid = 0) : Move cid k (.create type) (.id eid) v v
  | got (got : Get env cid k v buf v') : Move cid k (.request (.get k)) (.data buf) v v'
  | put (put : Put env cid v buf v') : Move cid k (.request (.put k buf)) .done v v'
  | asked (asked : Getattr memory cid v a v') : Move cid k (.request (.getattr k)) (.attr a) v v'
  | removed (masked : mask eid = k) (removed : Removed v v') :
      Move cid k (.request (.remove eid)) .done v v'
  | aliased (masked : mask r.eid = k) (other : r.eid ≠ k) (served : ServerGet env cid v buf v') :
      Move cid k (.request r) answer v v'
  | idle (apart : r.eid ≠ k) : Move cid k (.request r) answer v v

section Steps

variable [DecidableEq Cid] {W W' : World Cid} {k : Nat} {env : Env} {cid : Cid}

/-- A `fetch` of another id. -/
theorem fetch_elsewhere {eid : Nat} {buf : List UInt8} (apart : k ≠ eid)
    (fetched : Act.Returns (Client.fetch env cid eid) W buf W') :
    W'.view k = W.view k ∨ mask eid = k ∧ View.ServerGet env cid (W.view k) buf (W'.view k) := by
  obtain ⟨a, W₁, v, asked, served, rfl⟩ := returns_fetch.mp fetched
  have first : W₁.view k = W.view k := by
    rcases returns_getattr.mp asked with ⟨_, rfl⟩ | ⟨_, _, rfl⟩
    · rfl
    · exact W.view_setView_ne eid _ apart
  rw [World.setData_eq, World.view_setView_ne _ _ _ apart]
  by_cases masked : mask eid = k
  · subst masked
    rw [World.view_setView]
    exact .inr ⟨rfl, first ▸ served⟩
  · rw [World.view_setView_ne _ _ _ (Ne.symm masked)]
    exact .inl first

/-- What opening the cache entry of another id does to the view of `k`. -/
theorem move_fetch {eid : Nat} {r : Request} {answer : Answer} {buf : List UInt8} {cache : DataCache}
    (apart : k ≠ eid) (named : r.eid = eid)
    (fetched : Act.Returns (Client.fetch env cid eid) (W.setView eid ((W.view eid).setData cid cache))
      buf W') : View.Move cid k (.request r) answer (W.view k) (W'.view k) := by
  have other : r.eid ≠ k := named ▸ Ne.symm apart
  have opened := W.view_setView_ne eid ((W.view eid).setData cid cache) apart
  rcases fetch_elsewhere apart fetched with same | ⟨masked, served⟩
  · rw [same, opened]
    exact .idle other
  · rw [opened] at served
    exact .aliased (named ▸ masked) other served

theorem move_request {r : Request} {answer : Answer} (masked : mask k = k)
    (ran : Act.Returns (r.run env cid) W answer W') :
    View.Move cid k (.request r) answer (W.view k) (W'.view k) := by
  cases r with
  | get eid =>
    simp only [Request.run, Act.returns_bind, Act.returns_pure] at ran
    obtain ⟨buf, _, got, rfl, rfl⟩ := ran
    by_cases same : k = eid
    · subst same
      obtain ⟨v, seen, rfl⟩ := (returns_get_iff masked).mp got
      rw [World.view_setView]
      exact .got seen
    · rcases returns_get.mp got with ⟨_, ⟨_, rfl⟩ | ⟨_, i, _, rfl⟩⟩ | ⟨_, fetched⟩
      · exact .idle (Ne.symm same)
      · rw [World.view_setView_ne _ _ _ same]
        exact .idle (Ne.symm same)
      · exact move_fetch same rfl fetched
  | put eid buf =>
    simp only [Request.run, Act.returns_bind, Act.returns_pure] at ran
    obtain ⟨_, _, put, rfl, rfl⟩ := ran
    by_cases same : k = eid
    · subst same
      obtain ⟨v, seen, rfl⟩ := (returns_put_iff masked).mp put
      rw [World.view_setView]
      exact .put seen
    · rcases returns_put.mp put with ⟨_, _, rfl⟩ | ⟨_, old, W₁, fetched, rfl⟩
      · rw [World.view_setView_ne _ _ _ same]
        exact .idle (Ne.symm same)
      · rw [World.view_setView_ne _ _ _ same]
        exact move_fetch same rfl fetched
  | getattr eid =>
    simp only [Request.run, Act.returns_bind, Act.returns_pure] at ran
    obtain ⟨a, _, asked, rfl, rfl⟩ := ran
    by_cases same : k = eid
    · subst same
      obtain ⟨v, seen, rfl⟩ := (returns_getattr_iff masked).mp asked
      rw [World.view_setView]
      exact .asked seen
    · rcases returns_getattr.mp asked with ⟨_, rfl⟩ | ⟨_, _, rfl⟩
      · exact .idle (Ne.symm same)
      · rw [World.view_setView_ne _ _ _ same]
        exact .idle (Ne.symm same)
  | remove eid =>
    simp only [Request.run, Act.returns_bind, Act.returns_pure] at ran
    obtain ⟨_, _, removed, rfl, rfl⟩ := ran
    obtain ⟨v, gone, rfl⟩ := returns_remove.mp removed
    by_cases same : mask eid = k
    · subst same
      rw [World.view_setView]
      exact .removed rfl gone
    · rw [World.view_setView_ne _ _ _ (Ne.symm same)]
      refine .idle ?_
      rintro rfl
      exact same masked

/-- Every call moves the view of an id that is not masked away. -/
theorem World.Step.move {call : Call} {answer : Answer} (step : W.Step cid call answer W')
    (masked : mask k = k) : View.Move cid k call answer (W.view k) (W'.view k) := by
  cases step with
  | @create type memory now eid files alloc =>
    cases alloc with
    | full _ => exact .other (.inr rfl)
    | alloc dead range =>
      rw [World.setFiles_eq]
      by_cases same : eid = k
      · subst same
        rw [World.view_setView]
        exact .created dead (Nat.ne_of_gt range.1)
      · rw [World.view_setView_ne _ _ _ (Ne.symm same)]
        exact .other (.inl same)
  | request ran => exact move_request masked ran

/-- What a `fetch` does not touch: the files that are not those of the masked id. -/
theorem files_fetch {eid : Nat} {buf : List UInt8} (apart : k ≠ mask eid)
    (fetched : Act.Returns (Client.fetch env cid eid) W buf W') :
    W'.server.files k = W.server.files k := by
  obtain ⟨a, W₁, v, asked, -, rfl⟩ := returns_fetch.mp fetched
  rw [World.setData_server, World.files_setView, if_neg apart]
  rcases returns_getattr.mp asked with ⟨-, rfl⟩ | ⟨-, -, rfl⟩
  · rfl
  · exact congrFun (World.files_setView_same rfl) k

theorem files_request {r : Request} {answer : Answer} (apart : k ≠ mask r.eid)
    (ran : Act.Returns (r.run env cid) W answer W') : W'.server.files k = W.server.files k := by
  cases r with
  | get eid =>
    simp only [Request.run, Act.returns_bind, Act.returns_pure] at ran
    obtain ⟨buf, _, got, -, rfl⟩ := ran
    rcases returns_get.mp got with ⟨-, ⟨-, rfl⟩ | ⟨-, i, -, rfl⟩⟩ | ⟨-, fetched⟩
    · rfl
    · exact congrFun (World.files_setView_same rfl) k
    · rw [files_fetch apart fetched, World.files_setView_same rfl]
  | put eid buf =>
    simp only [Request.run, Act.returns_bind, Act.returns_pure] at ran
    obtain ⟨_, _, put, -, rfl⟩ := ran
    rcases returns_put.mp put with ⟨_, -, rfl⟩ | ⟨-, old, W₁, fetched, rfl⟩
    · exact congrFun (World.files_setView_same rfl) k
    · rw [World.files_setView_same rfl, files_fetch apart fetched, World.files_setView_same rfl]
  | getattr eid =>
    simp only [Request.run, Act.returns_bind, Act.returns_pure] at ran
    obtain ⟨a, _, asked, -, rfl⟩ := ran
    rcases returns_getattr.mp asked with ⟨-, rfl⟩ | ⟨-, -, rfl⟩
    · rfl
    · exact congrFun (World.files_setView_same rfl) k
  | remove eid =>
    simp only [Request.run, Act.returns_bind, Act.returns_pure] at ran
    obtain ⟨_, _, removed, -, rfl⟩ := ran
    obtain ⟨v, -, rfl⟩ := returns_remove.mp removed
    rw [World.files_setView]
    exact if_neg apart

/-- The files under ids that the server masks away are never touched. -/
theorem World.Step.files_unmasked {call : Call} {answer : Answer} (step : W.Step cid call answer W')
    (away : mask k ≠ k) : W'.server.files k = W.server.files k := by
  cases step with
  | create alloc =>
    rcases FileTable.alloc_cases alloc with ⟨-, rfl⟩ | ⟨-, small, rfl⟩
    · rfl
    · refine Function.update_of_ne ?_ _ _
      rintro rfl
      exact away (mask_of_lt small)
  | request ran =>
    refine files_request ?_ ran
    rintro rfl
    exact away (mask_idem _)

end Steps

end Yfs.Extent
