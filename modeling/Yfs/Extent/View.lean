import Yfs.Extent.Coherence

/-! One extent at a time: what the server and the caches of all clients hold for an id,
and what every call does to it. The calls on other ids leave it alone. -/

namespace Yfs.Store

/-- A file after `write_file`. -/
def File.write (file : File) (bytes : List UInt8) (now : Clock) : File :=
  { file with bytes := bytes, atime := now.atime, mtime := now.mtime, ctime := now.ctime }

@[simp] theorem File.write_type (file : File) (bytes : List UInt8) (now : Clock) :
    (file.write bytes now).type = file.type := rfl

@[simp] theorem File.write_bytes (file : File) (bytes : List UInt8) (now : Clock) :
    (file.write bytes now).bytes = bytes := rfl

end Yfs.Store

namespace Yfs.Extent

open Yfs.Lib Yfs.Store

variable {Cid : Type}

/-- Everything that is kept for one id: the file, the entry of `owner_map`, and the
entries of every client's `data_map` and `metadata_map`. -/
@[ext] structure View (Cid : Type) where
  file : Option File
  owner : Option Cid
  data : Cid → Option DataCache
  info : Cid → Option MetadataCache

def World.view (W : World Cid) (k : Nat) : View Cid :=
  { file := W.server.files k
    owner := W.server.ownerMap k
    data := fun c => (W.clients c).dataMap k
    info := fun c => (W.clients c).metadataMap k }

def World.setView (W : World Cid) (k : Nat) (v : View Cid) : World Cid :=
  { server := ⟨Function.update W.server.files k v.file, Function.update W.server.ownerMap k v.owner⟩
    clients := fun c => ⟨Function.update (W.clients c).dataMap k (v.data c),
      Function.update (W.clients c).metadataMap k (v.info c)⟩ }

namespace World

variable (W : World Cid) (k : Nat) (v : View Cid)

@[simp] theorem view_setView : (W.setView k v).view k = v := by simp [view, setView]

theorem view_setView_ne {j : Nat} (other : j ≠ k) : (W.setView k v).view j = W.view j := by
  simp [view, setView, other]

@[simp] theorem setView_view : W.setView k (W.view k) = W := by simp [view, setView]

theorem files_setView (j : Nat) :
    (W.setView k v).server.files j = if j = k then v.file else W.server.files j :=
  Function.update_apply ..

variable {W k v} in
/-- A view in which the file is the same. -/
theorem files_setView_same (same : v.file = W.server.files k) :
    (W.setView k v).server.files = W.server.files := by
  simp [setView, same]

@[simp] theorem setView_setView (u : View Cid) : (W.setView k v).setView k u = W.setView k u := by
  simp [setView]

end World

namespace View

variable (v : View Cid)

def setFile (file : Option File) : View Cid := { v with file }

def setOwner (cid : Cid) : View Cid := { v with owner := some cid }

variable [DecidableEq Cid]

def setData (cid : Cid) (cache : DataCache) : View Cid :=
  { v with data := Function.update v.data cid (some cache) }

def setInfo (cid : Cid) (info : MetadataCache) : View Cid :=
  { v with info := Function.update v.info cid (some info) }

variable (file : Option File) (cid c : Cid) (cache : DataCache) (i : MetadataCache)

omit [DecidableEq Cid] in
@[simp] theorem setFile_file : (v.setFile file).file = file := rfl

omit [DecidableEq Cid] in
@[simp] theorem setFile_owner : (v.setFile file).owner = v.owner := rfl

omit [DecidableEq Cid] in
@[simp] theorem setFile_data : (v.setFile file).data = v.data := rfl

omit [DecidableEq Cid] in
@[simp] theorem setFile_info : (v.setFile file).info = v.info := rfl

omit [DecidableEq Cid] in
@[simp] theorem setOwner_file : (v.setOwner cid).file = v.file := rfl

omit [DecidableEq Cid] in
@[simp] theorem setOwner_owner : (v.setOwner cid).owner = some cid := rfl

omit [DecidableEq Cid] in
@[simp] theorem setOwner_data : (v.setOwner cid).data = v.data := rfl

omit [DecidableEq Cid] in
@[simp] theorem setOwner_info : (v.setOwner cid).info = v.info := rfl

@[simp] theorem setData_file : (v.setData cid cache).file = v.file := rfl

@[simp] theorem setData_owner : (v.setData cid cache).owner = v.owner := rfl

@[simp] theorem setData_info : (v.setData cid cache).info = v.info := rfl

@[simp] theorem setData_data :
    (v.setData cid cache).data c = if c = cid then some cache else v.data c :=
  Function.update_apply ..

@[simp] theorem setInfo_file : (v.setInfo cid i).file = v.file := rfl

@[simp] theorem setInfo_owner : (v.setInfo cid i).owner = v.owner := rfl

@[simp] theorem setInfo_data : (v.setInfo cid i).data = v.data := rfl

@[simp] theorem setInfo_info : (v.setInfo cid i).info c = if c = cid then some i else v.info c :=
  Function.update_apply ..

@[simp] theorem setInfo_setInfo (j : MetadataCache) :
    (v.setInfo cid i).setInfo cid j = v.setInfo cid j := by simp [setInfo]

variable {v cid i} in
theorem setInfo_self (known : v.info cid = some i) : v.setInfo cid i = v := by
  simp [setInfo, ← known]

variable {v cid cache} in
theorem setData_self (cached : v.data cid = some cache) : v.setData cid cache = v := by
  simp [setData, ← cached]

@[simp] theorem setData_setData (other : DataCache) :
    (v.setData cid cache).setData cid other = v.setData cid other := by simp [setData]

end View

section Setters

variable [DecidableEq Cid] (W : World Cid) (k : Nat) (cid : Cid)

theorem World.setData_eq (cache : DataCache) :
    W.setData cid k cache = W.setView k ((W.view k).setData cid cache) := by
  simp only [setData, setView, view, View.setData, Function.update_eq_self]
  congr 1
  funext c
  by_cases same : c = cid
  · subst same
    simp
  · simp [same]

theorem World.setMetadata_eq (info : MetadataCache) :
    W.setMetadata cid k info = W.setView k ((W.view k).setInfo cid info) := by
  simp only [setMetadata, setView, view, View.setInfo, Function.update_eq_self]
  congr 1
  funext c
  by_cases same : c = cid
  · subst same
    simp
  · simp [same]

omit [DecidableEq Cid] in
theorem World.setOwner_eq : W.setOwner k cid = W.setView k ((W.view k).setOwner cid) := by
  simp [setOwner, setView, view, View.setOwner]

omit [DecidableEq Cid] in
theorem World.setFiles_eq (file : Option File) :
    W.setFiles (Function.update W.server.files k file) = W.setView k ((W.view k).setFile file) := by
  simp [setFiles, setView, view, View.setFile]

end Setters

namespace View

variable [DecidableEq Cid]

/-- What `extent_server::getattr` answers: the attributes of the file, or those that
the client in `owner_map` has. -/
inductive Serves (v : View Cid) : Attr → Prop where
  | stored (unowned : v.owner = none) : Serves v (v.file.elim ⟨0, 0, 0, 0, 0⟩ File.attr)
  | synced (owned : v.owner = some o) (known : v.info o = some i) : Serves v i.metadata

/-- `metadata_map[eid]` of a client, over new memory where it is missing. -/
def noted (v : View Cid) (memory : Attr) (cid : Cid) : MetadataCache :=
  (v.info cid).getD ⟨.none, memory⟩

omit [DecidableEq Cid] in
theorem noted_stat {v : View Cid} {memory : Attr} {cid : Cid} :
    (v.noted memory cid).stat ≠ .own ↔ ∀ a, v.info cid ≠ some ⟨.own, a⟩ := by
  rcases found : v.info cid with _ | ⟨stat, a⟩
  · simp [noted, found]
  · cases stat <;> simp [noted, found]

/-- `extent_client::getattr`. -/
inductive Getattr (memory : Attr) (cid : Cid) (v : View Cid) : Attr → View Cid → Prop where
  | cached (own : v.info cid = some ⟨.own, a⟩) : Getattr memory cid v a v
  | asked (stale : ∀ a, v.info cid ≠ some ⟨.own, a⟩)
      (served : (v.setInfo cid (v.noted memory cid)).Serves a) :
      Getattr memory cid v a (v.setInfo cid ⟨.own, a⟩)

/-- The `flush` callback of `extent_server::get`: the owner writes its data back and
gives up both of its cache entries. -/
inductive Flushed (now : Clock) (v : View Cid) : View Cid → Prop where
  | unowned (free : v.owner = none) : Flushed now v v
  | owned (owned : v.owner = some o) (cached : v.data o = some ⟨.own, bytes⟩)
      (known : v.info o = some i) (live : v.file = some f) :
      Flushed now v (((v.setFile (some (f.write bytes now))).setData o ⟨.none, bytes⟩).setInfo o
        { i with stat := .none })

/-- `extent_server::get`. -/
def ServerGet (env : Env) (cid : Cid) (v : View Cid) (buf : List UInt8) (v' : View Cid) : Prop :=
  ∃ u f, Flushed env.flushed v u ∧ u.file = some f ∧ buf = f.bytes ∧
    v' = (u.setOwner cid).setFile (some { f with atime := env.fetched.atime })

/-- The RPCs of a `get` whose extent is not in the cache. -/
def Fetch (env : Env) (cid : Cid) (v : View Cid) (buf : List UInt8) (v' : View Cid) : Prop :=
  ∃ a u w, Getattr env.memory cid v a u ∧ ServerGet env cid u buf w ∧ v' = w.setData cid ⟨.own, buf⟩

/-- The attributes a client knows of, or those the server gets for it. -/
def Knows (v : View Cid) (cid : Cid) (served a : Attr) : Prop :=
  v.info cid = some ⟨.own, a⟩ ∨ (∀ b, v.info cid ≠ some ⟨.own, b⟩) ∧ a = served

/-- A `fetch` from the server alone, or from the client that owns the extent. -/
inductive Fetched (env : Env) (cid : Cid) (v : View Cid) : List UInt8 → View Cid → Prop where
  | fresh (unowned : v.owner = none) (live : v.file = some f) (known : v.Knows cid f.attr a) :
      Fetched env cid v f.bytes ((((v.setInfo cid ⟨.own, a⟩).setOwner cid).setFile
        (some { f with atime := env.fetched.atime })).setData cid ⟨.own, f.bytes⟩)
  | taken (owned : v.owner = some o) (other : o ≠ cid) (cached : v.data o = some ⟨.own, bytes⟩)
      (described : v.info o = some i) (live : v.file = some f) (known : v.Knows cid i.metadata a) :
      Fetched env cid v bytes (((((v.setInfo cid ⟨.own, a⟩).setInfo o { i with stat := .none }).setOwner
        cid).setFile (some { f.write bytes env.flushed with atime := env.fetched.atime })).setData o
          ⟨.none, bytes⟩ |>.setData cid ⟨.own, bytes⟩)

theorem getattr_iff {memory : Attr} {cid : Cid} {v v' : View Cid} {a : Attr} :
    Getattr memory cid v a v' ↔ v' = v.setInfo cid ⟨.own, a⟩ ∧ (v.info cid = some ⟨.own, a⟩ ∨
      (∀ b, v.info cid ≠ some ⟨.own, b⟩) ∧ (v.setInfo cid (v.noted memory cid)).Serves a) := by
  constructor
  · intro answered
    cases answered with
    | cached own => exact ⟨(setInfo_self own).symm, .inl own⟩
    | asked stale served => exact ⟨rfl, .inr ⟨stale, served⟩⟩
  · rintro ⟨rfl, own | ⟨stale, served⟩⟩
    · rw [setInfo_self own]
      exact .cached own
    · exact .asked stale served

omit [DecidableEq Cid] in
theorem serves_iff {v : View Cid} {a : Attr} : v.Serves a ↔
    v.owner = none ∧ a = v.file.elim ⟨0, 0, 0, 0, 0⟩ File.attr ∨
      ∃ o i, v.owner = some o ∧ v.info o = some i ∧ a = i.metadata := by
  constructor
  · intro served
    cases served with
    | stored unowned => exact .inl ⟨unowned, rfl⟩
    | synced owned known => exact .inr ⟨_, _, owned, known, rfl⟩
  · rintro (⟨unowned, rfl⟩ | ⟨o, i, owned, known, rfl⟩)
    · exact .stored unowned
    · exact .synced owned known

theorem flushed_iff {now : Clock} {v v' : View Cid} : Flushed now v v' ↔
    v.owner = none ∧ v' = v ∨ ∃ o bytes i f, v.owner = some o ∧ v.data o = some ⟨.own, bytes⟩ ∧
      v.info o = some i ∧ v.file = some f ∧
      v' = ((v.setFile (some (f.write bytes now))).setData o ⟨.none, bytes⟩).setInfo o
        { i with stat := .none } := by
  constructor
  · intro flushed
    cases flushed with
    | unowned free => exact .inl ⟨free, rfl⟩
    | owned owned cached known live => exact .inr ⟨_, _, _, _, owned, cached, known, live, rfl⟩
  · rintro (⟨free, rfl⟩ | ⟨o, bytes, i, f, owned, cached, known, live, rfl⟩)
    · exact .unowned free
    · exact .owned owned cached known live

/-- Whoever owns the extent, a client that does not can only fetch it from another. -/
theorem fetch_iff {env : Env} {cid : Cid} {v : View Cid} {buf : List UInt8} {v' : View Cid}
    {cache : DataCache} (stale : cache.stat = .none) :
    Fetch env cid (v.setData cid cache) buf v' ↔ Fetched env cid v buf v' := by
  simp only [Fetch, ServerGet, getattr_iff, flushed_iff, serves_iff]
  constructor
  · rintro ⟨a, _, _, ⟨rfl, known⟩, ⟨u, f, ⟨free, rfl⟩ | ⟨o, bytes, i, g, owned, cached, described,
      live, rfl⟩, found, rfl, rfl⟩, rfl⟩
    · have unowned : v.owner = none := free
      have live : v.file = some f := found
      have knows : v.Knows cid f.attr a := by simpa [Knows, unowned, live] using known
      have fetched : Fetched env cid v _ _ := .fresh unowned live knows
      simpa [setInfo, setData, setOwner, setFile] using fetched
    · have owner : v.owner = some o := owned
      have other : o ≠ cid := by
        rintro rfl
        have same : cache = ⟨.own, bytes⟩ := by simpa using cached
        simp [same] at stale
      have cached' : v.data o = some ⟨.own, bytes⟩ := by simpa [other] using cached
      have described' : v.info o = some i := by simpa [other] using described
      have live' : v.file = some g := live
      have knows : v.Knows cid i.metadata a := by simpa [Knows, owner, other, described'] using known
      have fetched : Fetched env cid v _ _ := .taken owner other cached' described' live' knows
      have written : f = g.write bytes env.flushed := by simpa using found.symm
      subst written
      simpa [setInfo, setData, setOwner, setFile, Function.update_comm other] using fetched
  · intro fetched
    cases fetched with
    | @fresh f a unowned live known =>
      have known' : v.info cid = some ⟨.own, a⟩ ∨ (∀ b, v.info cid ≠ some ⟨.own, b⟩) ∧
          a = v.file.elim ⟨0, 0, 0, 0, 0⟩ File.attr := by simpa [Knows, live] using known
      refine ⟨a, _, _, ⟨rfl, ?_⟩, ⟨_, f, .inl ⟨unowned, rfl⟩, live, rfl, rfl⟩, ?_⟩
      · simpa [unowned] using known'
      · simp [setInfo, setData, setOwner, setFile]
    | @taken o _ i f a owned other cached described live known =>
      refine ⟨a, _, _, ⟨rfl, ?_⟩, ⟨_, f.write buf env.flushed, .inr ⟨o, buf, i, f, owned, ?_, ?_,
        live, rfl⟩, rfl, rfl, rfl⟩, ?_⟩
      · simpa [Knows, owned, other, described] using known
      · simpa [other] using cached
      · simpa [other] using described
      · simp [setInfo, setData, setOwner, setFile, Function.update_comm other]

/-- `extent_client::get`. -/
inductive Get (env : Env) (cid : Cid) (k : Nat) (v : View Cid) : List UInt8 → View Cid → Prop where
  | root (own : v.data cid = some ⟨.own, buf⟩) (first : k = 1) : Get env cid k v buf v
  | cached (own : v.data cid = some ⟨.own, buf⟩) (other : k ≠ 1) (described : v.info cid = some i) :
      Get env cid k v buf (v.setInfo cid
        { i with metadata := { i.metadata with atime := env.client.atime } })
  | fetched (stale : ∀ b, v.data cid ≠ some ⟨.own, b⟩) (fetched : Fetched env cid v buf v') :
      Get env cid k v buf v'

/-- The attributes that `put` leaves in the cache. -/
def resized (env : Env) (buf : List UInt8) (i : MetadataCache) : MetadataCache :=
  { i with metadata := { i.metadata with
    size := .ofNat buf.length, atime := env.client.atime, ctime := env.client.ctime,
    mtime := env.client.mtime } }

/-- The end of `extent_client::put`, once the client owns the extent. -/
def filled (env : Env) (cid : Cid) (v : View Cid) (buf : List UInt8) : View Cid :=
  (v.setInfo cid (resized env buf (v.noted env.memory cid))).setData cid ⟨.own, buf⟩

/-- `extent_client::put`. -/
inductive Put (env : Env) (cid : Cid) (v : View Cid) (buf : List UInt8) : View Cid → Prop where
  | owned (own : v.data cid = some ⟨.own, old⟩) : Put env cid v buf (filled env cid v buf)
  | fetched (stale : ∀ b, v.data cid ≠ some ⟨.own, b⟩) (fetched : Fetched env cid v old u) :
      Put env cid v buf (filled env cid u buf)

/-- `extent_server::remove`. The entry of `owner_map` stays. -/
inductive Removed (v : View Cid) : View Cid → Prop where
  | unowned (free : v.owner = none) (live : v.file ≠ none) : Removed v (v.setFile none)
  | owned (owned : v.owner = some o) (cached : v.data o = some cache) (known : v.info o = some i)
      (live : v.file ≠ none) :
      Removed v (((v.setData o { cache with stat := .none }).setInfo o
        { i with stat := .none }).setFile none)

end View

end Yfs.Extent
