import Mathlib.Data.Finset.Card
import Mathlib.Logic.Function.Basic

/-! The cache of RPC connections of `handle.cc`. Pointers are addresses, and `new` may
return any address that is not in use; a computation is `none` where it would use
memory that has been freed. -/

namespace Yfs.Rpc

variable {Dst Obj : Type}

/-- `hinfo`. -/
structure Hinfo (Dst : Type) where
  cl : Option Nat
  refcnt : Int
  del : Bool
  m : Dst

/-- `handle_mgr` with the memory that it has allocated, and the live `handle` objects. -/
structure HandleMgr (Dst Obj : Type) where
  hmap : Dst → Option Nat
  hinfos : Nat → Option (Hinfo Dst)
  rpccs : Finset Nat
  live : Finset Obj
  h : Obj → Option Nat

namespace HandleMgr

def empty : HandleMgr Dst Obj :=
  { hmap := fun _ => none, hinfos := fun _ => none, rpccs := ∅, live := ∅, h := fun _ => none }

def setInfo (s : HandleMgr Dst Obj) (p : Nat) (info : Hinfo Dst) : HandleMgr Dst Obj :=
  { s with hinfos := Function.update s.hinfos p (some info) }

variable [DecidableEq Dst]

/-- `handle_mgr::get_handle`, where `new hinfo` returns `address`. -/
def getHandle (s : HandleMgr Dst Obj) (m : Dst) (address : Nat) :
    Option (Option Nat × HandleMgr Dst Obj) :=
  match s.hmap m with
  | none =>
    some (some address, { s.setInfo address ⟨none, 1, false, m⟩ with
      hmap := Function.update s.hmap m (some address) })
  | some p => do
    let info ← s.hinfos p
    if info.del then
      return (none, s)
    else
      return (some p, s.setInfo p { info with refcnt := info.refcnt + 1 })

/-- `h->cl->cancel(); delete h->cl;` -/
def deleteRpcc (s : HandleMgr Dst Obj) : Option Nat → Option (HandleMgr Dst Obj)
  | none => some s
  | some c => if c ∈ s.rpccs then some { s with rpccs := s.rpccs.erase c } else none

/-- `handle_mgr::delete_handle_wo`. -/
def deleteHandleWo (s : HandleMgr Dst Obj) (m : Dst) : Option (HandleMgr Dst Obj) :=
  match s.hmap m with
  | none => some s
  | some p => do
    let info ← s.hinfos p
    if info.refcnt = 0 then
      let s ← s.deleteRpcc info.cl
      return { s with hmap := Function.update s.hmap m none, hinfos := Function.update s.hinfos p none }
    else
      return s.setInfo p { info with del := true }

/-- `handle_mgr::done_handle`. -/
def doneHandle (s : HandleMgr Dst Obj) (p : Nat) : Option (HandleMgr Dst Obj) := do
  let info ← s.hinfos p
  let s := s.setInfo p { info with refcnt := info.refcnt - 1 }
  if info.refcnt - 1 = 0 ∧ info.del = true then
    s.deleteHandleWo info.m
  else
    return s

/-- `handle::~handle` of a handle with the pointer `h`. -/
def destroy (s : HandleMgr Dst Obj) : Option Nat → Option (HandleMgr Dst Obj)
  | some p => s.doneHandle p
  | none => some s

omit [DecidableEq Dst] in
/-- `handle::safebind` of a handle with the pointer `h`. The `bind` of a new `rpcc`
succeeds with the `rpcc` at an address, or fails and the `rpcc` is deleted at once. -/
def safebind (s : HandleMgr Dst Obj) (h bind : Option Nat) : Option (Option Nat × HandleMgr Dst Obj) :=
  match h with
  | none => some (none, s)
  | some p => do
    let info ← s.hinfos p
    if info.del then
      return (none, s)
    else
      match info.cl, bind with
      | some c, _ => return (some c, s)
      | none, some c =>
        return (some c, { s.setInfo p { info with cl := some c } with rpccs := insert c s.rpccs })
      | none, none => return (none, s.setInfo p { info with del := true })

/-- What is done to handles, with the addresses that `new` returns on the way. -/
inductive Action (Dst Obj : Type) where
  | construct (obj : Obj) (m : Dst) (address : Nat)
  | destruct (obj : Obj)
  | safebind (obj : Obj) (bind : Option Nat)
  | deleteHandle (m : Dst)

omit [DecidableEq Dst] in
/-- Objects are constructed once and used while they live, and `new` returns free memory. -/
def Enabled (s : HandleMgr Dst Obj) : Action Dst Obj → Prop
  | .construct obj _ address => obj ∉ s.live ∧ s.hinfos address = none
  | .destruct obj => obj ∈ s.live
  | .safebind obj bind => obj ∈ s.live ∧ ∀ c, bind = some c → c ∉ s.rpccs
  | .deleteHandle _ => True

variable [DecidableEq Obj]

/-- `handle::handle`, `handle::~handle`, `handle::safebind` and
`handle_mgr::delete_handle`. -/
def step (s : HandleMgr Dst Obj) : Action Dst Obj → Option (HandleMgr Dst Obj)
  | .construct obj m address => do
    let (p, t) ← s.getHandle m address
    return { t with live := insert obj t.live, h := Function.update t.h obj p }
  | .destruct obj => do
    let t ← s.destroy (s.h obj)
    return { t with live := t.live.erase obj }
  | .safebind obj bind => do
    let (_, t) ← s.safebind (s.h obj) bind
    return t
  | .deleteHandle m => s.deleteHandleWo m

/-- The actions on a run, each of them one step. -/
inductive Run (s : HandleMgr Dst Obj) : List (Action Dst Obj) → HandleMgr Dst Obj → Prop where
  | nil : Run s [] s
  | step (before : Run s actions t) (enabled : t.Enabled action) (taken : t.step action = some u) :
      Run s (actions ++ [action]) u

/-- The live handles that point to an `hinfo`. -/
def holders (s : HandleMgr Dst Obj) (p : Nat) : Finset Obj := s.live.filter fun obj => s.h obj = some p

omit [DecidableEq Dst] [DecidableEq Obj] in
/-- The memory of a `handle_mgr` when `count p` handles point to the `hinfo` at `p`. -/
structure Sound (s : HandleMgr Dst Obj) (count : Nat → Nat) : Prop where
  own : ∀ m p, s.hmap m = some p → ∃ info, s.hinfos p = some info ∧ info.m = m
  listed : ∀ p info, s.hinfos p = some info → s.hmap info.m = some p
  counted : ∀ p info, s.hinfos p = some info → info.refcnt = count p
  held : ∀ p, count p ≠ 0 → s.hinfos p ≠ none
  marked : ∀ p info, s.hinfos p = some info → info.del = true → count p ≠ 0
  connected : ∀ p info c, s.hinfos p = some info → info.cl = some c → c ∈ s.rpccs
  single : ∀ p q info info' c, s.hinfos p = some info → s.hinfos q = some info' →
    info.cl = some c → info'.cl = some c → p = q

section Sound

omit [DecidableEq Dst] [DecidableEq Obj]

variable {s t : HandleMgr Dst Obj} {count count' : Nat → Nat} {p : Nat} {info info' : Hinfo Dst}

theorem hinfos_setInfo {q : Nat} (there : (s.setInfo p info).hinfos q = some info') :
    q = p ∧ info' = info ∨ q ≠ p ∧ s.hinfos q = some info' := by
  by_cases here : q = p
  · subst here
    exact .inl ⟨rfl, by simpa [HandleMgr.setInfo] using there.symm⟩
  · exact .inr ⟨here, by simpa [HandleMgr.setInfo, here] using there⟩

/-- Put one `hinfo` in memory, listed as the map says. -/
theorem Sound.place (sound : s.Sound count) {hmap : Dst → Option Nat}
    (own : ∀ m q, hmap m = some q → ∃ other, (s.setInfo p info').hinfos q = some other ∧ other.m = m)
    (listed : ∀ q other, (s.setInfo p info').hinfos q = some other → hmap other.m = some q)
    (others : ∀ q, q ≠ p → count' q = count q) (counted : info'.refcnt = count' p)
    (marked : info'.del = true → count' p ≠ 0) (rpccs : Finset Nat) (grows : s.rpccs ⊆ rpccs)
    (connected : ∀ c, info'.cl = some c → c ∈ rpccs)
    (single : ∀ c q other, info'.cl = some c → s.hinfos q = some other → other.cl = some c → q = p) :
    ({ s.setInfo p info' with hmap, rpccs } : HandleMgr Dst Obj).Sound count' := by
  refine ⟨own, listed, ?_, ?_, ?_, ?_, ?_⟩
  · intro q other there
    rcases hinfos_setInfo there with ⟨rfl, rfl⟩ | ⟨different, old⟩
    · exact counted
    · rw [others q different]
      exact sound.counted q other old
  · intro q positive
    by_cases here : q = p
    · simp [HandleMgr.setInfo, here]
    · rw [others q here] at positive
      simpa [HandleMgr.setInfo, here] using sound.held q positive
  · intro q other there del
    rcases hinfos_setInfo there with ⟨rfl, rfl⟩ | ⟨different, old⟩
    · exact marked del
    · rw [others q different]
      exact sound.marked q other old del
  · intro q other c there bound
    rcases hinfos_setInfo there with ⟨rfl, rfl⟩ | ⟨-, old⟩
    · exact connected c bound
    · exact grows (sound.connected q other c old bound)
  · intro q q' other other' c there there' bound bound'
    rcases hinfos_setInfo there with ⟨rfl, rfl⟩ | ⟨-, old⟩ <;>
      rcases hinfos_setInfo there' with ⟨rfl, rfl⟩ | ⟨-, old'⟩
    · rfl
    · exact (single c q' other' bound old' bound').symm
    · exact single c q other bound' old bound
    · exact sound.single q q' other other' c old old' bound bound'

/-- Change one `hinfo` in place. -/
theorem Sound.setInfo (sound : s.Sound count) (found : s.hinfos p = some info) (same : info'.m = info.m)
    (others : ∀ q, q ≠ p → count' q = count q) (counted : info'.refcnt = count' p)
    (marked : info'.del = true → count' p ≠ 0) (rpccs : Finset Nat) (grows : s.rpccs ⊆ rpccs)
    (connected : ∀ c, info'.cl = some c → c ∈ rpccs)
    (single : ∀ c q other, info'.cl = some c → s.hinfos q = some other → other.cl = some c → q = p) :
    ({ s.setInfo p info' with rpccs } : HandleMgr Dst Obj).Sound count' := by
  refine sound.place ?_ ?_ others counted marked rpccs grows connected single
  · intro m q mapped
    obtain ⟨old, there, named⟩ := sound.own m q mapped
    by_cases here : q = p
    · subst here
      cases found.symm.trans there
      exact ⟨info', by simp [HandleMgr.setInfo], same.trans named⟩
    · exact ⟨old, by simp [HandleMgr.setInfo, here, there], named⟩
  · intro q other there
    rcases hinfos_setInfo there with ⟨rfl, rfl⟩ | ⟨-, old⟩
    · rw [same]
      exact sound.listed _ _ found
    · exact sound.listed q other old

/-- Change one `hinfo` but for its connection. -/
theorem Sound.setInfo_same (sound : s.Sound count) (found : s.hinfos p = some info)
    (same : info'.m = info.m) (cl : info'.cl = info.cl) (others : ∀ q, q ≠ p → count' q = count q)
    (counted : info'.refcnt = count' p) (marked : info'.del = true → count' p ≠ 0) :
    (s.setInfo p info').Sound count' := by
  refine sound.setInfo found same others counted marked s.rpccs (fun _ member => member) ?_ ?_
  · intro c bound
    exact sound.connected p info c found (cl ▸ bound)
  · intro c q other bound there bound'
    exact sound.single q p other info c there found bound' (cl ▸ bound)

/-- Allocate an `hinfo` for a destination that has none. -/
theorem Sound.allocate [DecidableEq Dst] (sound : s.Sound count) {m : Dst} (free : s.hinfos p = none)
    (absent : s.hmap m = none) (others : ∀ q, q ≠ p → count' q = count q) (one : count' p = 1) :
    ({ s.setInfo p ⟨none, 1, false, m⟩ with hmap := Function.update s.hmap m (some p) } :
      HandleMgr Dst Obj).Sound count' := by
  refine sound.place ?_ ?_ others (by simp [one]) (by simp) s.rpccs (fun _ member => member) (by simp)
    (by simp)
  · intro m' q mapped
    by_cases here : m' = m
    · subst here
      have address : p = q := by simpa using mapped
      subst address
      exact ⟨⟨none, 1, false, m'⟩, by simp [HandleMgr.setInfo], rfl⟩
    · have old : s.hmap m' = some q := by simpa [here] using mapped
      obtain ⟨info, there, named⟩ := sound.own m' q old
      have different : q ≠ p := by
        rintro rfl
        simp [free] at there
      exact ⟨info, by simp [HandleMgr.setInfo, different, there], named⟩
  · intro q other there
    rcases hinfos_setInfo there with ⟨rfl, rfl⟩ | ⟨-, old⟩
    · simp
    · have mapped := sound.listed q other old
      have different : other.m ≠ m := by
        rintro rfl
        simp [absent] at mapped
      simpa [different] using mapped

/-- Free an `hinfo` that no handle points to. -/
theorem Sound.free [DecidableEq Dst] (sound : s.Sound count) (found : s.hinfos p = some info)
    (others : ∀ q, q ≠ p → count' q = count q) (zero : count' p = 0) (rpccs : Finset Nat)
    (kept : ∀ q other c, q ≠ p → s.hinfos q = some other → other.cl = some c → c ∈ rpccs) :
    ({ s with
      hmap := Function.update s.hmap info.m none
      hinfos := Function.update s.hinfos p none
      rpccs } : HandleMgr Dst Obj).Sound count' := by
  have lookup (q) (other) (there : Function.update s.hinfos p none q = some other) :
      q ≠ p ∧ s.hinfos q = some other := by
    by_cases here : q = p
    · subst here
      simp at there
    · exact ⟨here, by simpa [here] using there⟩
  constructor
  · intro m q mapped
    have different : m ≠ info.m := by
      rintro rfl
      simp at mapped
    obtain ⟨old, there, named⟩ := sound.own m q (by simpa [different] using mapped)
    have elsewhere : q ≠ p := by
      rintro rfl
      cases found.symm.trans there
      exact different named.symm
    exact ⟨old, by simp [elsewhere, there], named⟩
  · intro q other there
    obtain ⟨elsewhere, old⟩ := lookup q other there
    have mapped := sound.listed q other old
    have different : other.m ≠ info.m := by
      intro same
      rw [same, sound.listed p info found] at mapped
      exact elsewhere (Option.some.inj mapped).symm
    simpa [different] using mapped
  · intro q other there
    obtain ⟨elsewhere, old⟩ := lookup q other there
    rw [others q elsewhere]
    exact sound.counted q other old
  · intro q positive
    have elsewhere : q ≠ p := by
      rintro rfl
      exact positive zero
    rw [others q elsewhere] at positive
    simpa [elsewhere] using sound.held q positive
  · intro q other there del
    obtain ⟨elsewhere, old⟩ := lookup q other there
    rw [others q elsewhere]
    exact sound.marked q other old del
  · intro q other c there bound
    obtain ⟨elsewhere, old⟩ := lookup q other there
    exact kept q other c elsewhere old bound
  · intro q q' other other' c there there' bound bound'
    exact sound.single q q' other other' c (lookup q other there).2 (lookup q' other' there').2 bound bound'

end Sound

section Effect

omit [DecidableEq Obj]

variable {s t : HandleMgr Dst Obj} {count count' : Nat → Nat} {p : Nat} {info info' : Hinfo Dst}

omit [DecidableEq Dst] in
/-- What a call may do to the memory when `made` is the destination that it allocates for. -/
structure Effect (s : HandleMgr Dst Obj) (made : Option Dst) (t : HandleMgr Dst Obj)
    (count : Nat → Nat) : Prop where
  sound : t.Sound count
  live : t.live = s.live
  h : t.h = s.h
  absent : ∀ m, some m ≠ made → s.hmap m = none → t.hmap m = none
  erased : ∀ p info, s.hinfos p = some info → t.hinfos p = none → t.hmap info.m = none
  marks : ∀ p info info', s.hinfos p = some info → t.hinfos p = some info' → info.del = true →
    info'.del = true
  disconnected : ∀ p info c, s.hinfos p = some info → info.cl = some c → c ∉ t.rpccs →
    t.hinfos p = none

omit [DecidableEq Dst] in
theorem Effect.refl (sound : s.Sound count) (made : Option Dst) : s.Effect made s count := by
  refine ⟨sound, rfl, rfl, fun _ _ absent => absent, ?_, ?_, ?_⟩
  · intro p info found gone
    simp [found] at gone
  · intro p info info' found found' del
    cases found.symm.trans found'
    exact del
  · intro p info c found bound gone
    exact absurd (sound.connected p info c found bound) gone

omit [DecidableEq Dst] in
theorem Effect.setInfo (made : Option Dst) (found : s.hinfos p = some info) (rpccs : Finset Nat)
    (grows : s.rpccs ⊆ rpccs) (marks : info.del = true → info'.del = true) (before : s.Sound count)
    (after : ({ s.setInfo p info' with rpccs } : HandleMgr Dst Obj).Sound count') :
    s.Effect made { s.setInfo p info' with rpccs } count' := by
  refine ⟨after, rfl, rfl, fun _ _ absent => absent, ?_, ?_, ?_⟩
  · intro q other there gone
    by_cases here : q = p
    · simp [HandleMgr.setInfo, here] at gone
    · simp [HandleMgr.setInfo, here, there] at gone
  · intro q other other' there there' del
    rcases hinfos_setInfo there' with ⟨rfl, rfl⟩ | ⟨-, old⟩
    · cases found.symm.trans there
      exact marks del
    · cases there.symm.trans old
      exact del
  · intro q other c there bound gone
    exact absurd (grows (before.connected q other c there bound)) gone

/-- Every case of `get_handle` leaves a handle more on what it returns. -/
theorem getHandle_effect (sound : s.Sound count) (m : Dst) {address : Nat}
    (free : s.hinfos address = none) :
    ∃ r t, s.getHandle m address = some (r, t) ∧
      s.Effect (some m) t (fun q => if r = some q then count q + 1 else count q) := by
  have zero : count address = 0 := by
    by_contra positive
    exact sound.held address positive free
  cases mapped : s.hmap m with
  | none =>
    have fresh : s.getHandle m address = some (some address,
        { s.setInfo address ⟨none, 1, false, m⟩ with
          hmap := Function.update s.hmap m (some address) }) := by
      simp [getHandle, mapped]
    refine ⟨_, _, fresh, ?_, rfl, rfl, ?_, ?_, ?_, ?_⟩
    · refine sound.allocate free mapped (fun q different => ?_) (by simp [zero])
      simp [different.symm]
    · intro m' different absent
      have other : m' ≠ m := fun same => different (congrArg some same)
      simpa [other] using absent
    · intro q other there gone
      by_cases here : q = address
      · simp [HandleMgr.setInfo, here] at gone
      · simp [HandleMgr.setInfo, here, there] at gone
    · intro q other other' there there' del
      rcases hinfos_setInfo there' with ⟨rfl, rfl⟩ | ⟨-, old⟩
      · simp [free] at there
      · cases there.symm.trans old
        exact del
    · intro q other c there bound gone
      exact absurd (sound.connected q other c there bound) gone
  | some p =>
    obtain ⟨info, found, rfl⟩ := sound.own m p mapped
    by_cases del : info.del = true
    · refine ⟨none, s, by simp [getHandle, mapped, found, del], ?_⟩
      simpa using Effect.refl sound (some info.m)
    · have shared : s.getHandle info.m address =
          some (some p, s.setInfo p { info with refcnt := info.refcnt + 1 }) := by
        simp [getHandle, mapped, found, del]
      refine ⟨_, _, shared, ?_⟩
      refine Effect.setInfo _ found s.rpccs (fun _ member => member) (fun marked => absurd marked del)
        sound ?_
      refine sound.setInfo_same found rfl rfl (fun q different => ?_) ?_ (fun marked => absurd marked del)
      · simp [different.symm]
      · simp [sound.counted p info found]

omit [DecidableEq Dst] in
theorem deleteRpcc_some {cl : Option Nat} (connected : ∀ c, cl = some c → c ∈ s.rpccs) :
    ∃ rpccs, s.deleteRpcc cl = some { s with rpccs } ∧ ∀ c ∈ s.rpccs, cl ≠ some c → c ∈ rpccs := by
  cases cl with
  | none => exact ⟨s.rpccs, rfl, fun c member _ => member⟩
  | some c =>
    refine ⟨s.rpccs.erase c, by simp [deleteRpcc, connected c rfl], ?_⟩
    intro c' member different
    simp only [Finset.mem_erase]
    exact ⟨fun same => different (congrArg some same.symm), member⟩

theorem Effect.free (made : Option Dst) (sound : s.Sound count) (found : s.hinfos p = some info)
    (others : ∀ q, q ≠ p → count' q = count q) (zero : count' p = 0) (rpccs : Finset Nat)
    (kept : ∀ c ∈ s.rpccs, info.cl ≠ some c → c ∈ rpccs) :
    s.Effect made { s with
      hmap := Function.update s.hmap info.m none
      hinfos := Function.update s.hinfos p none
      rpccs } count' := by
  have unshared (q) (other) (c) (elsewhere : q ≠ p) (there : s.hinfos q = some other)
      (bound : other.cl = some c) : c ∈ rpccs := by
    refine kept c (sound.connected q other c there bound) ?_
    intro same
    exact elsewhere (sound.single q p other info c there found bound same)
  refine ⟨sound.free found others zero rpccs unshared, rfl, rfl, ?_, ?_, ?_, ?_⟩
  · intro m _ absent
    by_cases same : m = info.m
    · simp [same]
    · simpa [same] using absent
  · intro q other there gone
    by_cases here : q = p
    · subst here
      cases found.symm.trans there
      simp
    · simp [here, there] at gone
  · intro q other other' there there' del
    by_cases here : q = p
    · simp [here] at there'
    · have old : s.hinfos q = some other' := by simpa [here] using there'
      cases there.symm.trans old
      exact del
  · intro q other c there bound gone
    by_cases here : q = p
    · simp [here]
    · exact absurd (unshared q other c here there bound) gone

theorem deleteHandleWo_effect (sound : s.Sound count) (m : Dst) :
    ∃ t, s.deleteHandleWo m = some t ∧ s.Effect none t count := by
  cases mapped : s.hmap m with
  | none => exact ⟨s, by simp [deleteHandleWo, mapped], Effect.refl sound none⟩
  | some p =>
    obtain ⟨info, found, rfl⟩ := sound.own m p mapped
    have counted := sound.counted p info found
    by_cases unused : info.refcnt = 0
    · obtain ⟨rpccs, deleted, kept⟩ := deleteRpcc_some fun c => sound.connected p info c found
      refine ⟨_, ?_, Effect.free none sound found (fun _ _ => rfl) (by omega) rpccs kept⟩
      simp [deleteHandleWo, mapped, found, unused, deleted]
    · refine ⟨s.setInfo p { info with del := true }, ?_, ?_⟩
      · simp [deleteHandleWo, mapped, found, unused]
      · refine Effect.setInfo none found s.rpccs (fun _ member => member) (fun _ => rfl) sound ?_
        exact sound.setInfo_same found rfl rfl (fun _ _ => rfl) counted (fun _ => by omega)

/-- `done_handle` by a handle that is counted. -/
theorem doneHandle_effect (sound : s.Sound count) (positive : count p ≠ 0) :
    ∃ t, s.doneHandle p = some t ∧
      s.Effect none t (fun q => if p = q then count q - 1 else count q) := by
  obtain ⟨info, found⟩ := Option.ne_none_iff_exists'.mp (sound.held p positive)
  have counted := sound.counted p info found
  have others (q : Nat) (different : q ≠ p) : (if p = q then count q - 1 else count q) = count q := by
    simp [different.symm]
  by_cases last : info.refcnt - 1 = 0 ∧ info.del = true
  · have mapped := sound.listed p info found
    obtain ⟨rpccs, deleted, kept⟩ :=
      @deleteRpcc_some Dst Obj (s.setInfo p { info with refcnt := info.refcnt - 1 }) info.cl
        fun c => sound.connected p info c found
    refine ⟨_, ?_, Effect.free none sound found others (by simp; omega) rpccs kept⟩
    simp only [doneHandle, found, Option.bind_eq_bind, Option.bind_some, if_pos last]
    simp only [deleteHandleWo, setInfo, mapped, Function.update_self] at deleted ⊢
    simp only [Option.bind_eq_bind, Option.bind_some, if_pos last.1, deleted]
    simp
  · refine ⟨s.setInfo p { info with refcnt := info.refcnt - 1 }, ?_, ?_⟩
    · simp only [doneHandle, found, Option.bind_eq_bind, Option.bind_some, if_neg last]
      rfl
    · refine Effect.setInfo none found s.rpccs (fun _ member => member) (fun del => del) sound ?_
      refine sound.setInfo_same found rfl rfl others ?_ ?_
      · simp only [if_true]
        omega
      · intro del
        have more : info.refcnt - 1 ≠ 0 := fun zero => last ⟨zero, del⟩
        simp only [if_true]
        omega

omit [DecidableEq Dst] in
/-- `safebind` by a handle that is counted. -/
theorem safebind_effect (sound : s.Sound count) {h bind : Option Nat}
    (positive : ∀ p, h = some p → count p ≠ 0) (fresh : ∀ c, bind = some c → c ∉ s.rpccs) :
    ∃ r t, s.safebind h bind = some (r, t) ∧ s.Effect none t count := by
  cases h with
  | none => exact ⟨none, s, rfl, Effect.refl sound none⟩
  | some p =>
    obtain ⟨info, found⟩ := Option.ne_none_iff_exists'.mp (sound.held p (positive p rfl))
    have counted := sound.counted p info found
    by_cases del : info.del = true
    · exact ⟨none, s, by simp [safebind, found, del], Effect.refl sound none⟩
    cases bound : info.cl with
    | some c => exact ⟨some c, s, by simp [safebind, found, del, bound], Effect.refl sound none⟩
    | none =>
      cases bind with
      | none =>
        refine ⟨none, s.setInfo p { info with del := true }, by simp [safebind, found, del, bound], ?_⟩
        refine Effect.setInfo none found s.rpccs (fun _ member => member) (fun _ => rfl) sound ?_
        exact sound.setInfo_same found rfl rfl (fun _ _ => rfl) counted (fun _ => positive p rfl)
      | some c =>
        have grows : s.rpccs ⊆ insert c s.rpccs := Finset.subset_insert c s.rpccs
        refine ⟨some c, { s.setInfo p { info with cl := some c } with rpccs := insert c s.rpccs }, ?_, ?_⟩
        · simp [safebind, found, del, bound]
        · refine Effect.setInfo none found _ grows (fun marked => marked) sound ?_
          refine @Sound.setInfo Dst Obj s count count p info { info with cl := some c } sound found rfl
            (fun _ _ => rfl) counted (fun marked => absurd marked del) _ grows ?_ ?_
          · intro c' same
            cases same
            exact Finset.mem_insert_self c s.rpccs
          · intro c' q other same there taken
            cases same
            exact absurd (sound.connected q other c there taken) (fresh c rfl)

end Effect

section Run

variable {s t u : HandleMgr Dst Obj} {actions : List (Action Dst Obj)} {action : Action Dst Obj}

omit [DecidableEq Dst] in
/-- The reference counts count the live handles. -/
def Inv (s : HandleMgr Dst Obj) : Prop := s.Sound fun p => (s.holders p).card

omit [DecidableEq Dst] [DecidableEq Obj] in
/-- The destination that an action allocates for. -/
def Action.made : Action Dst Obj → Option Dst
  | .construct _ m _ => some m
  | _ => none

omit [DecidableEq Dst] in
theorem holders_construct {obj : Obj} (new : obj ∉ s.live) (r : Option Nat) (p : Nat) :
    (({ s with live := insert obj s.live, h := Function.update s.h obj r } :
      HandleMgr Dst Obj).holders p).card =
      if r = some p then (s.holders p).card + 1 else (s.holders p).card := by
  have old : (s.live.filter fun other => Function.update s.h obj r other = some p) = s.holders p := by
    refine Finset.filter_congr fun other member => ?_
    have different : other ≠ obj := fun same => new (same ▸ member)
    simp [different]
  simp only [holders, Finset.filter_insert, Function.update_self]
  split
  · rw [Finset.card_insert_of_notMem (by simp [new]), old]
    rfl
  · rw [old]
    rfl

omit [DecidableEq Dst] in
theorem holders_destruct {obj : Obj} (member : obj ∈ s.live) (p : Nat) :
    (({ s with live := s.live.erase obj } : HandleMgr Dst Obj).holders p).card =
      if s.h obj = some p then (s.holders p).card - 1 else (s.holders p).card := by
  simp only [holders, Finset.filter_erase]
  split
  · rename_i pointed
    exact Finset.card_erase_of_mem (by simp [member, pointed])
  · rename_i elsewhere
    rw [Finset.erase_eq_of_notMem (by simp [elsewhere])]

omit [DecidableEq Dst] [DecidableEq Obj] in
theorem holders_pos {obj : Obj} {p : Nat} (member : obj ∈ s.live) (pointed : s.h obj = some p) :
    (s.holders p).card ≠ 0 := by
  apply Finset.card_ne_zero_of_mem
  exact Finset.mem_filter.mpr ⟨member, pointed⟩

omit [DecidableEq Dst] in
/-- What a step frees, and what it finds when it allocates. -/
structure Transition (s : HandleMgr Dst Obj) (action : Action Dst Obj) (t : HandleMgr Dst Obj) : Prop where
  freed : ∀ p info, s.hinfos p = some info → t.hinfos p = none → t.holders p = ∅ ∧ t.hmap info.m = none
  disconnected : ∀ p info c, s.hinfos p = some info → info.cl = some c → c ∉ t.rpccs →
    t.hinfos p = none
  absent : ∀ m, some m ≠ action.made → s.hmap m = none → t.hmap m = none
  fresh : ∀ obj m address, action = .construct obj m address → s.hmap m = none →
    t.h obj = some address ∧ t.hmap m = some address ∧ t.hinfos address = some ⟨none, 1, false, m⟩
  removed : ∀ obj p info, action = .destruct obj → s.holders p = {obj} → s.hinfos p = some info →
    info.del = true → t.hinfos p = none ∧ t.hmap info.m = none

omit [DecidableEq Dst] in
theorem Inv.holders_empty (inv : t.Inv) {p : Nat} (gone : t.hinfos p = none) : t.holders p = ∅ := by
  by_contra nonempty
  exact inv.held p (Finset.card_ne_zero.mpr (Finset.nonempty_iff_ne_empty.mpr nonempty)) gone

omit [DecidableEq Dst] [DecidableEq Obj] in
/-- The memory is sound for the handles that there are once the counts are right. -/
theorem Sound.inv {mid : HandleMgr Dst Obj} {count : Nat → Nat} (sound : mid.Sound count)
    {live : Finset Obj} {h : Obj → Option Nat}
    (counts : ∀ p, (({ mid with live, h } : HandleMgr Dst Obj).holders p).card = count p) :
    ({ mid with live, h } : HandleMgr Dst Obj).Inv := by
  rw [Inv, funext counts]
  exact ⟨sound.own, sound.listed, sound.counted, sound.held, sound.marked, sound.connected, sound.single⟩

theorem Inv.construct (inv : s.Inv) {obj : Obj} {m : Dst} {address : Nat}
    (enabled : s.Enabled (.construct obj m address)) :
    ∃ t, s.step (.construct obj m address) = some t ∧ t.Inv ∧ s.Transition (.construct obj m address) t := by
  obtain ⟨new, free⟩ := enabled
  obtain ⟨r, mid, taken, effect⟩ := getHandle_effect inv m free
  let t : HandleMgr Dst Obj := { mid with live := insert obj mid.live, h := Function.update mid.h obj r }
  have inv' : t.Inv := by
    apply effect.sound.inv
    intro p
    rw [← holders_construct new r p]
    simp only [holders, effect.live, effect.h]
  refine ⟨t, by simp [step, taken, t], inv', ?_⟩
  refine ⟨?_, effect.disconnected, effect.absent, ?_, ?_⟩
  · intro p info found gone
    exact ⟨inv'.holders_empty gone, effect.erased p info found gone⟩
  · rintro _ _ _ ⟨⟩ absent
    simp only [getHandle, absent, Option.some.injEq, Prod.mk.injEq] at taken
    obtain ⟨rfl, rfl⟩ := taken
    simp [t, setInfo]
  · rintro _ _ _ ⟨⟩

theorem Inv.destruct (inv : s.Inv) {obj : Obj} (member : obj ∈ s.live) :
    ∃ t, s.step (.destruct obj) = some t ∧ t.Inv ∧ s.Transition (.destruct obj) t := by
  obtain ⟨mid, taken, effect⟩ : ∃ mid, s.destroy (s.h obj) = some mid ∧
      s.Effect none mid fun p => if s.h obj = some p then (s.holders p).card - 1 else (s.holders p).card := by
    cases pointer : s.h obj with
    | none => exact ⟨s, rfl, by simpa using Effect.refl inv none⟩
    | some p => simpa [destroy] using doneHandle_effect inv (holders_pos member pointer)
  let t : HandleMgr Dst Obj := { mid with live := mid.live.erase obj }
  have inv' : t.Inv := by
    apply effect.sound.inv
    intro p
    rw [← holders_destruct member p]
    simp only [holders, effect.live, effect.h]
  refine ⟨t, by simp [step, taken, t], inv', ?_⟩
  refine ⟨?_, effect.disconnected, effect.absent, ?_, ?_⟩
  · intro p info found gone
    exact ⟨inv'.holders_empty gone, effect.erased p info found gone⟩
  · rintro _ _ _ ⟨⟩
  · rintro _ p info ⟨⟩ last found del
    -- a marked `hinfo` is held, and the last of its holders is gone
    have unheld : t.holders p = ∅ := by
      have holders : t.holders p = (s.holders p).erase obj := by
        simp only [HandleMgr.holders, t, effect.live, effect.h, Finset.filter_erase]
      rw [holders, last, Finset.erase_singleton]
    have gone : t.hinfos p = none := by
      cases there : t.hinfos p with
      | none => rfl
      | some info' =>
        have held := inv'.marked p info' there (effect.marks p info info' found there del)
        simp [unheld] at held
    exact ⟨gone, effect.erased p info found gone⟩

omit [DecidableEq Dst] in
theorem Effect.transition (effect : s.Effect none t fun p => (s.holders p).card)
    (quiet : ∀ obj m address, action ≠ .construct obj m address) (kept : ∀ obj, action ≠ .destruct obj) :
    t.Inv ∧ s.Transition action t := by
  have inv : t.Inv := by
    have same : t.holders = s.holders := by
      funext p
      simp only [holders, effect.live, effect.h]
    simpa only [Inv, same] using effect.sound
  refine ⟨inv, ?_, effect.disconnected, ?_, ?_, ?_⟩
  · intro p info found gone
    exact ⟨inv.holders_empty gone, effect.erased p info found gone⟩
  · intro m _ absent
    exact effect.absent m (by simp) absent
  · intro obj m address constructs
    exact absurd constructs (quiet obj m address)
  · intro obj _ _ destructs
    exact absurd destructs (kept obj)

theorem Inv.step (inv : s.Inv) (enabled : s.Enabled action) :
    ∃ t, s.step action = some t ∧ t.Inv ∧ s.Transition action t := by
  cases action with
  | construct obj m address => exact inv.construct enabled
  | destruct obj => exact inv.destruct enabled
  | safebind obj bind =>
    obtain ⟨member, fresh⟩ := enabled
    obtain ⟨r, t, taken, effect⟩ := safebind_effect inv (fun _ => holders_pos member) fresh
    exact ⟨t, by simp [HandleMgr.step, taken], effect.transition (by simp) (by simp)⟩
  | deleteHandle m =>
    obtain ⟨t, taken, effect⟩ := deleteHandleWo_effect inv m
    exact ⟨t, taken, effect.transition (by simp) (by simp)⟩

omit [DecidableEq Dst] [DecidableEq Obj] in
theorem inv_empty : (empty : HandleMgr Dst Obj).Inv := by
  constructor <;> simp [empty, holders]

theorem Run.inv (run : Run s actions t) (inv : s.Inv) : t.Inv := by
  induction run with
  | nil => exact inv
  | step before enabled taken ih =>
    obtain ⟨next, same, inv', -⟩ := ih.step enabled
    cases taken.symm.trans same
    exact inv'

/-- A destination without an `hinfo` stays so until a handle is constructed for it. -/
theorem Run.absent (run : Run s actions t) (inv : s.Inv) {m : Dst} (absent : s.hmap m = none)
    (quiet : ∀ action ∈ actions, action.made ≠ some m) : t.hmap m = none := by
  induction run with
  | nil => exact absent
  | @step actions mid action last before enabled taken ih =>
    obtain ⟨next, same, -, transition⟩ := (before.inv inv).step enabled
    cases taken.symm.trans same
    refine transition.absent m (quiet action (by simp)).symm (ih ?_)
    intro action member
    exact quiet action (by simp [member])

omit [DecidableEq Dst] in
/-- What every state shows of the cache and of the handles that use it. -/
structure Consistent (s : HandleMgr Dst Obj) : Prop where
  unique : ∀ p q info info', s.hinfos p = some info → s.hinfos q = some info' → info.m = info'.m → p = q
  counted : ∀ m p, s.hmap m = some p →
    ∃ info, s.hinfos p = some info ∧ info.m = m ∧ info.refcnt = (s.holders p).card
  pointed : ∀ obj ∈ s.live, ∀ p, s.h obj = some p →
    ∃ info, s.hinfos p = some info ∧ s.hmap info.m = some p
  connected : ∀ p info c, s.hinfos p = some info → info.cl = some c → c ∈ s.rpccs

omit [DecidableEq Dst] [DecidableEq Obj] in
theorem Inv.consistent (inv : s.Inv) : s.Consistent := by
  refine ⟨?_, ?_, ?_, inv.connected⟩
  · intro p q info info' found found' same
    have mapped := inv.listed p info found
    rw [same, inv.listed q info' found'] at mapped
    exact (Option.some.inj mapped).symm
  · intro m p mapped
    obtain ⟨info, found, named⟩ := inv.own m p mapped
    exact ⟨info, found, named, inv.counted p info found⟩
  · intro obj member p pointer
    obtain ⟨info, found⟩ := Option.ne_none_iff_exists'.mp (inv.held p (holders_pos member pointer))
    exact ⟨info, found, inv.listed p info found⟩

/-- When the last handle of a marked `hinfo` goes, the next handle for its destination
starts over. -/
def Restarts (s : HandleMgr Dst Obj) : Prop :=
  ∀ obj p info t later u other address v,
    obj ∈ s.live → s.holders p = {obj} → s.hinfos p = some info → info.del = true →
    s.step (.destruct obj) = some t →
    Run t later u → (∀ action ∈ later, action.made ≠ some info.m) →
    u.Enabled (.construct other info.m address) → u.step (.construct other info.m address) = some v →
    v.h other = some address ∧ v.hmap info.m = some address ∧
      v.hinfos address = some ⟨none, 1, false, info.m⟩

theorem Inv.restarts (inv : s.Inv) : s.Restarts := by
  intro obj p info t later u other address v member last found del destroyed run quiet enabled constructed
  obtain ⟨next, same, inv', transition⟩ := inv.destruct member
  cases destroyed.symm.trans same
  obtain ⟨-, gone⟩ := transition.removed obj p info rfl last found del
  obtain ⟨final, same', -, transition'⟩ := (run.inv inv').construct enabled
  cases constructed.symm.trans same'
  exact transition'.fresh other info.m address rfl (run.absent inv' gone quiet)

/-- Every action on handles counts them right, frees nothing that one of them uses, and
uses nothing that is freed. -/
theorem refcounted (run : Run empty actions s) :
    s.Consistent ∧ s.Restarts ∧
      ∀ action, s.Enabled action → ∃ t, s.step action = some t ∧ s.Transition action t := by
  have inv := run.inv inv_empty
  refine ⟨inv.consistent, inv.restarts, ?_⟩
  intro action enabled
  obtain ⟨t, taken, -, transition⟩ := inv.step enabled
  exact ⟨t, taken, transition⟩

private def unbound : HandleMgr String Nat :=
  { hmap := Function.update (fun _ => none) "dst" (some 4)
    hinfos := Function.update (Function.update (fun _ => none) 4 (some ⟨none, 1, false, "dst"⟩)) 4
      (some ⟨none, 1, true, "dst"⟩)
    rpccs := ∅
    live := {9}
    h := Function.update (fun _ => none) 9 (some 4) }

/-- A handle whose `bind` failed. -/
theorem refcounted_unbound :
    ∃ s : HandleMgr String Nat,
      Run empty [.construct 9 "dst" 4, .safebind 9 none] s ∧ s.hinfos 4 = some ⟨none, 1, true, "dst"⟩ ∧
      s.Consistent ∧ s.Restarts ∧
      ∀ action, s.Enabled action → ∃ t, s.step action = some t ∧ s.Transition action t := by
  have first : Run empty ([] ++ [.construct 9 "dst" 4]) _ :=
    .step .nil ⟨by simp [empty], rfl⟩ rfl
  have run : Run empty [.construct 9 "dst" 4, .safebind 9 none] unbound :=
    first.step ⟨by simp [empty], by simp⟩ rfl
  exact ⟨unbound, run, rfl, refcounted run⟩

end Run

end HandleMgr

end Yfs.Rpc
