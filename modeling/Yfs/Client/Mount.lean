import Yfs.Client.Directory
import Yfs.Extent.Intact

/-! What starting one more client does to what all clients see. -/

namespace Yfs.Client

open Yfs.Lib Yfs.Store Program
open Yfs.Extent (World View Env Event mask)

variable {Cid : Type}

/-- `yfs_client::yfs_client`, behind its connections to the two servers. -/
def construct : Prog Unit := do
  acquire 1
  let _ ← call (.put 1 [])
  release 1

section Root

open Yfs.Extent

/-- The call neither removes the root directory nor names it by another id that the
server masks to its own. -/
def SparesRoot (e : Event Cid) : Prop :=
  match e.call with
  | .create _ => True
  | .request r => (mask r.eid = 1 → r.eid = 1) ∧ r ≠ .remove 1

end Root

variable [DecidableEq Cid] {W W' : World Cid} {cid : Cid} {d : Nat}

/-- How the extent client of `cid` answers a call. -/
def served (cid : Cid) : (c : Call) → World Cid → c.Reply → World Cid → Prop
  | .get eid, W, r, W' => ∃ env buf,
    Act.Returns (Yfs.Extent.Client.get env cid eid) W buf W' ∧ r = (OK, buf)
  | .put eid buf, W, r, W' => ∃ env,
    Act.Returns (Yfs.Extent.Client.put env cid eid buf) W () W' ∧ r = OK
  | .getattr eid, W, r, W' => ∃ env a,
    Act.Returns (Yfs.Extent.Client.getattr env cid eid) W a W' ∧ r = (OK, a)
  | .create type, W, r, W' => ∃ eid, W.Step cid (.create type) (.id eid) W' ∧ r = (OK, eid)
  | .remove eid, W, r, W' => Act.Returns (Yfs.Extent.Client.remove eid) W () W' ∧ r = OK

/-- What a client may see of a program that it runs alone. -/
def Observes (cid : Cid) {α : Type} (p : Prog α) (W : World Cid) (a : α) : Prop :=
  ∃ W', Returns (served cid) p W a W'

/-- All clients see the same directories and files. -/
structure Unchanged (W W' : World Cid) : Prop where
  readdir : ∀ d, W.type d = some T_DIR → ∀ cid r,
    Observes cid (readdir d) W r ↔ Observes cid (readdir d) W' r
  lookup : ∀ d, W.type d = some T_DIR → ∀ name cid r,
    Observes cid (lookup d name) W r ↔ Observes cid (lookup d name) W' r
  content : ∀ id type, W.type id = some type → type ≠ T_DIR → ∀ cid r,
    Observes cid (call (.get id)) W r ↔ Observes cid (call (.get id)) W' r

/-- The entries that `__readdir` finds in the view of a directory. -/
def Lists (cid : Cid) (d : Nat) (v : View Cid) (list : List Entry) : Prop :=
  ∃ (env env' : Env) (buf : List UInt8) (u v' : View Cid) (a : Attr), View.Get env cid d v buf u ∧
    View.Getattr env'.memory cid u a v' ∧ a.type = T_DIR ∧ list = entries buf

section Masked

variable (masked : mask d = d)
include masked

theorem served_get {r : Status × List UInt8} : served cid (.get d) W r W' ↔
    ∃ env buf v, View.Get env cid d (W.view d) buf v ∧ r = (OK, buf) ∧ W' = W.setView d v := by
  simp only [served, Yfs.Extent.returns_get_iff masked]
  constructor
  · rintro ⟨env, buf, ⟨v, got, rfl⟩, rfl⟩
    exact ⟨env, buf, v, got, rfl, rfl⟩
  · rintro ⟨env, buf, v, got, rfl, rfl⟩
    exact ⟨env, buf, ⟨v, got, rfl⟩, rfl⟩

theorem served_getattr {r : Status × Attr} : served cid (.getattr d) W r W' ↔
    ∃ (env : Env) (a : Attr) (v : View Cid), View.Getattr env.memory cid (W.view d) a v ∧
      r = (OK, a) ∧ W' = W.setView d v := by
  simp only [served, Yfs.Extent.returns_getattr_iff masked]
  constructor
  · rintro ⟨env, a, ⟨v, asked, rfl⟩, rfl⟩
    exact ⟨env, a, v, asked, rfl, rfl⟩
  · rintro ⟨env, a, v, asked, rfl, rfl⟩
    exact ⟨env, a, ⟨v, asked, rfl⟩, rfl⟩

theorem observes_readdir_entries {list : List Entry} :
    Observes cid (__readdir d) W list ↔ Lists cid d (W.view d) list := by
  simp only [Observes, __readdir, call, done_bind, call_bind, pure_eq]
  constructor
  · rintro ⟨W', returned⟩
    obtain ⟨_, W₁, answered, got⟩ := returned.of_call
    obtain ⟨env, buf, u, first, rfl, rfl⟩ := (served_get masked).mp answered
    rw [if_neg (by simp)] at got
    obtain ⟨_, W₂, asked, known⟩ := got.of_call
    obtain ⟨env', a, v', second, rfl, rfl⟩ := (served_getattr masked).mp asked
    rw [World.view_setView] at second
    dsimp only at known
    split at known
    · exact absurd known returns_abort
    · rename_i directory
      obtain ⟨rfl, -⟩ := returns_done.mp known
      exact ⟨env, env', buf, u, v', a, first, second, by simpa using directory, rfl⟩
  · rintro ⟨env, env', buf, u, v', a, first, second, directory, rfl⟩
    rw [← World.view_setView W d u] at second
    refine ⟨(W.setView d u).setView d v', .call ((served_get masked).mpr ⟨env, buf, u, first, rfl, rfl⟩) ?_⟩
    rw [if_neg (by simp)]
    refine .call ((served_getattr masked).mpr ⟨env', a, v', second, rfl, rfl⟩) ?_
    dsimp only
    rw [if_neg (by simpa using directory)]
    exact .done

theorem observes_readdir {r : Status × List (List UInt8 × Nat)} : Observes cid (readdir d) W r ↔
    ∃ list, Lists cid d (W.view d) list ∧ r = (OK, list.map fun it => (it.name, it.inum)) := by
  simp only [← observes_readdir_entries masked, Observes, Client.readdir, acquire, release,
    acquire_bind, release_bind, done_bind, pure_eq, returns_acquire]
  constructor
  · rintro ⟨W', returned⟩
    obtain ⟨list, W₁, first, second⟩ := returned.of_bind
    obtain ⟨rfl, rfl⟩ := returns_done.mp (returns_release.mp second)
    exact ⟨list, ⟨_, first⟩, rfl⟩
  · rintro ⟨list, ⟨W', first⟩, rfl⟩
    exact ⟨W', first.bind (.release .done)⟩

theorem observes_lookup {name : List UInt8} {r : Status × Option Nat} :
    Observes cid (lookup d name) W r ↔ ∃ list, Lists cid d (W.view d) list ∧
      r = (list.find? (·.name = name)).elim (OK, none) fun it => (EXIST, some it.inum) := by
  simp only [← observes_readdir_entries masked, Observes, Client.lookup, __lookup, acquire, release,
    acquire_bind, release_bind, done_bind, pure_eq, returns_acquire, bind_assoc]
  constructor
  · rintro ⟨W', returned⟩
    obtain ⟨list, W₁, first, second⟩ := returned.of_bind
    refine ⟨list, ⟨W₁, first⟩, ?_⟩
    cases hit : list.find? (·.name = name) with
    | none =>
      rw [hit] at second
      exact (returns_done.mp (returns_release.mp second)).1
    | some it =>
      rw [hit] at second
      exact (returns_done.mp (returns_release.mp second)).1
  · rintro ⟨list, ⟨W', first⟩, rfl⟩
    refine ⟨W', first.bind ?_⟩
    cases list.find? (·.name = name) with
    | none => exact .release .done
    | some it => exact .release .done

theorem observes_get {r : Status × List UInt8} : Observes cid (call (.get d)) W r ↔
    ∃ env buf v, View.Get env cid d (W.view d) buf v ∧ r = (OK, buf) := by
  constructor
  · rintro ⟨W', returned⟩
    obtain ⟨_, W₁, answered, rest⟩ := returned.of_call
    obtain ⟨env, buf, v, got, rfl, rfl⟩ := (served_get masked).mp answered
    obtain ⟨rfl, -⟩ := returns_done.mp rest
    exact ⟨env, buf, v, got, rfl⟩
  · rintro ⟨env, buf, v, got, rfl⟩
    exact ⟨_, .call ((served_get masked).mpr ⟨env, buf, v, got, rfl, rfl⟩) .done⟩

end Masked

/-- An intact directory lists its entries to every client. -/
theorem lists_iff {sized : UInt32 → Prop} {bytes : List UInt8} {v : View Cid} {list : List Entry}
    (intact : View.Intact T_DIR sized bytes v) (fits : sized (.ofNat bytes.length)) :
    Lists cid d v list ↔ list = entries bytes := by
  constructor
  · rintro ⟨env, env', buf, u, v', a, got, asked, directory, rfl⟩
    rw [(intact.got fits got).1]
  · rintro rfl
    obtain ⟨u, got⟩ := intact.gets .still cid d
    have after := (intact.got fits got).2
    obtain ⟨a, v', asked⟩ := after.asks Env.still.memory cid
    exact ⟨.still, .still, bytes, u, v', a, got, asked, (after.asked fits asked).1.1, rfl⟩

theorem returns_construct : Returns (served cid) construct W () W' ↔
    ∃ env v, View.Put env cid (W.view 1) [] v ∧ W' = W.setView 1 v := by
  have masked : mask 1 = 1 := by decide
  simp only [construct, acquire, release, call, acquire_bind, done_bind, call_bind, returns_acquire]
  constructor
  · intro returned
    obtain ⟨_, W₁, ⟨env, put, rfl⟩, rest⟩ := returned.of_call
    obtain ⟨-, rfl⟩ := returns_done.mp (returns_release.mp rest)
    obtain ⟨v, written, rfl⟩ := (Yfs.Extent.returns_put_iff masked).mp put
    exact ⟨env, v, written, rfl⟩
  · rintro ⟨env, v, written, rfl⟩
    have answered : served cid (.put 1 []) W OK (W.setView 1 v) :=
      ⟨env, (Yfs.Extent.returns_put_iff masked).mpr ⟨v, written, rfl⟩, rfl⟩
    exact .call answered (.release .done)

section Effect

variable {bytes : List UInt8}

/-- The constructor writes the root directory and nothing else. All clients see the same
afterwards exactly where the directory had no entries. -/
theorem unchanged_iff (live : ∀ k, W.server.files k ≠ none → mask k = k)
    (intact : View.Intact T_DIR (fun _ => True) bytes (W.view 1))
    (built : Returns (served cid) construct W () W') :
    Unchanged W W' ↔ listing (W.content 1) = [] := by
  obtain ⟨env, v, put, rfl⟩ := returns_construct.mp built
  have first : mask 1 = 1 := by decide
  have after : View.Intact T_DIR (fun _ => True) [] v :=
    intact.put trivial trivial (fun _ _ _ _ _ => trivial) put
  have masked : ∀ {d type}, W.type d = some type → mask d = d := by
    intro d type typed
    apply live
    intro missing
    simp [World.type, missing] at typed
  rw [World.content_of_intact intact]
  constructor
  · intro unchanged
    obtain ⟨f, there, typed, -⟩ := intact.file
    have found : W.server.files 1 = some f := there
    have directory : W.type 1 = some T_DIR := by simp [World.type, found, typed]
    have seen : Observes cid (readdir 1) W (OK, listing bytes) :=
      (observes_readdir first).mpr ⟨entries bytes, (lists_iff intact trivial).mpr rfl, rfl⟩
    obtain ⟨list, lists, same⟩ := (observes_readdir first).mp
      ((unchanged.readdir 1 directory cid _).mp seen)
    rw [World.view_setView, lists_iff after trivial] at lists
    rw [lists] at same
    exact congrArg Prod.snd same
  · intro empty
    have none : entries bytes = [] := List.map_eq_nil_iff.mp empty
    have lists : ∀ d, W.type d = some T_DIR → ∀ c list,
        Lists c d (W.view d) list ↔ Lists c d ((W.setView 1 v).view d) list := by
      intro d directory c list
      by_cases root : d = 1
      · subst root
        rw [World.view_setView, lists_iff intact trivial, lists_iff after trivial, none]
        rfl
      · rw [World.view_setView_ne _ _ _ root]
    constructor
    · intro d directory c r
      simp only [observes_readdir (masked directory), lists d directory c]
    · intro d directory name c r
      simp only [observes_lookup (masked directory), lists d directory c]
    · intro id type typed other c r
      have apart : id ≠ 1 := by
        rintro rfl
        obtain ⟨f, there, directory, -⟩ := intact.file
        have found : W.server.files 1 = some f := there
        simp [World.type, found, directory] at typed
        exact other typed.symm
      simp only [observes_get (masked typed), World.view_setView_ne _ _ _ apart]

theorem root_step {call : Yfs.Extent.Call} {answer : Yfs.Extent.Answer}
    (intact : View.Intact T_DIR (fun _ => True) bytes (W.view 1)) (step : W.Step cid call answer W')
    (spares : SparesRoot ⟨W, cid, call, answer⟩) :
    ∃ new, View.Intact T_DIR (fun _ => True) new (W'.view 1) := by
  have move := step.move (k := 1) (by decide)
  generalize W'.view 1 = v' at move
  cases move with
  | created dead =>
    obtain ⟨f, there, -⟩ := intact.file
    simp [dead] at there
  | other => exact ⟨bytes, intact⟩
  | got got => exact ⟨bytes, (intact.got trivial got).2⟩
  | put put => exact ⟨_, intact.put trivial trivial (fun _ _ _ _ _ => trivial) put⟩
  | asked asked => exact ⟨bytes, (intact.asked trivial asked).2⟩
  | removed same =>
    obtain ⟨named, kept⟩ := spares
    exact absurd (congrArg Yfs.Extent.Request.remove (named same)) kept
  | aliased same other => exact absurd (spares.1 same) other
  | idle => exact ⟨bytes, intact⟩

variable {start : World Cid} {log : List (Event Cid)}

/-- The root directory in every state that clients reach without removing it. -/
theorem root_run (initial : start.Initial) (root : start.type 1 = some T_DIR) (run : start.Run log W)
    (spares : ∀ e ∈ log, SparesRoot e) :
    ∃ bytes, View.Intact T_DIR (fun _ => True) bytes (W.view 1) := by
  induction run with
  | nil =>
    obtain ⟨f, found, typed⟩ := Option.map_eq_some_iff.mp root
    refine ⟨f.bytes, ⟨f, found, typed, fun _ => rfl⟩, ?_, ?_, ?_⟩
    · intro o owned
      exact absurd ((initial.ownerMap 1).symm.trans owned) (by simp)
    · intro c b own
      exact absurd ((initial.dataMap c 1).symm.trans own) (by simp)
    · intro c a known
      exact absurd ((initial.metadataMap c 1).symm.trans known) (by simp)
  | cons _ step ih =>
    rw [List.forall_mem_cons] at spares
    obtain ⟨bytes, intact⟩ := ih spares.2
    exact root_step intact step spares.1

theorem live_masked (initial : start.Initial) (run : start.Run log W) {k : Nat}
    (live : W.server.files k ≠ none) : mask k = k := by
  induction run with
  | nil => exact World.mask_of_lt (initial.files k live)
  | cons _ step ih =>
    by_contra away
    exact away (ih (step.files_unmasked away ▸ live))

/-- One more client always starts, and all clients see the directories and files they
saw before if and only if the root directory had no entries. -/
theorem construct_preserves_iff_empty (initial : start.Initial) (root : start.type 1 = some T_DIR)
    (run : start.Run log W) (spares : ∀ e ∈ log, SparesRoot e) (cid : Cid) :
    (∃ W', Returns (served cid) construct W () W') ∧
      ∀ W', Returns (served cid) construct W () W' → (Unchanged W W' ↔ listing (W.content 1) = []) := by
  obtain ⟨bytes, intact⟩ := root_run initial root run spares
  constructor
  · obtain ⟨v, put⟩ := intact.puts .still cid []
    exact ⟨_, returns_construct.mpr ⟨_, v, put, rfl⟩⟩
  · intro W' built
    exact unchanged_iff (fun k live => live_masked initial run live) intact built

end Effect

section Remount

private def dusk : Clock := ⟨0, 0, 0⟩

theorem construct_preserves_iff_empty_boot :
    ∃ W', Returns (served 0) construct (World.boot dusk : World Nat) () W' ∧
      Unchanged (World.boot dusk) W' := by
  obtain ⟨⟨W', built⟩, unchanged⟩ := construct_preserves_iff_empty (World.boot_initial dusk)
    (by rfl) .nil (by simp) (0 : Nat)
  exact ⟨W', built, (unchanged W' built).mpr rfl⟩

/-- An entry `a` for the inode 2. -/
private def record : List UInt8 := (newEntry (fun _ => 0) 2 [97]).bytes

/-- Client 0 has created a file in the root directory. -/
private def filed : World Nat :=
  (World.boot dusk).setFiles (Function.update (World.boot dusk : World Nat).server.files 2
    (some (.new T_FILE dusk)))

private def linked : World Nat := filed.next .still 0 (.put 1 record)

private def linking : List (Event Nat) :=
  [⟨filed, 0, .request (.put 1 record), .done⟩, ⟨World.boot dusk, 0, .create T_FILE, .id 2⟩]

private theorem linking_run : (World.boot dusk).Run linking linked := by
  have alloc : (World.boot dusk : World Nat).server.files.Step
      (.alloc T_FILE ⟨0, 0, 0, 0, 0, fun _ => 0⟩ dusk) (.inum 2) filed.server.files :=
    .alloc rfl (by decide)
  have put : ((Yfs.Extent.Request.put 1 record).run .still 0 filed).2 = .ok (.done, linked) := rfl
  exact .cons (.cons .nil (.create alloc)) (.request put)

private theorem linking_spares : ∀ e ∈ linking, SparesRoot e := by
  rw [linking, List.forall_mem_cons, List.forall_mem_singleton]
  exact ⟨⟨fun _ => rfl, by simp⟩, trivial⟩

private theorem listing_record : listing record = [([97], 2)] := by
  have nothing : ENTRY_SIZE ∣ ([] : List UInt8).length := by decide
  have small : 2 < 2 ^ 64 := by decide
  exact listing_append nothing (fun _ => 0) ⟨[97], by decide, by decide, by decide⟩ small

/-- When client 1 starts, the file of client 0 is gone from the root directory. -/
theorem construct_empties_root :
    (World.boot dusk).Run linking linked ∧ (∀ e ∈ linking, SparesRoot e) ∧
      ∃ W', Returns (served 1) construct linked () W' ∧ ¬ Unchanged linked W' := by
  obtain ⟨bytes, intact⟩ := root_run (World.boot_initial dusk) (by rfl) linking_run linking_spares
  obtain ⟨v, put⟩ := intact.puts .still 1 []
  have built := returns_construct.mpr ⟨_, v, put, rfl⟩
  refine ⟨linking_run, linking_spares, _, built, ?_⟩
  rw [unchanged_iff (fun k live => live_masked (World.boot_initial dusk) linking_run live) intact built]
  have written : linked.content 1 = record := rfl
  rw [written, listing_record]
  exact List.cons_ne_nil _ _

end Remount

end Yfs.Client
