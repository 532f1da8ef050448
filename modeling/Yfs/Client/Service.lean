import Yfs.Client.Handlers

/-! A mounted file system serves the requests of the kernel one after the other, and its replies
are those of a file tree. -/

namespace Yfs.Client

open Yfs.Lib Program
open Yfs.Store (T_FILE T_DIR T_SYMLINK INODE_NUM MAXSIZE)

/-- The invariant of the extents behind a mounted file system. -/
structure Mounted (E : Extents) : Prop where
  sane : Sane E
  typed : ∀ i x, E i = some x → x.Typed
  compact : Compact E
  links : ∀ i target, E i = some ⟨T_SYMLINK, target⟩ → 0 ∉ target
  names : ∀ d buf, E d = some ⟨T_DIR, buf⟩ → ∀ p ∈ listing buf, 0 ∉ p.1

section Tree

variable {E : Extents} {i : Nat}

theorem tree_update (E : Extents) (i : Nat) (x : Option Extent) :
    tree (Function.update E i x) = Function.update (tree E) i (x.map Extent.node) := by
  funext k
  by_cases same : k = i <;> simp [tree, same]

@[simp] theorem node_dir (buf : List UInt8) : Extent.node ⟨T_DIR, buf⟩ = .dir (listing buf) := rfl

@[simp] theorem node_link (target : List UInt8) : Extent.node ⟨T_SYMLINK, target⟩ = .link target := rfl

@[simp] theorem node_file (content : List UInt8) : Extent.node ⟨T_FILE, content⟩ = .file content := rfl

theorem tree_dir {names : List (List UInt8 × Nat)} (found : tree E i = some (.dir names)) :
    ∃ buf, E i = some ⟨T_DIR, buf⟩ ∧ names = listing buf := by
  obtain ⟨⟨type, bytes⟩, live, same⟩ := Option.map_eq_some_iff.mp found
  unfold Extent.node at same
  split at same
  · rename_i directory
    cases same
    exact ⟨bytes, by rw [live]; simpa using directory, rfl⟩
  · split at same <;> cases same

theorem tree_link {target : List UInt8} (found : tree E i = some (.link target)) :
    E i = some ⟨T_SYMLINK, target⟩ := by
  obtain ⟨⟨type, bytes⟩, live, same⟩ := Option.map_eq_some_iff.mp found
  unfold Extent.node at same
  split at same
  · cases same
  · split at same
    · rename_i link
      cases same
      rw [live]
      simpa using link
    · cases same

theorem Mounted.file {content : List UInt8} (mounted : Mounted E)
    (found : tree E i = some (.file content)) : E i = some ⟨T_FILE, content⟩ := by
  obtain ⟨⟨type, bytes⟩, live, same⟩ := Option.map_eq_some_iff.mp found
  unfold Extent.node at same
  split at same
  · cases same
  · rename_i plain
    split at same
    · cases same
    · rename_i unlinked
      cases same
      have file : type = T_FILE :=
        (mounted.typed i _ live).resolve_right fun other => other.elim plain unlinked
      rw [live, file]

theorem tree_live {x : Extent} (live : E i = some x) : tree E i = some x.node := by simp [tree, live]

theorem tree_dead : tree E i = none ↔ E i = none := by simp [tree]

end Tree

section Steps

variable {E : Extents} {d ino : Nat} {buf : List UInt8}

theorem Mounted.written {x : Extent} {bytes : List UInt8} (mounted : Mounted E) (live : E ino = some x)
    (file : x.type = T_FILE) (sized : bytes.length ≤ MAXSIZE) :
    Mounted (Function.update E ino (some { x with bytes })) := by
  have other : x.type ≠ T_DIR ∧ x.type ≠ T_SYMLINK := by rw [file]; decide
  have compact : Compact (Function.update E ino (some { x with bytes })) :=
    mounted.compact.update (mounted.compact.small ino x live) fun _ => sized
  refine ⟨mounted.sane.written live other.1 bytes, ?_, compact, ?_, written_directories mounted.names other.1⟩
  · intro i y found
    by_cases same : i = ino
    · subst same
      simp only [Function.update_self, Option.some.injEq] at found
      subst found
      exact .inl file
    · exact mounted.typed i y (by simpa [same] using found)
  · intro i target found
    by_cases same : i = ino
    · subst same
      have link : x.type = T_SYMLINK := by simpa using congrArg (Option.map Extent.type) found
      exact absurd link other.2
    · exact mounted.links i target (by simpa [same] using found)

/-- A creation with a name that is not there. -/
theorem Mounted.made {op : TreeOp} {m : Making} (mounted : Mounted E) (making : op.making = some m)
    (short : m.name.bytes.length ≤ MAX_LENGTH) (found : E m.parent = some ⟨T_DIR, buf⟩)
    (miss : (entries buf).find? (·.name = m.name.bytes) = none) (dead : E ino = none)
    (small : ino < INODE_NUM) (sized : m.content.length ≤ MAXSIZE)
    (plain : m.type = T_SYMLINK → 0 ∉ m.content) : Mounted (m.apply ino buf E) := by
  have large : ino < 2 ^ 64 := small.trans (by decide)
  have places : ∀ i x, m.apply ino buf E i = some x → x.type = T_DIR ∨ x = ⟨m.type, m.content⟩ ∨
      E i = some x := by
    intro i x after
    by_cases home : i = m.parent
    · rw [home, Making.apply_parent] at after
      cases after
      exact .inl rfl
    · by_cases self : i = ino
      · have new : some ⟨m.type, m.content⟩ = some x := by simpa [Making.apply, self ▸ home, self] using after
        exact .inr (.inl (Option.some.inj new).symm)
      · exact .inr (.inr (by rwa [Making.apply_of_ne home self] at after))
  have compact := mounted.compact.made found small sized
  refine ⟨mounted.sane.made making short found miss dead large, ?_, compact, ?_, ?_⟩
  · intro i x after
    rcases places i x after with directory | rfl | old
    · exact .inr (.inl directory)
    · cases op <;> cases making
      · exact .inl rfl
      · exact .inr (.inl rfl)
      · exact .inr (.inr rfl)
    · exact mounted.typed i x old
  · intro i target after
    rcases places i _ after with directory | same | old
    · exact absurd directory (show T_SYMLINK ≠ T_DIR by decide)
    · obtain ⟨type, content⟩ := Extent.mk.inj same
      rw [content]
      exact plain type.symm
    · exact mounted.links i target old
  · refine Making.apply_directories mounted.names making ?_ (by simp [listing, entries_nil])
    have whole := (mounted.sane.orderly _ _ found).whole
    have listed := listing_append whole m.memory (m.name.toName short) large
    rw [Component.toName_bytes] at listed
    rw [listed, List.forall_mem_append, List.forall_mem_singleton]
    exact ⟨mounted.names _ _ found, m.name.noNul⟩

theorem tree_made {m : Making} (mounted : Mounted E) (short : m.name.bytes.length ≤ MAX_LENGTH)
    (found : E m.parent = some ⟨T_DIR, buf⟩) (small : ino < 2 ^ 64) :
    tree (m.apply ino buf E) = Function.update (Function.update (tree E) ino
      (some (Extent.node ⟨m.type, m.content⟩))) m.parent
        (some (.dir (listing buf ++ [(m.name.bytes, ino)]))) := by
  have whole := (mounted.sane.orderly _ _ found).whole
  have listed := listing_append whole m.memory (m.name.toName short) small
  rw [Component.toName_bytes] at listed
  rw [Making.apply, tree_update, tree_update, Option.map_some, Option.map_some, node_dir, listed]

/-- `unlink` of what is no directory. -/
theorem Mounted.unlinked {name : List UInt8} {memory : Nat → Entry} {it : Entry} (mounted : Mounted E)
    (found : E d = some ⟨T_DIR, buf⟩) (hit : (entries buf).find? (·.name = name) = some it)
    (leaf : ∀ content, E it.inum ≠ some ⟨T_DIR, content⟩) :
    Mounted (unlinked d name memory it buf E) := by
  have apart : it.inum ≠ d := fun same => leaf buf (same ▸ found)
  have childless : ∀ k, ¬ (Client.links E).Links it.inum k :=
    childless_iff.mpr fun content directory => absurd directory (leaf content)
  have places : ∀ i x, Client.unlinked d name memory it buf E i = some x → x.type = T_DIR ∨ E i = some x := by
    intro i x after
    by_cases home : i = d
    · rw [home, unlinked_parent] at after
      cases after
      exact .inl rfl
    · by_cases self : i = it.inum
      · rw [self, unlinked_target apart] at after
        cases after
      · exact .inr (by rwa [unlinked_of_ne home self] at after)
  refine ⟨mounted.sane.unlinked found hit apart childless, ?_, mounted.compact.unlinked found, ?_, ?_⟩
  · intro i x after
    rcases places i x after with directory | old
    · exact .inr (.inl directory)
    · exact mounted.typed i x old
  · intro i target after
    rcases places i _ after with directory | old
    · exact absurd directory (show T_SYMLINK ≠ T_DIR by decide)
    · exact mounted.links i target old
  · refine unlinked_directories mounted.names ?_
    rw [listing_erase (mounted.sane.orderly _ _ found).short]
    exact fun p member => mounted.names _ _ found p (List.mem_of_mem_eraseP member)

theorem mounted_emptyRoot : Mounted emptyRoot := by
  refine ⟨emptyRoot_sane, ?_, emptyRoot_compact, ?_, emptyRoot_directories (by simp [listing, entries_nil])⟩
  · intro i x found
    have root : some ⟨T_DIR, []⟩ = some x := by
      unfold emptyRoot at found
      split at found
      · exact found
      · cases found
    cases root
    exact .inr (.inl rfl)
  · intro i target found
    unfold emptyRoot at found
    split at found
    · cases found
    · cases found

theorem tree_emptyRoot : tree emptyRoot = FileTree.empty := by
  funext i
  by_cases same : i = 1 <;> simp [tree, emptyRoot, FileTree.empty, same, listing, entries_nil]

end Steps

namespace Fuse

/-- The reply and the extents after a request are those of the tree. -/
def Meets (L : Libfuse) (request : Request) (E : Extents) (reply : Reply) (E' : Extents) : Prop :=
  FileTree.Handles L (tree E) request reply (tree E') ∧ Mounted E'

variable {L : Libfuse} {spare : Nat → Prop} {E : Extents} {ino : Nat} {x : Extent} {buf : List UInt8}

/-- The handlers that end with the attributes of an inode. -/
theorem clean_described {α : Type} {f : Status × Stat → Prog α} {Q : α → Extents → Prop}
    (mounted : Mounted E) (live : E ino = some x)
    (rest : ∀ st : Stat, st.Describes ino x.node → (f (OK, st)).Clean (given spare) Q E) :
    (Fuse.getattr ino >>= f).Clean (given spare) Q E := by
  refine Clean.bind (Clean.mono ?_ (clean_getattr live (mounted.typed ino x live)))
  rintro ⟨ret, st⟩ _ ⟨status, described, rfl⟩
  cases status
  exact rest st described

theorem clean_fuseserverGetattr (mounted : Mounted E) (live : E ino = some x) :
    (fuseserverGetattr ino).Clean (given spare) (Meets L (.getattr ino) E) E := by
  refine clean_described mounted live fun st described => ?_
  exact clean_done.mpr ⟨.getattr (tree_live live) described, mounted⟩

theorem clean_fuseserverSetattr (mounted : Mounted E) {size toSet : Nat}
    (admitted : (tree E).Admits (.setattr ino size toSet)) :
    (fuseserverSetattr ino size toSet).Clean (given spare) (Meets L (.setattr ino size toSet) E) E := by
  unfold fuseserverSetattr
  split
  · rename_i sized
    obtain ⟨small, c, found⟩ := admitted sized
    have live := mounted.file found
    refine Clean.bind (Clean.mono ?_ (clean_setattr live size))
    rintro _ _ rfl
    have length : (truncate c size).length ≤ MAXSIZE := by simpa [truncate] using small
    have kept := mounted.written live rfl length
    refine clean_described kept (Function.update_self ..) fun st described => ?_
    refine clean_done.mpr ⟨?_, kept⟩
    rw [tree_update]
    exact .resized sized found described
  · rename_i other
    exact clean_done.mpr ⟨.ignored (by simpa using other), mounted⟩

theorem clean_fuseserverRead (mounted : Mounted E) {size off : Nat} {c : List UInt8}
    (found : tree E ino = some (.file c)) (inside : off < c.length) :
    (fuseserverRead ino size off).Clean (given spare) (Meets L (.read ino size off) E) E := by
  refine Clean.bind (Clean.mono ?_ (clean_read (mounted.file found) inside size))
  rintro _ _ ⟨rfl, rfl⟩
  exact clean_done.mpr ⟨.read found, mounted⟩

theorem clean_fuseserverWrite (mounted : Mounted E) {off : Nat} {c data : List UInt8}
    (found : tree E ino = some (.file c)) (sized : off + data.length ≤ MAXSIZE) :
    (fuseserverWrite ino data off).Clean (given spare) (Meets L (.write ino data off) E) E := by
  have live := mounted.file found
  have small : off < 2 ^ 32 := Nat.lt_of_le_of_lt ((Nat.le_add_right ..).trans sized) (by decide)
  have length : (writeAt c off data).length ≤ MAXSIZE := by
    have before := mounted.sane.fits mounted.compact live
    simpa [writeAt] using ⟨before, sized⟩
  refine Clean.bind (Clean.mono ?_ (clean_write live small data))
  rintro ⟨r, count⟩ _ ⟨status, counted, rfl⟩
  cases status
  refine clean_done.mpr ⟨?_, mounted.written live rfl length⟩
  rw [tree_update]
  exact .written found counted

theorem clean_fuseserverLookup (mounted : Mounted E) {parent : Nat} (name : Component)
    (found : E parent = some ⟨T_DIR, buf⟩) :
    (fuseserverLookup parent name.bytes).Clean (given spare) (Meets L (.lookup parent name) E) E := by
  refine Clean.bind (Clean.mono ?_ (clean_lookup found))
  rintro ⟨status, _⟩ _ ⟨looked, rfl⟩
  dsimp only at looked
  rcases hit : (entries buf).find? (·.name = name.bytes) with _ | it
  · rw [hit] at looked
    subst looked
    exact clean_done.mpr ⟨.missed (tree_live found) (name_absent hit), mounted⟩
  · rw [hit] at looked
    subst looked
    obtain ⟨x, live⟩ := Option.ne_none_iff_exists'.mp (mounted.sane.target_live found hit)
    refine clean_described mounted live fun st described => clean_done.mpr ⟨?_, mounted⟩
    exact .looked (tree_live found) (find_name hit) (tree_live live) described

theorem clean_fuseserverUnlink (mounted : Mounted E) {parent : Nat} {name : Component}
    (memory : Nat → Entry) (free : ∀ id, spare id → E id = none)
    (admitted : (tree E).Admits (.unlink parent name)) :
    (fuseserverUnlink parent name.bytes memory).Clean (given spare) (Meets L (.unlink parent name) E) E := by
  obtain ⟨_, here, leaf⟩ := admitted
  obtain ⟨buf, found, rfl⟩ := tree_dir here
  have plain : ∀ it, (entries buf).find? (·.name = name.bytes) = some it →
      ∀ content, E it.inum ≠ some ⟨T_DIR, content⟩ := fun it hit content directory =>
    leaf it.inum (listing content) (find_name hit) (tree_live directory)
  have apart : ∀ it, (entries buf).find? (·.name = name.bytes) = some it → it.inum ≠ parent :=
    fun it hit same => plain it hit buf (same ▸ found)
  have unlinks := clean_unlink found memory free apart fun it hit => mounted.sane.target_live found hit
  refine Clean.bind (Clean.mono ?_ unlinks)
  rintro _ _ (⟨miss, rfl, rfl⟩ | ⟨it, hit, rfl, rfl⟩)
  · exact clean_done.mpr ⟨.absent here (name_absent miss), mounted⟩
  · refine clean_done.mpr ⟨?_, mounted.unlinked found hit (plain it hit)⟩
    obtain ⟨before, after, split, erased⟩ :=
      listing_around memory (mounted.sane.orderly _ _ found).short hit
    rw [unlinked, tree_update, tree_update, Option.map_some, node_dir, erased]
    exact .unlinked (by rw [here, split])

theorem clean_fuseserverReadlink (mounted : Mounted E) {target : List UInt8}
    (found : tree E ino = some (.link target)) :
    (fuseserverReadlink ino).Clean (given spare) (Meets L (.readlink ino) E) E := by
  have live := tree_link found
  refine Clean.bind (Clean.mono ?_ (clean_readlink live))
  rintro _ _ ⟨rfl, rfl⟩
  refine clean_done.mpr ⟨?_, mounted⟩
  dsimp only
  rw [cString_of_noNul (mounted.links ino target live)]
  exact .readlink found

theorem clean_readdir_request (lawful : L.Lawful) (mounted : Mounted E) (live : E ino = some x)
    (memory : Nat → Entry) (size off : Nat) :
    (handle L memory (.readdir ino size off)).Clean (given spare) (Meets L (.readdir ino size off) E) E := by
  refine Clean.bind (Clean.bind (Clean.mono ?_ (clean_hasType live T_DIR)))
  rintro _ _ ⟨rfl, rfl⟩
  by_cases directory : x.type = T_DIR
  · have found := live
    rw [show x = ⟨T_DIR, x.bytes⟩ by rw [← directory]] at found
    rw [if_pos (by simpa using directory)]
    refine Clean.bind (Clean.mono ?_ (clean_readdir found))
    rintro _ _ ⟨rfl, rfl⟩
    refine clean_done.mpr (clean_done.mpr ⟨?_, mounted⟩)
    have whole : (listing x.bytes).foldl (fun b d => dirbufAdd L b d.1 d.2) ⟨[], 0⟩ =
        ⟨L.format.layout 0 (listing x.bytes), L.format.total (listing x.bytes)⟩ := by
      simpa using foldl_dirbufAdd (L := L) _ ⟨[], 0⟩ (mounted.names ino _ found)
    rw [whole, replyBufLimited_eq (RecordFormat.Lawful.layout_length lawful _ 0)]
    exact .listed (tree_live found)
  · rw [if_neg (by simpa using directory)]
    refine clean_done.mpr (clean_done.mpr ⟨.unlisted (tree_live live) fun names same => ?_, mounted⟩)
    rw [Extent.node, if_neg directory] at same
    split at same <;> cases same

section Making

variable {parent : Nat} {name : Component} {memory : Entry}

/-- What a creation leaves is what the tree is to have. -/
theorem meets_made {op : TreeOp} {m : Making} {request : Request} {reply : Nat → Stat → Reply}
    (mounted : Mounted E) (making : op.making = some m)
    (makes : request.makes = some (m.parent, m.name, Extent.node ⟨m.type, m.content⟩, reply))
    (short : m.name.bytes.length ≤ MAX_LENGTH) (found : E m.parent = some ⟨T_DIR, buf⟩)
    (miss : (entries buf).find? (·.name = m.name.bytes) = none) (dead : E ino = none)
    (small : ino < INODE_NUM) (sized : m.content.length ≤ MAXSIZE)
    (plain : m.type = T_SYMLINK → 0 ∉ m.content) :
    Mounted (m.apply ino buf E) ∧ m.apply ino buf E ino = some ⟨m.type, m.content⟩ ∧
      ∀ st : Stat, st.Describes ino (Extent.node ⟨m.type, m.content⟩) →
        Meets L request E (reply ino st) (m.apply ino buf E) := by
  have large : ino < 2 ^ 64 := small.trans (by decide)
  have kept := mounted.made making short found miss dead small sized plain
  have apart := parent_ne_new found dead
  refine ⟨kept, ?_, fun st described => ⟨?_, kept⟩⟩
  · rw [Making.apply, Function.update_of_ne (Ne.symm apart), Function.update_self]
  · rw [tree_made mounted short found large]
    exact .made makes (tree_live found) (name_absent miss) (tree_dead.mpr dead) described

theorem clean_fuseserverCreatehelper (op : TreeOp) {type : UInt32} {request : Request}
    {reply : Nat → Stat → Reply} (mounted : Mounted E) (kind : type = T_FILE ∨ type = T_DIR)
    (making : op.making = some ⟨parent, name, memory, type, []⟩)
    (makes : request.makes = some (parent, name, Extent.node ⟨type, []⟩, reply))
    (short : name.bytes.length ≤ MAX_LENGTH) (room : Spare spare E) (found : E parent = some ⟨T_DIR, buf⟩) :
    (fuseserverCreatehelper parent name.bytes type memory).Clean (given spare)
      (fun r E' => Meets L request E (replyMade reply r) E') E := by
  have body : (if type = T_FILE then create parent name.bytes memory else mkdir parent name.bytes memory) =
      createNode type parent name.bytes memory := by
    rcases kind with rfl | rfl <;> rfl
  unfold fuseserverCreatehelper
  rw [body]
  refine Clean.bind (Clean.mono ?_ (clean_createNode found type memory fun _ => room))
  rintro _ _ (⟨hit, rfl, rfl⟩ | ⟨ino, miss, -, small, dead, rfl, rfl⟩)
  · exact clean_done.mpr ⟨.exist makes (tree_live found) (name_present hit), mounted⟩
  · have plain : type = T_SYMLINK → 0 ∉ ([] : List UInt8) := by simp
    obtain ⟨kept, live, meets⟩ :=
      meets_made mounted making makes short found miss dead small (Nat.zero_le _) plain
    exact clean_described kept live fun st described => clean_done.mpr (meets st described)

theorem clean_fuseserverSymlink {link : List UInt8} (mounted : Mounted E)
    (short : name.bytes.length ≤ MAX_LENGTH) (plain : 0 ∉ link) (sized : link.length ≤ MAXSIZE)
    (room : Spare spare E) (found : E parent = some ⟨T_DIR, buf⟩) :
    (fuseserverSymlink link parent name.bytes memory).Clean (given spare)
      (Meets L (.symlink link parent name) E) E := by
  refine Clean.bind (Clean.mono ?_ (clean_symlink found link memory fun _ => room))
  rintro _ _ (⟨hit, rfl, rfl⟩ | ⟨ino, miss, -, small, dead, rfl, rfl⟩)
  · exact clean_done.mpr ⟨.exist rfl (tree_live found) (name_present hit), mounted⟩
  · have makes : (Request.symlink link parent name).makes = some (parent, name, .link link, .entry) := rfl
    have making : (TreeOp.symlink parent name link memory).making =
      some ⟨parent, name, memory, T_SYMLINK, link⟩ := rfl
    obtain ⟨kept, live, meets⟩ :=
      meets_made mounted making makes short found miss dead small sized fun _ => plain
    exact clean_described kept live fun st described => clean_done.mpr (meets st described)

end Making

/-- Every request that is in order gets the reply of the tree, and leaves no lock taken. -/
theorem clean_handle {request : Request} (lawful : L.Lawful) (mounted : Mounted E)
    (admitted : (tree E).Admits request) (free : ∀ id, spare id → E id = none)
    (room : request.makes ≠ none → Spare spare E) (memory : Nat → Entry) :
    (handle L memory request).Clean (given spare) (Meets L request E) E := by
  have live : ∀ i, tree E i ≠ none → ∃ x, E i = some x := fun i present =>
    Option.ne_none_iff_exists'.mp fun dead => present (tree_dead.mpr dead)
  cases request with
  | getattr ino =>
    obtain ⟨x, live⟩ := live ino admitted
    exact clean_fuseserverGetattr mounted live
  | setattr ino size toSet => exact clean_fuseserverSetattr mounted admitted
  | read ino size off =>
    obtain ⟨c, found, inside⟩ := admitted
    exact clean_fuseserverRead mounted found inside
  | write ino data off =>
    obtain ⟨sized, c, found⟩ := admitted
    exact clean_fuseserverWrite mounted found sized
  | create parent name | mknod parent name | mkdir parent name =>
    obtain ⟨short, _, here⟩ := admitted
    obtain ⟨buf, found, -⟩ := tree_dir here
    have room := room nofun
    refine Clean.bind (Clean.mono (fun r t meets => clean_done.mpr meets) ?_)
    first
      | exact clean_fuseserverCreatehelper (.create parent name (memory 0)) mounted (.inl rfl) rfl rfl short
          room found
      | exact clean_fuseserverCreatehelper (.mkdir parent name (memory 0)) mounted (.inr rfl) rfl rfl short
          room found
  | symlink link parent name =>
    obtain ⟨short, plain, sized, _, here⟩ := admitted
    obtain ⟨buf, found, -⟩ := tree_dir here
    exact clean_fuseserverSymlink mounted short plain sized (room nofun) found
  | lookup parent name =>
    obtain ⟨_, here⟩ := admitted
    obtain ⟨buf, found, -⟩ := tree_dir here
    exact clean_fuseserverLookup mounted name found
  | unlink parent name => exact clean_fuseserverUnlink mounted memory free admitted
  | readlink ino =>
    obtain ⟨target, found⟩ := admitted
    exact clean_fuseserverReadlink mounted found
  | readdir ino size off =>
    obtain ⟨x, live⟩ := live ino admitted
    exact clean_readdir_request lawful mounted live memory size off
  | «open» => exact clean_done.mpr ⟨.opened, mounted⟩
  | statfs => exact clean_done.mpr ⟨.statfs, mounted⟩

end Fuse

namespace FileTree

open Fuse

variable {L : Libfuse} {T T' : FileTree} {reply : Reply}

/-- The first file of a file system. -/
theorem Handles.first_file {name : Component} (handles : Handles L empty (.create 1 name) reply T') :
    ∃ ino st, ino ≠ 1 ∧ reply = .create ino st ∧ T' ino = some (.file []) ∧
      T' 1 = some (.dir [(name.bytes, ino)]) := by
  cases handles with
  | @made _ _ _ _ names ino st _ makes found _ dead _ =>
    cases makes
    cases found
    have apart : ino ≠ 1 := fun same => by rw [same] at dead; cases dead
    exact ⟨ino, st, apart, rfl, by simp [apart], Function.update_self ..⟩
  | exist makes found old =>
    cases makes
    cases found
    simp at old

theorem Handles.wrote {ino off : Nat} {c data : List UInt8} (file : T ino = some (.file c))
    (handles : Handles L T (.write ino data off) reply T') :
    ∃ count, reply = .write count ∧ T' = Function.update T ino (some (.file (writeAt c off data))) := by
  cases handles with
  | written found =>
    cases file.symm.trans found
    exact ⟨_, rfl, rfl⟩
  | made makes | exist makes => cases makes

theorem Handles.removed {parent : Nat} {name : Component} {names : List (List UInt8 × Nat)}
    (here : T parent = some (.dir names)) (present : name.bytes ∈ names.map Prod.fst)
    (handles : Handles L T (.unlink parent name) reply T') :
    reply = .err 0 ∧ ∃ names, T' parent = some (.dir names) := by
  cases handles with
  | unlinked found => exact ⟨rfl, _, Function.update_self ..⟩
  | absent found absent =>
    cases here.symm.trans found
    exact absurd present absent
  | made makes | exist makes => cases makes

theorem admits_first_file {name : Component} (short : name.bytes.length ≤ MAX_LENGTH) :
    empty.Admits (.create 1 name) := ⟨short, [], rfl⟩

end FileTree

end Yfs.Client
