import Yfs.Client.Tree
import Yfs.Lib.Links

/-! The directory tree as links between inodes: every entry leads to an inode that is
there, and every inode but the root has one entry. -/

namespace Yfs.Client

open Yfs.Lib Yfs.Store Program

/-- The inums in the entries of a directory; a file or a symbolic link has none. -/
def Extent.links (x : Extent) : List Nat :=
  if x.type = T_DIR then (listing x.bytes).map Prod.snd else []

/-- The inodes there are and the entries between them. -/
def links (E : Extents) : LinkMap Nat := fun d => (E d).map Extent.links

/-- The invariant of a run that leaves no inode behind. -/
structure Sane (E : Extents) : Prop where
  tidy : LinkMap.Tidy 1 (links E)
  root : E 1 ≠ none
  unnamed : ∀ d, ¬ (links E).Links d 1
  orderly : ∀ d buf, E d = some ⟨T_DIR, buf⟩ → Orderly d buf

theorem links_dir {E : Extents} {d : Nat} {buf : List UInt8} (found : E d = some ⟨T_DIR, buf⟩) :
    links E d = some ((listing buf).map Prod.snd) := by
  simp [links, found, Extent.links]

theorem links_eq_none {E : Extents} {d : Nat} : links E d = none ↔ E d = none := by
  simp [links]

theorem links_update (E : Extents) (d : Nat) (x : Option Extent) :
    links (Function.update E d x) = Function.update (links E) d (x.map Extent.links) := by
  funext k
  by_cases same : k = d <;> simp [links, same]

theorem orderly_nil (d : Nat) : Orderly d [] := by
  constructor <;> simp [listing, entries_nil]

/-- What is new has no entries. -/
theorem TreeOp.making_links {op : TreeOp} {m : Making} (making : op.making = some m) :
    Extent.links ⟨m.type, m.content⟩ = [] := by
  by_cases directory : m.type = T_DIR
  · simp [Extent.links, TreeOp.making_content making directory, listing, entries_nil]
  · simp [Extent.links, directory]

theorem emptyRoot_sane : Sane emptyRoot := by
  have none (d i) : ¬ (links emptyRoot).Links d i := by
    rintro ⟨l, found, member⟩
    by_cases same : d = 1
    · have empty : l = [] := by
        simpa [links, emptyRoot, same, Extent.links, listing, entries_nil] using found.symm
      simp [empty] at member
    · simp [links, emptyRoot, same] at found
  constructor
  · constructor
    · exact fun d i linked => absurd linked (none d i)
    · intro i live notRoot
      simp [links, emptyRoot, notRoot] at live
  · simp [emptyRoot]
  · exact fun d => none d 1
  · exact emptyRoot_directories (orderly_nil 1)

section Steps

variable {E : Extents} {d : Nat} {buf : List UInt8}

theorem name_absent {name : List UInt8} (miss : (entries buf).find? (·.name = name) = none) :
    name ∉ (listing buf).map Prod.fst := by
  simpa [listing, List.find?_eq_none] using miss

theorem find_name {name : List UInt8} {it : Entry}
    (hit : (entries buf).find? (·.name = name) = some it) : (name, it.inum) ∈ listing buf := by
  have named : it.name = name := by simpa using List.find?_some hit
  rw [← named]
  exact List.mem_map_of_mem (f := fun e : Entry => (e.name, e.inum)) (List.mem_of_find?_eq_some hit)

theorem name_present {name : List UInt8} (hit : (entries buf).find? (·.name = name) ≠ none) :
    name ∈ (listing buf).map Prod.fst := by
  obtain ⟨it, found⟩ := Option.ne_none_iff_exists'.mp hit
  exact List.mem_map_of_mem (f := Prod.fst) (find_name found)

theorem Sane.made {op : TreeOp} {m : Making} {ino : Nat} (sane : Sane E) (making : op.making = some m)
    (short : m.name.bytes.length ≤ MAX_LENGTH) (found : E m.parent = some ⟨T_DIR, buf⟩)
    (miss : (entries buf).find? (·.name = m.name.bytes) = none) (dead : E ino = none)
    (small : ino < 2 ^ 64) : Sane (m.apply ino buf E) := by
  have orderly := sane.orderly _ _ found
  have apart : m.parent ≠ ino := by
    intro same
    simp [← same, found] at dead
  have links_parent := links_dir found
  have links_new : links E ino = none := links_eq_none.mpr dead
  have listed := listing_append orderly.whole m.memory (m.name.toName short) small
  have added : links (m.apply ino buf E) = (links E).add m.parent ((listing buf).map Prod.snd) ino := by
    rw [Making.apply, links_update, links_update]
    simp only [Option.map_some, TreeOp.making_links making, LinkMap.add]
    congr 2
    simpa [Extent.links] using congrArg (List.map Prod.snd) listed
  constructor
  · rw [added]
    exact sane.tidy.add links_parent links_new
  · by_cases home : 1 = m.parent
    · simp [Making.apply, ← home]
    · by_cases self : 1 = ino
      · exact absurd (self ▸ dead) sane.root
      · simpa [Making.apply, home, self] using sane.root
  · intro k linked
    rw [added, LinkMap.add_links links_parent links_new] at linked
    rcases linked with old | ⟨_, rfl⟩
    · exact sane.unnamed k old
    · exact sane.root dead
  · refine Making.apply_directories sane.orderly making ?_ (orderly_nil ino)
    exact @Orderly.append _ _ _ (m.name.toName short) orderly m.memory small (Ne.symm apart)
      (name_absent miss)

section Unlink

variable {parent : Nat} {name : List UInt8} {memory : Nat → Entry} {it : Entry}
  (sane : Sane E) (found : E parent = some ⟨T_DIR, buf⟩)
  (hit : (entries buf).find? (·.name = name) = some it)
include sane found hit

variable (memory) in
/-- The links of a directory around the entry that `unlink` erases. -/
theorem links_around : ∃ before after, (listing buf).map Prod.snd = before ++ it.inum :: after ∧
    (listing (rewrite memory ((entries buf).eraseP (·.name = name)))).map Prod.snd =
      before ++ after := by
  obtain ⟨before, after, split, erased⟩ := listing_around memory (sane.orderly _ _ found).short hit
  exact ⟨before.map Prod.snd, after.map Prod.snd, by simp [split], by simp [erased]⟩

theorem Sane.target : (links E).Links parent it.inum ∧ it.inum ≠ 1 ∧
    (links E).NamedOnce it.inum := by
  have member : it.inum ∈ (listing buf).map Prod.snd := by
    rw [listing, List.map_map]
    exact List.mem_map_of_mem (List.mem_of_find?_eq_some hit)
  have linked : (links E).Links parent it.inum := ⟨_, links_dir found, member⟩
  have notRoot : it.inum ≠ 1 := by
    intro same
    exact sane.unnamed parent (same ▸ linked)
  exact ⟨linked, notRoot, sane.tidy.once _ (sane.tidy.live _ _ linked) notRoot⟩

/-- What a directory names is there. -/
theorem Sane.target_live : E it.inum ≠ none := by
  intro dead
  exact sane.tidy.live _ _ (sane.target found hit).1 (links_eq_none.mpr dead)

variable (memory) in
theorem Sane.links_unlinked : ∃ before after,
    links E parent = some (before ++ it.inum :: after) ∧
    links (unlinked parent name memory it buf E) = (links E).drop parent (before ++ after) it.inum := by
  obtain ⟨before, after, split, erased⟩ := links_around memory sane found hit
  refine ⟨before, after, by rw [links_dir found, split], ?_⟩
  rw [unlinked, links_update, links_update]
  simp [Extent.links, LinkMap.drop, ← erased]

variable (apart : it.inum ≠ parent)
include apart

/-- `unlink` of an entry for an inode that has no entries itself. -/
theorem Sane.unlinked (childless : ∀ i, ¬ (links E).Links it.inum i) :
    Sane (unlinked parent name memory it buf E) := by
  obtain ⟨linked, notRoot, once⟩ := sane.target found hit
  obtain ⟨before, after, split, dropped⟩ := sane.links_unlinked memory found hit
  constructor
  · rw [dropped]
    exact sane.tidy.drop split apart once childless
  · by_cases home : 1 = parent
    · simp [Client.unlinked, ← home]
    · simpa [Client.unlinked, home, Ne.symm notRoot] using sane.root
  · intro k linked'
    rw [dropped, LinkMap.drop_links split apart once] at linked'
    exact sane.unnamed k linked'.1
  · exact unlinked_directories sane.orderly
      ((sane.orderly _ _ found).rewrite memory List.eraseP_sublist)

/-- `unlink` of an entry for a directory with entries leaves what is in it behind. -/
theorem Sane.not_tidy_unlinked (full : ∃ i, (links E).Links it.inum i) :
    ¬ LinkMap.Tidy 1 (links (Client.unlinked parent name memory it buf E)) := by
  obtain ⟨i, orphan⟩ := full
  obtain ⟨linked, notRoot, once⟩ := sane.target found hit
  obtain ⟨before, after, split, dropped⟩ := sane.links_unlinked memory found hit
  rw [dropped]
  apply LinkMap.not_tidy_drop split apart sane.tidy once orphan
  rintro rfl
  exact sane.unnamed _ orphan

end Unlink

theorem Sane.written {ino : Nat} {x : Extent} (sane : Sane E) (live : E ino = some x)
    (file : x.type ≠ T_DIR) (bytes : List UInt8) :
    Sane (Function.update E ino (some { x with bytes })) := by
  have same : links (Function.update E ino (some { x with bytes })) = links E := by
    rw [links_update]
    apply Function.update_eq_self_iff.mpr
    simp [links, live, Extent.links, file]
  constructor
  · rw [same]
    exact sane.tidy
  · by_cases self : 1 = ino
    · simp [← self]
    · simpa [self] using sane.root
  · rw [same]
    exact sane.unnamed
  · exact written_directories sane.orderly file

theorem childless_iff {i : Nat} : (∀ k, ¬ (links E).Links i k) ↔
    ∀ content, E i = some ⟨T_DIR, content⟩ → listing content = [] := by
  constructor
  · intro childless content found
    rw [List.eq_nil_iff_forall_not_mem]
    intro p member
    exact childless p.2 ⟨_, links_dir found, List.mem_map_of_mem member⟩
  · rintro empty k ⟨l, found, member⟩
    obtain ⟨x, live, rfl⟩ := Option.map_eq_some_iff.mp found
    by_cases directory : x.type = T_DIR
    · have none := empty x.bytes (by rw [live, ← directory])
      simp [Extent.links, none] at member
    · simp [Extent.links, directory] at member

end Steps

namespace TreeOp

/-- The names of the operation fit in an entry. -/
def Short : TreeOp → Prop
  | .create _ name _ | .mkdir _ name _ | .symlink _ name _ _ | .unlink _ name _ =>
    name.bytes.length ≤ MAX_LENGTH
  | _ => True

/-- The operation is not an `unlink` that names a directory with entries. -/
def Spares (E : Extents) : TreeOp → Prop
  | .unlink parent name _ => ∀ buf it content, E parent = some ⟨T_DIR, buf⟩ →
    (entries buf).find? (·.name = name.bytes) = some it →
    E it.inum = some ⟨T_DIR, content⟩ → listing content = []
  | _ => True

theorem Short.making {op : TreeOp} {m : Making} (short : op.Short) (making : op.making = some m) :
    m.name.bytes.length ≤ MAX_LENGTH := by
  cases op <;> cases making <;> exact short

end TreeOp

section Run

variable {E E' : Extents} {op : TreeOp} {r : Status × Option Nat}

theorem Sane.effect (sane : Sane E) (effect : op.Effect E r E') (short : op.Short)
    (spares : op.Spares E) : Sane E' := by
  cases effect with
  | exist => exact sane
  | made making found miss dead small =>
    exact sane.made making (short.making making) found miss dead small
  | absent => exact sane
  | unlinked found hit apart =>
    exact sane.unlinked found hit apart
      (childless_iff.mpr fun content directory => spares _ _ content found hit directory)
  | written writes live file => exact sane.written live file _

theorem Sane.spares_of_tidy (sane : Sane E) (effect : op.Effect E r E')
    (tidy : LinkMap.Tidy 1 (links E')) : op.Spares E := by
  cases op with
  | unlink parent name memory =>
    intro buf it content found hit directory
    cases effect with
    | absent found' miss =>
      cases found.symm.trans found'
      rw [miss] at hit
      cases hit
    | unlinked found' hit' apart =>
      cases found.symm.trans found'
      cases hit.symm.trans hit'
      have childless : ∀ k, ¬ (links E).Links it.inum k := by
        intro k linked
        exact sane.not_tidy_unlinked found hit apart ⟨k, linked⟩ tidy
      exact childless_iff.mp childless content directory
    | exist making => cases making
    | made making => cases making
    | written writes => cases writes
  | _ => trivial

end Run

section Compact

variable {E : Extents} {buf : List UInt8}

/-- Extents of an inode table, with contents that `write_file` can store. -/
structure Compact (E : Extents) : Prop where
  small : ∀ i x, E i = some x → i < INODE_NUM
  sized : ∀ i x, E i = some x → x.type ≠ T_DIR → x.bytes.length ≤ MAXSIZE

theorem emptyRoot_compact : Compact emptyRoot := by
  have root : ∀ i x, emptyRoot i = some x → i = 1 ∧ x = ⟨T_DIR, []⟩ := by
    intro i x found
    unfold emptyRoot at found
    split at found
    · rename_i first
      cases found
      exact ⟨first, rfl⟩
    · cases found
  constructor
  · intro i x found
    rw [(root i x found).1]
    decide
  · intro i x found other
    rw [(root i x found).2] at other
    exact absurd rfl other

theorem Compact.update {i : Nat} {x : Extent} (compact : Compact E) (small : i < INODE_NUM)
    (sized : x.type ≠ T_DIR → x.bytes.length ≤ MAXSIZE) : Compact (Function.update E i (some x)) := by
  constructor
  · intro k y found
    by_cases same : k = i
    · rwa [same]
    · exact compact.small k y (by simpa [same] using found)
  · intro k y found other
    by_cases same : k = i
    · have new : x = y := by simpa [same] using found
      exact new ▸ sized (new ▸ other)
    · exact compact.sized k y (by simpa [same] using found) other

theorem Compact.drop (compact : Compact E) (i : Nat) : Compact (Function.update E i none) := by
  have old : ∀ k y, Function.update E i none k = some y → E k = some y := by
    intro k y found
    by_cases same : k = i
    · simp [same] at found
    · simpa [same] using found
  constructor
  · exact fun k y found => compact.small k y (old k y found)
  · exact fun k y found => compact.sized k y (old k y found)

theorem Compact.made {m : Making} {ino : Nat} (compact : Compact E)
    (found : E m.parent = some ⟨T_DIR, buf⟩) (small : ino < INODE_NUM)
    (sized : m.content.length ≤ MAXSIZE) : Compact (m.apply ino buf E) :=
  (compact.update small fun _ => sized).update (compact.small _ _ found) fun other => absurd rfl other

theorem Compact.unlinked {parent : Nat} {name : List UInt8} {memory : Nat → Entry} {it : Entry}
    (compact : Compact E) (found : E parent = some ⟨T_DIR, buf⟩) :
    Compact (unlinked parent name memory it buf E) :=
  (compact.drop it.inum).update (compact.small _ _ found) fun other => absurd rfl other

/-- Directories are not too large either: they have no more entries than there are inums. -/
theorem Sane.fits (sane : Sane E) (compact : Compact E) {i : Nat} {x : Extent} (found : E i = some x) :
    x.bytes.length ≤ MAXSIZE := by
  by_cases directory : x.type = T_DIR
  · have here : E i = some ⟨T_DIR, x.bytes⟩ := by rw [found, ← directory]
    have inside : ∀ k, links E k ≠ none → k ∈ Finset.range INODE_NUM := by
      intro k live
      obtain ⟨y, there⟩ := Option.ne_none_iff_exists'.mp (links_eq_none.not.mp live)
      exact Finset.mem_range.mpr (compact.small k y there)
    have count := sane.tidy.length_le inside (sane.unnamed i) (links_dir here)
    rw [List.length_map, listing, List.length_map, entries, List.length_map, List.length_range,
      Finset.card_range] at count
    obtain ⟨n, length⟩ := (sane.orderly _ _ here).whole
    rw [length] at count ⊢
    simp only [ENTRY_SIZE, INODE_NUM, MAXSIZE, MAXFILE, NDIRECT, NINDIRECT, BLOCK_SIZE] at count ⊢
    omega
  · exact compact.sized i x found directory

end Compact

end Yfs.Client
