import Yfs.Client.Namespace
import Yfs.Lib.Records
import Mathlib.Data.List.TakeWhile

/-! Listing a directory page by page, as FUSE does it. Every page is cut from a buffer
that `fuseserver_readdir` makes anew. -/

namespace Yfs.Client

open Yfs.Lib Yfs.Store Program

/-- The dirents of libfuse: `fuse_dirent_size`, the record that `fuse_add_dirent` lays out
for a name, an inum and an offset, and how a page is taken apart again. -/
structure Libfuse where
  direntSize : Nat → Nat
  addDirent : List UInt8 → Nat → Nat → List UInt8
  first : List UInt8 → Option (((List UInt8 × Nat) × Nat) × List UInt8)

/-- Dirents as records of a name and an inum. -/
def Libfuse.format (L : Libfuse) : RecordFormat (List UInt8 × Nat) UInt8 :=
  ⟨fun p => L.direntSize p.1.length, fun p off => L.addDirent p.1 p.2 off, L.first⟩

/-- A dirent has the size that is told for it and can be read back, for names of at most
255 bytes and numbers of 64 bits. -/
def Libfuse.Lawful (L : Libfuse) : Prop :=
  L.format.Lawful (fun p => p.1.length ≤ 255 ∧ p.2 < 2 ^ 64) (2 ^ 63)

/-- The part of a string that `strlen` sees. -/
def cString (s : List UInt8) : List UInt8 := s.takeWhile (· ≠ 0)

structure Dirbuf where
  p : List UInt8
  size : Nat

/-- A dirent goes behind the others, with the new size of the buffer as its offset. -/
def dirbufAdd (L : Libfuse) (b : Dirbuf) (name : List UInt8) (ino : Nat) : Dirbuf :=
  let size := b.size + L.direntSize (cString name).length
  ⟨b.p ++ L.addDirent (cString name) ino size, size⟩

def replyBufLimited (buf : List UInt8) (bufsize off maxsize : Nat) : List UInt8 :=
  if off < bufsize then (buf.drop off).take (min (bufsize - off) maxsize) else []

/-- The reply to a request: an error number or data. -/
inductive FuseReply where
  | err (errno : Nat)
  | buf (bytes : List UInt8)
  deriving DecidableEq, Repr

def ENOTDIR : Nat := 20

def fuseserverReaddir (L : Libfuse) (ino size off : Nat) : Prog FuseReply := do
  if ← isdir ino then
    let (_, list) ← readdir ino
    let b := list.foldl (fun b d => dirbufAdd L b d.1 d.2) ⟨[], 0⟩
    return .buf (replyBufLimited b.p b.size off size)
  else
    return .err ENOTDIR

section Buffer

variable {L : Libfuse} {E E' : Extents} {d size off : Nat} {buf : List UInt8}

theorem cString_of_noNul {s : List UInt8} (noNul : 0 ∉ s) : cString s = s := by
  apply List.takeWhile_eq_self_iff.mpr
  intro b member
  have nonzero : b ≠ 0 := by
    rintro rfl
    exact noNul member
  simpa using nonzero

/-- The buffer is the records of the entries. -/
theorem foldl_dirbufAdd (list : List (List UInt8 × Nat)) : ∀ b : Dirbuf, (∀ p ∈ list, 0 ∉ p.1) →
    list.foldl (fun b d => dirbufAdd L b d.1 d.2) b =
      ⟨b.p ++ L.format.layout b.size list, b.size + L.format.total list⟩ := by
  induction list with
  | nil =>
    intro b _
    simp [RecordFormat.layout]
  | cons p list ih =>
    intro b noNul
    rw [List.forall_mem_cons] at noNul
    rw [List.foldl_cons, ih _ noNul.2, dirbufAdd, cString_of_noNul noNul.1, RecordFormat.layout,
      RecordFormat.total_cons]
    simp [Libfuse.format, Nat.add_assoc]

theorem replyBufLimited_eq {bytes : List UInt8} (length : bytes.length = size) (n : Nat) :
    replyBufLimited bytes size off n = (bytes.drop off).take n := by
  rw [replyBufLimited]
  split
  · rw [Nat.min_comm, ← length, ← List.length_drop, ← List.take_take, List.take_length]
  · rw [List.drop_eq_nil_of_le (by omega), List.take_nil]

/-- What is in the pages of a directory. -/
def pages (L : Libfuse) (buf : List UInt8) : Dirbuf :=
  (listing buf).foldl (fun b d => dirbufAdd L b d.1 d.2) ⟨[], 0⟩

theorem returns_fuseserverReaddir {bytes : List UInt8}
    (returned : Returns answers (fuseserverReaddir L d size off) E (.buf bytes) E') :
    ∃ buf, E d = some ⟨T_DIR, buf⟩ ∧ E' = E ∧
      bytes = replyBufLimited (pages L buf).p (pages L buf).size off size := by
  simp only [fuseserverReaddir, isdir, hasType, readdir, acquire, release, call, acquire_bind, release_bind,
    done_bind, call_bind, pure_eq, returns_acquire] at returned
  obtain ⟨⟨r, a⟩, E₁, known, rest⟩ := returned.of_call
  obtain ⟨x, found, rfl, type, rfl⟩ := known
  dsimp only at rest
  rw [if_neg (by simp)] at rest
  simp only [release_bind, done_bind, returns_release] at rest
  split at rest
  · rw [returns_acquire] at rest
    obtain ⟨⟨r, list⟩, E₂, read, last⟩ := rest.of_bind
    obtain ⟨list', E₃, first, released⟩ := read.of_bind
    obtain ⟨buf, there, rfl, rfl⟩ := returns_readdir agrees_answers first
    simp only [returns_release, returns_done] at released
    obtain ⟨same, rfl⟩ := released
    cases same
    obtain ⟨answer, rfl⟩ := returns_done.mp last
    cases answer
    exact ⟨buf, there, rfl, rfl⟩
  · obtain ⟨impossible, -⟩ := returns_done.mp rest
    cases impossible

theorem fuseserverReaddir_returns (found : E d = some ⟨T_DIR, buf⟩) :
    Returns answers (fuseserverReaddir L d size off) E
      (.buf (replyBufLimited (pages L buf).p (pages L buf).size off size)) E := by
  have known : answers (.getattr d) E (OK, ⟨T_DIR, 0, 0, 0, 0⟩) E := ⟨_, found, rfl, rfl, rfl⟩
  have directory : Returns answers (isdir d) E true E := .acquire (.call known (.release .done))
  have list : Returns answers (readdir d) E (OK, listing buf) E :=
    .acquire ((readdir_returns agrees_answers found).bind (.release .done))
  exact directory.bind (list.bind .done)

end Buffer

/-- A listing of a directory: the offset of the next call, the entries in the pages so
far, and whether the last page was empty. -/
structure Reading where
  extents : Extents
  off : Nat
  read : List (List UInt8 × Nat)
  ended : Bool

/-- The next call goes on at the offset in the last complete dirent. -/
def Reading.page (L : Libfuse) (s : Reading) (bytes : List UInt8) (E' : Extents) : Reading :=
  let dirents := L.format.complete bytes
  ⟨E', RecordFormat.resume s.off dirents, s.read ++ dirents.map Prod.fst, dirents.isEmpty⟩

/-- A call for a page of some size, or an operation of any client in between. -/
inductive Turn.Act where
  | page (size : Nat)
  | op (op : TreeOp)

/-- One act. A page has room for every dirent, and the buffer fits in memory. -/
inductive Reading.Next (L : Libfuse) (d : Nat) : Reading → Turn.Act → Reading → Prop where
  | page (large : ∀ buf, s.extents d = some ⟨T_DIR, buf⟩ → ∀ p ∈ listing buf, L.direntSize p.1.length ≤ size)
      (memory : ∀ buf, s.extents d = some ⟨T_DIR, buf⟩ → L.format.total (listing buf) < 2 ^ 63)
      (returned : Returns answers (fuseserverReaddir L d size s.off) s.extents (.buf bytes) E') :
      Next L d s (.page size) (s.page L bytes E')
  | op (step : op.Step s.extents r E') : Next L d s (.op op) { s with extents := E' }

structure Turn where
  before : Reading
  act : Turn.Act

/-- The acts of a listing of `d` that starts on the extents `E`, the newest first, up to
an empty page. -/
inductive Session (L : Libfuse) (d : Nat) (E : Extents) : List Turn → Reading → Prop where
  | start : Session L d E [] ⟨E, 0, [], false⟩
  | next (session : Session L d E turns s) (going : s.ended = false) (next : s.Next L d act s') :
      Session L d E (⟨s, act⟩ :: turns) s'

/-- The entry is in the directory `d`. -/
def Present (d : Nat) (p : List UInt8 × Nat) (E : Extents) : Prop :=
  ∃ buf, E d = some ⟨T_DIR, buf⟩ ∧ p ∈ listing buf

/-- A name that the operation makes in `d` fits in an entry. -/
def TreeOp.ShortIn (d : Nat) (op : TreeOp) : Prop :=
  ∀ m, op.making = some m → m.parent = d → m.name.bytes.length ≤ MAX_LENGTH

/-- The operation keeps what is not listed yet behind `off`: it removes no entry that has
been listed while others have not, and adds none when `off` is behind the end. -/
structure TreeOp.Careful (op : TreeOp) (L : Libfuse) (d off : Nat) (E : Extents) : Prop where
  short : op.ShortIn d
  added : ∀ m buf, op.making = some m → m.parent = d → E d = some ⟨T_DIR, buf⟩ →
    m.name.bytes ∉ (listing buf).map Prod.fst → off ≤ L.format.total (listing buf)
  removed : ∀ name memory buf before p after, op = .unlink d name memory → E d = some ⟨T_DIR, buf⟩ →
    listing buf = before ++ p :: after → p.1 = name.bytes →
    off ≤ L.format.total before ∨ L.format.total (listing buf) ≤ off

def Turn.Careful (L : Libfuse) (d : Nat) (t : Turn) : Prop :=
  ∀ op, t.act = .op op → op.Careful L d t.before.off t.before.extents

/-- The content of a directory as the operations on short names leave it. -/
structure Proper (d : Nat) (buf : List UInt8) : Prop extends Orderly d buf where
  noNul : ∀ p ∈ listing buf, 0 ∉ p.1

section Proper

variable {E E' : Extents} {op : TreeOp} {r : Status × Option Nat} {d : Nat} {buf : List UInt8}

theorem proper_nil (d : Nat) : Proper d [] := ⟨orderly_nil d, by simp [listing, entries_nil]⟩

theorem Proper.append {ino : Nat} {m : Making} (proper : Proper d buf)
    (short : m.name.bytes.length ≤ MAX_LENGTH) (small : ino < 2 ^ 64) (apart : ino ≠ d)
    (miss : (entries buf).find? (·.name = m.name.bytes) = none) :
    Proper d (buf ++ (newEntry m.memory ino m.name.bytes).bytes) := by
  have listed := listing_append proper.whole m.memory (m.name.toName short) small
  constructor
  · exact @Orderly.append _ _ _ (m.name.toName short) proper.toOrderly m.memory small apart (name_absent miss)
  · rw [Component.toName_bytes] at listed
    rw [listed, List.forall_mem_append, List.forall_mem_singleton]
    exact ⟨proper.noNul, m.name.noNul⟩

theorem Proper.erase {name : List UInt8} {it : Entry} (proper : Proper d buf) (memory : Nat → Entry)
    (hit : (entries buf).find? (·.name = name) = some it) :
    Proper d (rewrite memory ((entries buf).eraseP (·.name = name))) := by
  obtain ⟨before, after, split, erased⟩ := listing_around memory proper.short hit
  refine ⟨proper.toOrderly.rewrite memory List.eraseP_sublist, ?_⟩
  intro p member
  apply proper.noNul p
  rw [erased] at member
  rw [split]
  simp at member ⊢
  tauto

theorem proper_step (proper : ∀ k buf, E k = some ⟨T_DIR, buf⟩ → k = d → Proper k buf)
    (step : op.Step E r E') (short : op.ShortIn d) :
    ∀ k buf, E' k = some ⟨T_DIR, buf⟩ → k = d → Proper k buf := by
  cases step.effect with
  | exist | absent => exact proper
  | made making found miss dead small =>
    refine Making.apply_directories proper making ?_ fun _ => proper_nil _
    intro home
    exact (proper _ _ found home).append (short _ making home) small (parent_ne_new found dead).symm miss
  | unlinked found hit =>
    exact unlinked_directories proper fun home => (proper _ _ found home).erase _ hit
  | written _ _ file => exact written_directories proper file

theorem TreeRun.proper {log : List TreeEvent} (run : TreeRun log E) (short : ∀ e ∈ log, e.op.ShortIn d) :
    ∀ k buf, E k = some ⟨T_DIR, buf⟩ → k = d → Proper k buf := by
  induction run with
  | nil => exact emptyRoot_directories fun _ => proper_nil 1
  | cons _ step ih =>
    rw [List.forall_mem_cons] at short
    exact proper_step (ih short.2) step short.1

/-- What an operation does to the entries of a directory that stays. -/
theorem listing_step {buf' : List UInt8} (proper : Proper d buf) (found : E d = some ⟨T_DIR, buf⟩)
    (found' : E' d = some ⟨T_DIR, buf'⟩) (step : op.Step E r E') (short : op.ShortIn d) :
    listing buf' = listing buf ∨
    (∃ m ino, op.making = some m ∧ m.parent = d ∧ m.name.bytes ∉ (listing buf).map Prod.fst ∧
      listing buf' = listing buf ++ [(m.name.bytes, ino)]) ∨
    ∃ name memory before ino after, op = .unlink d name memory ∧
      listing buf = before ++ (name.bytes, ino) :: after ∧ listing buf' = before ++ after := by
  cases step.effect with
  | exist | absent =>
    cases found.symm.trans found'
    exact .inl rfl
  | made making there miss dead small =>
    rename_i m buf₀ ino
    by_cases home : d = m.parent
    · subst home
      cases found.symm.trans there
      rw [Making.apply_parent] at found'
      cases found'
      exact .inr (.inl ⟨m, ino, making, rfl, name_absent miss,
        listing_append proper.whole m.memory (m.name.toName (short m making rfl)) small⟩)
    · rw [Making.apply_of_ne home (parent_ne_new found dead)] at found'
      cases found.symm.trans found'
      exact .inl rfl
  | unlinked there hit apart =>
    rename_i buf₀ it parent name memory
    by_cases home : d = parent
    · subst home
      cases found.symm.trans there
      rw [unlinked_parent] at found'
      cases found'
      obtain ⟨before, after, split, erased⟩ := listing_around memory proper.short hit
      exact .inr (.inr ⟨name, memory, before, it.inum, after, rfl, split, erased⟩)
    · by_cases self : d = it.inum
      · rw [self, unlinked_target apart] at found'
        cases found'
      · rw [unlinked_of_ne home self] at found'
        cases found.symm.trans found'
        exact .inl rfl
  | written writes live file =>
    rename_i ino x status bytes
    by_cases self : d = ino
    · subst self
      cases found.symm.trans live
      exact absurd rfl file
    · rw [Function.update_of_ne self] at found'
      cases found.symm.trans found'
      exact .inl rfl

end Proper

/-- What has been read of a directory: the entries in front of `off`, or all there are. -/
def Reading.Sound (L : Libfuse) (s : Reading) (buf : List UInt8) : Prop :=
  (∃ rest, listing buf = s.read ++ rest ∧ s.off = L.format.total s.read) ∨
  L.format.total (listing buf) < s.off ∧ (listing buf).Sublist s.read ∧ s.read.Nodup

section Sound

variable {L : Libfuse} {s : Reading} {d size : Nat} {buf : List UInt8}

theorem pages_eq (proper : Proper d buf) :
    pages L buf = ⟨L.format.layout 0 (listing buf), L.format.total (listing buf)⟩ := by
  rw [pages, foldl_dirbufAdd _ _ proper.noNul]
  simp

/-- The entries of a directory can be read back from dirents. -/
theorem Proper.listable (proper : Proper d buf) : ∀ p ∈ listing buf, p.1.length ≤ 255 ∧ p.2 < 2 ^ 64 := by
  intro p member
  obtain ⟨e, inside, rfl⟩ := List.mem_map.mp member
  have short := proper.short e inside
  refine ⟨?_, load_lt e 8 0⟩
  simp only [MAX_LENGTH] at short
  simp only [Entry.name, List.length_map, List.length_range]
  omega

variable (lawful : L.Lawful)
include lawful

/-- The reply to a call is what is behind `off`. -/
theorem reply_eq {off : Nat} (proper : Proper d buf) :
    replyBufLimited (pages L buf).p (pages L buf).size off size =
      ((L.format.layout 0 (listing buf)).drop off).take size := by
  rw [pages_eq proper]
  exact replyBufLimited_eq (RecordFormat.Lawful.layout_length lawful _ 0) size

/-- A page goes on with the entries that have not been read, and is empty only if there
are none. -/
theorem Reading.page_unread {rest : List (List UInt8 × Nat)} (proper : Proper d buf)
    (split : listing buf = s.read ++ rest) (behind : s.off = L.format.total s.read)
    (large : ∀ p ∈ listing buf, L.direntSize p.1.length ≤ size)
    (memory : L.format.total (listing buf) < 2 ^ 63) :
    ∃ now later, rest = now ++ later ∧ L.format.total now ≤ size ∧ (now = [] → rest = []) ∧
      s.page L (replyBufLimited (pages L buf).p (pages L buf).size s.off size) s.extents =
        ⟨s.extents, L.format.total (s.read ++ now), s.read ++ now, now.isEmpty⟩ := by
  have listable := proper.listable
  rw [split, List.forall_mem_append] at listable large
  rw [split] at memory
  obtain ⟨now, later, parts, read, fit, last⟩ :=
    RecordFormat.Lawful.complete_page lawful listable.2 memory large.2
  refine ⟨now, later, parts, fit, last, ?_⟩
  have empty : (L.format.stamped (L.format.total s.read) now).isEmpty = now.isEmpty := by
    cases now <;> rfl
  simp only [reply_eq lawful proper, Reading.page, split, behind, read, RecordFormat.resume_stamped,
    RecordFormat.stamped_fst, RecordFormat.total_append, empty]

/-- Behind the end there is nothing. -/
theorem Reading.page_past (proper : Proper d buf) (past : L.format.total (listing buf) ≤ s.off) :
    s.page L (replyBufLimited (pages L buf).p (pages L buf).size s.off size) s.extents =
      { s with ended := true } := by
  have empty : (L.format.layout 0 (listing buf)).drop s.off = [] := by
    rw [List.drop_eq_nil_iff, RecordFormat.Lawful.layout_length lawful]
    exact past
  rw [reply_eq lawful proper, empty, List.take_nil]
  simp [Reading.page, RecordFormat.complete, RecordFormat.records, RecordFormat.resume]

/-- A call for a page. -/
theorem Reading.Sound.page (sound : s.Sound L buf) (proper : Proper d buf)
    (large : ∀ p ∈ listing buf, L.direntSize p.1.length ≤ size)
    (memory : L.format.total (listing buf) < 2 ^ 63) :
    let t := s.page L (replyBufLimited (pages L buf).p (pages L buf).size s.off size) s.extents
    t.Sound L buf ∧ (t.ended = true → (listing buf).Sublist t.read ∧ t.read.Nodup) := by
  rcases sound with ⟨rest, split, behind⟩ | ⟨past, all, once⟩
  · obtain ⟨now, later, parts, -, last, same⟩ := s.page_unread lawful proper split behind large memory
    rw [same]
    refine ⟨.inl ⟨later, by rw [split, parts, List.append_assoc], rfl⟩, ?_⟩
    intro ended
    have empty : now = [] := List.isEmpty_iff.mp ended
    have nodup : (listing buf).Nodup := proper.nodup.of_map
    rw [split, last empty] at nodup ⊢
    rw [empty]
    exact ⟨List.Sublist.refl _, nodup⟩
  · rw [s.page_past lawful proper (Nat.le_of_lt past)]
    exact ⟨.inr ⟨past, all, once⟩, fun _ => ⟨all, once⟩⟩

section Operation

variable {before after : List (List UInt8 × Nat)} {p : List UInt8 × Nat}

/-- An entry that starts at or behind `off` is one that has not been read. -/
theorem unread_of_behind {rest : List (List UInt8 × Nat)} (split : s.read ++ rest = before ++ p :: after)
    (behind : L.format.total s.read ≤ L.format.total before) :
    ∃ unread, before ++ after = s.read ++ unread := by
  rcases List.append_eq_append_iff.mp split with ⟨unread, front, -⟩ | ⟨more, front, back⟩
  · exact ⟨unread ++ after, by rw [front, List.append_assoc]⟩
  · have nothing : more = [] := by
      by_contra some
      have positive := RecordFormat.Lawful.total_pos lawful some
      rw [front, RecordFormat.total_append] at behind
      omega
    subst nothing
    exact ⟨after, by rw [front, List.append_nil]⟩

variable (before after p) in
theorem total_erase_lt : L.format.total (before ++ after) < L.format.total (before ++ p :: after) := by
  have positive := RecordFormat.Lawful.positive lawful p
  rw [RecordFormat.total_append, RecordFormat.total_append, RecordFormat.total_cons]
  omega

/-- An operation in between. -/
theorem Reading.Sound.op {op : TreeOp} {r : Status × Option Nat} {E' : Extents} {buf' : List UInt8}
    (sound : s.Sound L buf) (proper : Proper d buf) (found : s.extents d = some ⟨T_DIR, buf⟩)
    (found' : E' d = some ⟨T_DIR, buf'⟩) (step : op.Step s.extents r E')
    (careful : op.Careful L d s.off s.extents) : s.Sound L buf' := by
  have nodup : (listing buf).Nodup := proper.nodup.of_map
  obtain same | ⟨m, ino, making, home, absent, added⟩ |
      ⟨name, memory, before, ino, after, rfl, around, erased⟩ :=
    listing_step proper found found' step careful.short
  · rw [Reading.Sound, same]
    exact sound
  · have inside := careful.added m buf making home found absent
    rcases sound with ⟨rest, split, behind⟩ | ⟨past, -, -⟩
    · exact .inl ⟨rest ++ [(m.name.bytes, ino)], by rw [added, split, List.append_assoc], behind⟩
    · exact absurd past (Nat.not_lt_of_le inside)
  · have smaller := total_erase_lt lawful before after (name.bytes, ino)
    have kept : (before ++ after).Sublist (before ++ (name.bytes, ino) :: after) :=
      (List.Sublist.refl before).append (List.sublist_cons_self _ _)
    rw [← around] at smaller kept
    rcases sound with ⟨rest, split, behind⟩ | ⟨past, all, once⟩
    · rcases careful.removed name memory buf before _ after rfl found around rfl with unread | done
      · obtain ⟨unread, parts⟩ := unread_of_behind lawful (split.symm.trans around) (behind ▸ unread)
        exact .inl ⟨unread, by rw [erased, parts], behind⟩
      · -- Everything has been read, and `off` is behind the end from now on.
        have nothing : rest = [] := by
          by_contra some
          have positive := RecordFormat.Lawful.total_pos lawful some
          rw [split, behind, RecordFormat.total_append] at done
          omega
        rw [nothing, List.append_nil] at split
        rw [split] at kept nodup smaller
        exact .inr ⟨by rw [erased, behind]; exact smaller, by rw [erased]; exact kept, nodup⟩
    · exact .inr ⟨by rw [erased]; exact Nat.lt_trans smaller past, by rw [erased]; exact kept.trans all, once⟩

end Operation

end Sound

section Run

variable {L : Libfuse} (lawful : L.Lawful) {d : Nat} {E : Extents} {log : List TreeEvent} {turns : List Turn}
  {s : Reading} (run : TreeRun log E) (short : ∀ e ∈ log, e.op.ShortIn d)
include run short

theorem Session.proper (session : Session L d E turns s) (careful : ∀ t ∈ turns, t.Careful L d) :
    ∀ k buf, s.extents k = some ⟨T_DIR, buf⟩ → k = d → Proper k buf := by
  induction session with
  | start => exact run.proper short
  | next session going next ih =>
    rw [List.forall_mem_cons] at careful
    cases next with
    | page large memory returned =>
      obtain ⟨buf, -, rfl, -⟩ := returns_fuseserverReaddir returned
      exact ih careful.2
    | op step => exact proper_step (ih careful.2) step (careful.1 _ rfl).short

include lawful

/-- Where the directory has been there all the time. -/
theorem Session.sound (session : Session L d E turns s) (careful : ∀ t ∈ turns, t.Careful L d) :
    (∀ t ∈ turns, ∃ buf, t.before.extents d = some ⟨T_DIR, buf⟩) → ∀ buf, s.extents d = some ⟨T_DIR, buf⟩ →
    s.Sound L buf := by
  induction session with
  | start =>
    intro _ buf _
    exact .inl ⟨listing buf, rfl, rfl⟩
  | next session going next ih =>
    intro stays buf found'
    rw [List.forall_mem_cons] at careful stays
    obtain ⟨buf₀, found⟩ := stays.1
    have sound := ih careful.2 stays.2 buf₀ found
    have proper := session.proper run short careful.2 d buf₀ found rfl
    cases next with
    | page large memory returned =>
      obtain ⟨buf₁, there, rfl, rfl⟩ := returns_fuseserverReaddir returned
      cases found.symm.trans there
      cases found.symm.trans found'
      exact (sound.page lawful proper (large _ found) (memory _ found)).1
    | op step => exact sound.op lawful proper found found' step (careful.1 _ rfl)

/-- An entry that is in the directory from the first call to the last is in the pages
exactly once, if no operation in between removes an entry that has been listed while
others have not. -/
theorem Session.lists_once (session : Session L d E turns s) (careful : ∀ t ∈ turns, t.Careful L d)
    (ended : s.ended = true) (p : List UInt8 × Nat) (present : ∀ t ∈ turns, Present d p t.before.extents) :
    s.read.count p = 1 := by
  cases session with
  | start => cases ended
  | next session going next =>
    rw [List.forall_mem_cons] at careful present
    obtain ⟨⟨buf, found, member⟩, earlier⟩ := present
    have stays := fun t inside => (earlier t inside).imp fun _ there => there.1
    have sound := session.sound lawful run short careful.2 stays buf found
    have proper := session.proper run short careful.2 d buf found rfl
    cases next with
    | page large memory returned =>
      obtain ⟨buf₁, there, rfl, rfl⟩ := returns_fuseserverReaddir returned
      cases found.symm.trans there
      obtain ⟨all, once⟩ := (sound.page lawful proper (large _ found) (memory _ found)).2 ended
      exact List.count_eq_one_of_mem once (all.subset member)
    | op step =>
      rw [going] at ended
      cases ended

end Run

section Kernel

/-- `struct fuse_dirent`: the inum and the offset in 64 bits, the length of the name and a
type of zero in 32 bits, then the name. -/
def fuseDirent (name : List UInt8) (ino off : Nat) : Nat → UInt8 :=
  copy (store (store (store (fun _ => 0) 0 8 ino) 8 8 off) 16 4 name.length) 24
    (fun k => name.getD k 0) name.length

/-- The dirents of the kernel interface, filled up to a multiple of eight bytes. -/
def Libfuse.kernel : Libfuse where
  direntSize n := (24 + n + 7) / 8 * 8
  addDirent name ino off := (List.range ((24 + name.length + 7) / 8 * 8)).map (fuseDirent name ino off)
  first bytes :=
    let m : Nat → UInt8 := fun k => bytes.getD k 0
    let n := load m 16 4
    if bytes.length < (24 + n + 7) / 8 * 8 then none
    else some ((((List.range n).map fun k => m (24 + k), load m 0 8), load m 8 8),
      bytes.drop ((24 + n + 7) / 8 * 8))

section Fields

variable {name : List UInt8} {ino off : Nat} {m : Nat → UInt8}

theorem fuseDirent_ino (small : ino < 2 ^ 64) (same : ∀ k < 24, m k = fuseDirent name ino off k) :
    load m 0 8 = ino := by
  rw [load_congr 8 0 fun i _ high => same i (by omega), fuseDirent, load_copy_apart (by omega),
    load_store_apart (by omega), load_store_apart (by omega), load_store, Nat.mod_eq_of_lt (by omega)]

theorem fuseDirent_off (small : off < 2 ^ 63) (same : ∀ k < 24, m k = fuseDirent name ino off k) :
    load m 8 8 = off := by
  rw [load_congr 8 8 fun i _ high => same i (by omega), fuseDirent, load_copy_apart (by omega),
    load_store_apart (by omega), load_store, Nat.mod_eq_of_lt (by omega)]

theorem fuseDirent_length (short : name.length ≤ 255) (same : ∀ k < 24, m k = fuseDirent name ino off k) :
    load m 16 4 = name.length := by
  rw [load_congr 4 16 fun i _ high => same i (by omega), fuseDirent, load_copy_apart (by omega),
    load_store, Nat.mod_eq_of_lt (by omega)]

theorem fuseDirent_name (same : ∀ k < 24 + name.length, m k = fuseDirent name ino off k) :
    ((List.range name.length).map fun k => m (24 + k)) = name := by
  apply List.ext_getElem
  · simp
  · intro k _ inside
    rw [List.getElem_map, List.getElem_range, same _ (by omega), fuseDirent, copy, if_pos (by omega)]
    simp [inside]

end Fields

theorem kernel_lawful : Libfuse.kernel.Lawful := by
  constructor
  · intro p off
    simp [Libfuse.format, Libfuse.kernel]
  · intro p
    simp only [Libfuse.format, Libfuse.kernel]
    omega
  · simp only [Libfuse.format, Libfuse.kernel]
    rw [if_pos (by rw [List.length_nil]; omega)]
  · rintro ⟨name, ino⟩ off rest ⟨short, small⟩ below
    simp only [Libfuse.format, Libfuse.kernel]
    let size := (24 + name.length + 7) / 8 * 8
    let bytes := (List.range size).map (fuseDirent name ino off)
    have length : bytes.length = size := by simp [bytes]
    have same : ∀ k < size, (bytes ++ rest).getD k 0 = fuseDirent name ino off k := by
      intro k inside
      rw [List.getD_eq_getElem?_getD, List.getElem?_append_left (by rw [length]; exact inside)]
      simp [bytes, inside]
    have header : ∀ k < 24, (bytes ++ rest).getD k 0 = fuseDirent name ino off k :=
      fun k inside => same k (by omega)
    rw [fuseDirent_length short header, fuseDirent_ino small header, fuseDirent_off below header,
      fuseDirent_name fun k inside => same k (by omega), if_neg (by simp),
      List.drop_left' length]
  · rintro ⟨name, ino⟩ off n ⟨short, small⟩ below cut
    simp only [Libfuse.format, Libfuse.kernel] at cut ⊢
    let size := (24 + name.length + 7) / 8 * 8
    let bytes := ((List.range size).map (fuseDirent name ino off)).take n
    have length : bytes.length = n := by
      simp [bytes]
      omega
    by_cases headed : n < 24
    · rw [if_pos (by rw [length]; omega)]
    · have header : ∀ k < 24, bytes.getD k 0 = fuseDirent name ino off k := by
        intro k inside
        have within : k < n := by omega
        have inner : k < size := by omega
        simp [bytes, within, inner]
      rw [fuseDirent_length short header, if_pos (by rw [length]; exact cut)]

end Kernel

section Lost

private def nameX : Component := ⟨[120], by decide, by decide, by decide, by decide⟩

private def nameY : Component := ⟨[121], by decide, by decide, by decide, by decide⟩

private def leftover : Entry := fun _ => 0

private def oneFile : Extents := Making.apply ⟨1, nameX, leftover, T_FILE, []⟩ 2 [] emptyRoot

/-- The content of a root directory with two files. -/
private def both : List UInt8 :=
  [] ++ (newEntry leftover 2 nameX.bytes).bytes ++ (newEntry leftover 3 nameY.bytes).bytes

private def twoFiles : Extents :=
  Making.apply ⟨1, nameY, leftover, T_FILE, []⟩ 3 ([] ++ (newEntry leftover 2 nameX.bytes).bytes) oneFile

private theorem twoFiles_root : twoFiles 1 = some ⟨T_DIR, both⟩ := rfl

private theorem listing_one : listing ([] ++ (newEntry leftover 2 nameX.bytes).bytes) = [([120], 2)] :=
  listing_append (Nat.dvd_zero _) leftover (nameX.toName (by decide)) (by decide)

private theorem listing_both : listing both = [([120], 2), ([121], 3)] := by
  have whole : ENTRY_SIZE ∣ ([] ++ (newEntry leftover 2 nameX.bytes).bytes).length := by
    rw [List.nil_append, Entry.bytes_length]
  have listed := listing_append whole leftover (nameY.toName (by decide)) (show 3 < 2 ^ 64 by decide)
  rw [listing_one] at listed
  exact listed

private theorem twoFiles_run : ∃ log, TreeRun log twoFiles ∧ ∀ e ∈ log, e.op.ShortIn 1 := by
  have miss : (entries ([] ++ (newEntry leftover 2 nameX.bytes).bytes)).find?
      (·.name = nameY.bytes) = none := by
    have absent : nameY.bytes ∉ (listing ([] ++ (newEntry leftover 2 nameX.bytes).bytes)).map Prod.fst := by
      rw [listing_one]
      decide
    simpa [listing, List.find?_eq_none] using absent
  have root : emptyRoot 1 = some ⟨T_DIR, []⟩ := rfl
  have first : (TreeOp.create 1 nameX leftover).Step emptyRoot (OK, some 2) oneFile :=
    ⟨by simp [TreeOp.target], createNode_returns root T_FILE leftover rfl rfl (by decide)⟩
  have found : oneFile 1 = some ⟨T_DIR, [] ++ (newEntry leftover 2 nameX.bytes).bytes⟩ :=
    Making.apply_parent ..
  have free : oneFile 3 = none := Making.apply_of_ne (by decide) (by decide) ..
  have second : (TreeOp.create 1 nameY leftover).Step oneFile (OK, some 3) twoFiles :=
    ⟨by simp [TreeOp.target], createNode_returns found T_FILE leftover miss free (by decide)⟩
  refine ⟨_, (TreeRun.nil.cons first).cons second, ?_⟩
  rw [List.forall_mem_cons, List.forall_mem_singleton]
  constructor
  · rintro m ⟨⟩ -
    decide
  · rintro m ⟨⟩ -
    decide

private theorem both_proper : Proper 1 both := by
  obtain ⟨log, run, short⟩ := twoFiles_run
  exact run.proper short 1 both twoFiles_root rfl

/-- `unlink` of a file of the two. -/
private theorem unlink_one {name : Component} (member : name.bytes ∈ (listing both).map Prod.fst) :
    ∃ buf E', (TreeOp.unlink 1 name fun _ => leftover).Step twoFiles (OK, none) E' ∧
      E' 1 = some ⟨T_DIR, buf⟩ ∧ Proper 1 buf ∧ listing buf = (listing both).eraseP (·.1 = name.bytes) := by
  obtain ⟨it, hit⟩ : ∃ it, (entries both).find? (·.name = name.bytes) = some it := by
    rw [← Option.isSome_iff_exists, List.find?_isSome]
    simpa [listing] using member
  have listed : (it.name, it.inum) ∈ listing both :=
    List.mem_map_of_mem (f := fun e : Entry => (e.name, e.inum)) (List.mem_of_find?_eq_some hit)
  have apart : it.inum ≠ 1 := both_proper.elsewhere (it.name, it.inum) listed
  have step : (TreeOp.unlink 1 name fun _ => leftover).Step twoFiles (OK, none) _ :=
    ⟨by simp [TreeOp.target], (unlink_returns agrees_answers twoFiles_root _ hit apart).bind .done⟩
  refine ⟨_, _, step, unlinked_parent .., both_proper.erase _ hit, ?_⟩
  exact listing_erase both_proper.short ..

/-- A page of 32 bytes, which has room for one dirent of these. -/
private theorem page_32 {s : Reading} {buf : List UInt8} (found : s.extents 1 = some ⟨T_DIR, buf⟩)
    (short : ∀ p ∈ listing buf, p.1.length = 1) (few : Libfuse.kernel.format.total (listing buf) ≤ 64) :
    s.Next .kernel 1 (.page 32) (s.page .kernel
      (replyBufLimited (pages .kernel buf).p (pages .kernel buf).size s.off 32) s.extents) := by
  refine .page ?_ ?_ (fuseserverReaddir_returns found)
  · intro buf' found' p member
    cases found.symm.trans found'
    rw [short p member]
    decide
  · intro buf' found'
    cases found.symm.trans found'
    exact Nat.lt_of_le_of_lt few (by decide)

private theorem page_first :
    (⟨twoFiles, 0, [], false⟩ : Reading).Next .kernel 1 (.page 32) ⟨twoFiles, 32, [([120], 2)], false⟩ := by
  have few : Libfuse.kernel.format.total (listing both) = 64 := by
    rw [listing_both]
    decide
  have short : ∀ p ∈ listing both, p.1.length = 1 := by
    rw [listing_both]
    decide
  have large : ∀ p ∈ listing both, Libfuse.kernel.direntSize p.1.length ≤ 32 := by
    rw [listing_both]
    decide
  have memory : Libfuse.kernel.format.total (listing both) < 2 ^ 63 := by
    rw [few]
    decide
  obtain ⟨now, later, parts, fit, last, same⟩ := Reading.page_unread (s := ⟨twoFiles, 0, [], false⟩)
    kernel_lawful both_proper (List.nil_append _).symm rfl large memory
  have next := page_32 (s := ⟨twoFiles, 0, [], false⟩) twoFiles_root short (Nat.le_of_eq few)
  rw [same] at next
  rw [listing_both] at parts last
  obtain _ | ⟨p, _ | ⟨q, now⟩⟩ := now
  · simp at last
  · cases parts
    exact next
  · -- Both dirents do not fit in the page.
    simp only [List.cons_append, List.cons.injEq] at parts
    obtain ⟨rfl, rfl, -⟩ := parts
    simp [Libfuse.format, Libfuse.kernel] at fit

/-- The next page, after `unlink` of one of the files, is empty. -/
private theorem session_unlink {name : Component} {kept : List UInt8 × Nat}
    (member : name.bytes ∈ (listing both).map Prod.fst)
    (left : (listing both).eraseP (·.1 = name.bytes) = [kept]) (short : kept.1.length = 1) :
    ∃ E', Present 1 kept E' ∧ Session .kernel 1 twoFiles
      [⟨⟨E', 32, [([120], 2)], false⟩, .page 32⟩,
        ⟨⟨twoFiles, 32, [([120], 2)], false⟩, .op (.unlink 1 name fun _ => leftover)⟩,
        ⟨⟨twoFiles, 0, [], false⟩, .page 32⟩] ⟨E', 32, [([120], 2)], true⟩ := by
  obtain ⟨buf, E', step, found, proper, listed⟩ := unlink_one member
  rw [left] at listed
  have total : Libfuse.kernel.format.total (listing buf) = 32 := by
    rw [listed, RecordFormat.total_cons, Libfuse.format]
    simp [short, Libfuse.kernel]
  have next := page_32 (s := ⟨E', 32, [([120], 2)], false⟩) found (by simpa [listed] using short) (by omega)
  rw [Reading.page_past kernel_lawful proper (by rw [total])] at next
  refine ⟨E', ⟨buf, found, by simp [listed]⟩, ?_⟩
  exact ((Session.start.next rfl page_first).next rfl (.op step)).next rfl next

/-- A file that has not been listed may go. -/
theorem Session.lists_once_kept : ∃ turns s, Session .kernel 1 twoFiles turns s ∧ s.ended = true ∧
    s.read.count ([120], 2) = 1 := by
  obtain ⟨log, run, short⟩ := twoFiles_run
  have member : nameY.bytes ∈ (listing both).map Prod.fst := by
    rw [listing_both]
    decide
  have left : (listing both).eraseP (·.1 = nameY.bytes) = [([120], 2)] := by
    rw [listing_both]
    decide
  obtain ⟨E', present, session⟩ := session_unlink member left rfl
  have before : Present 1 ([120], 2) twoFiles := ⟨both, twoFiles_root, by simp [listing_both]⟩
  refine ⟨_, _, session, rfl, session.lists_once kernel_lawful run short ?_ rfl _ ?_⟩
  · rw [List.forall_mem_cons, List.forall_mem_cons, List.forall_mem_singleton]
    refine ⟨nofun, ?_, nofun⟩
    rintro op ⟨⟩
    refine ⟨nofun, nofun, ?_⟩
    rintro name memory buf front p back ⟨⟩ found split named
    cases twoFiles_root.symm.trans found
    rw [listing_both] at split
    obtain _ | ⟨q, _ | ⟨o, front⟩⟩ := front
    · cases split
      simp [nameY] at named
    · cases split
      exact .inl (by decide)
    · simp at split
  · rw [List.forall_mem_cons, List.forall_mem_cons, List.forall_mem_singleton]
    exact ⟨present, before, before⟩

/-- After `unlink` of the file that has been listed the other one is never listed. -/
theorem Session.unlink_loses_entry : ∃ log turns s p, TreeRun log twoFiles ∧
    (∀ e ∈ log, e.op.ShortIn 1) ∧ Session .kernel 1 twoFiles turns s ∧ s.ended = true ∧
    (∀ t ∈ turns, Present 1 p t.before.extents) ∧ s.read.count p ≠ 1 := by
  obtain ⟨log, run, short⟩ := twoFiles_run
  have member : nameX.bytes ∈ (listing both).map Prod.fst := by
    rw [listing_both]
    decide
  have left : (listing both).eraseP (·.1 = nameX.bytes) = [([121], 3)] := by
    rw [listing_both]
    decide
  obtain ⟨E', present, session⟩ := session_unlink member left rfl
  have before : Present 1 ([121], 3) twoFiles := ⟨both, twoFiles_root, by simp [listing_both]⟩
  refine ⟨log, _, _, ([121], 3), run, short, session, rfl, ?_, by simp⟩
  rw [List.forall_mem_cons, List.forall_mem_cons, List.forall_mem_singleton]
  exact ⟨present, before, before⟩

end Lost

end Yfs.Client
