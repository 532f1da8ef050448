import Mathlib.Logic.Function.Basic
import Yfs.Lib.Program

/-! Programs whose locks are for the cells of a store. Under the lock of a cell a program touches
this cell and the cells that it has made itself, and it does so whatever the other cells are. -/

namespace Yfs.Lib

variable {L C : Type} {R : C → Type} {α β W κ : Type}

/-- What a call touches: the cell of a given name, a new cell, or any cells. -/
inductive Scope (L : Type) where
  | cell (l : L)
  | fresh
  | wide

/-- Cells stay, with what `kind` says of them. -/
def Grows (kind : W → κ) (s t : L → Option W) : Prop :=
  ∀ l x, s l = some x → ∃ y, t l = some y ∧ kind y = kind x

section Grows

variable {kind : W → κ} {s t u : L → Option W}

theorem Grows.refl (s : L → Option W) : Grows kind s s := fun _ x found => ⟨x, found, rfl⟩

theorem Grows.trans (first : Grows kind s t) (second : Grows kind t u) : Grows kind s u := by
  intro l x found
  obtain ⟨y, there, same⟩ := first l x found
  obtain ⟨z, last, again⟩ := second l y there
  exact ⟨z, last, again.trans same⟩

theorem Grows.live (grows : Grows kind s t) {l : L} (live : s l ≠ none) : t l ≠ none := by
  obtain ⟨x, found⟩ := Option.ne_none_iff_exists'.mp live
  obtain ⟨y, there, -⟩ := grows l x found
  simp [there]

end Grows

variable [DecidableEq L]

/-- The call touches cell `l` and no other, and leaves something in it. -/
structure Local (kind : W → κ) (answers : (c : C) → (L → Option W) → R c → (L → Option W) → Prop)
    (c : C) (r : R c) (l : L) : Prop where
  grows : ∀ {s t}, answers c s r t → Grows kind s t
  live : ∀ {s t}, answers c s r t → t l ≠ none
  others : ∀ {s t}, answers c s r t → ∀ k, k ≠ l → t k = s k
  anywhere : ∀ {s t}, answers c s r t → ∀ u, u l = s l → answers c u r (Function.update u l (t l))

/-- Calls on a store of cells, which it answers within their scope; `name` is the name of a new
cell. -/
structure Cells (L C : Type) [DecidableEq L] (R : C → Type) (W κ : Type) where
  kind : W → κ
  scope : C → Scope L
  name : (c : C) → R c → L
  answers : (c : C) → (L → Option W) → R c → (L → Option W) → Prop
  cell : ∀ {c l}, scope c = .cell l → ∀ r, Local kind answers c r l
  fresh : ∀ {c}, scope c = .fresh → ∀ r, Local kind answers c r (name c r) ∧
    ∀ {s t}, answers c s r t → s (name c r) = none

namespace Cells

variable (S : Cells L C R W κ)

/-- The cells of a section after a call. -/
def grow (own : List L) (c : C) (r : R c) : List L :=
  match S.scope c with
  | .fresh => own ++ [S.name c r]
  | _ => own

theorem head_grow {own : List L} {l : L} (inside : own.head? = some l) (c : C) (r : R c) :
    (S.grow own c r).head? = some l := by
  unfold grow
  split
  · simp [inside]
  · exact inside

/-- A section with the cells `own` may make the call. -/
def Allows (own : List L) (c : C) : Prop :=
  match S.scope c with
  | .cell l => l ∈ own
  | .fresh => True
  | .wide => False

/-- What one call of a section does: it touches one of the cells the section has then, and the
section had it before or it is a new one. -/
theorem touches {S : Cells L C R W κ} {own : List L} {c : C} {r : R c} {s t : L → Option W}
    (allows : S.Allows own c) (answered : S.answers c s r t) :
    ∃ l, Local S.kind S.answers c r l ∧
      ((l ∈ own ∧ S.grow own c r = own) ∨ s l = none ∧ S.grow own c r = own ++ [l]) := by
  unfold Allows at allows
  unfold grow
  split at allows
  · rename_i l scope
    exact ⟨l, S.cell scope r, .inl ⟨allows, by simp [scope]⟩⟩
  · rename_i scope
    obtain ⟨only, fresh⟩ := S.fresh scope r
    exact ⟨S.name c r, only, .inr ⟨fresh answered, by simp [scope]⟩⟩
  · exact allows.elim

/-- A program among others that let the store grow and keep `inv` of it. `own` are the cells of the
section it is in, that of the lock first. It takes locks of cells that are there, stays within
its own cells, gets an answer from them, restores `inv` before it leaves a section, and ends
with `Q`. -/
def Serves (inv : (L → Option W) → Prop) (Q : α → List L → (L → Option W) → Prop) :
    Program L C R α → List L → (L → Option W) → Prop
  | .done a, own, s => Q a own s
  | .abort, _, _ => False
  | .acquire l rest, own, s =>
    own = [] ∧ s l ≠ none ∧ ∀ t, Grows S.kind s t → inv t → Serves inv Q rest [l] t
  | .release l rest, own, s => own.head? = some l ∧ inv s ∧ Serves inv Q rest [] s
  | .call c next, own, s => own ≠ [] ∧ S.Allows own c ∧
    (S.scope c ≠ .fresh → ∃ r t, S.answers c s r t) ∧
    ∀ r t, S.answers c s r t → Serves inv Q (next r) (S.grow own c r) t

/-- A program that ends inside a section, and so never leaves it, has a `leaky` result. -/
def Ends (inv : (L → Option W) → Prop) (leaky : α → Prop) (Q : α → (L → Option W) → Prop) (a : α)
    (own : List L) (s : L → Option W) : Prop := (own ≠ [] → inv s ∧ leaky a) ∧ Q a s

variable {S} {inv : (L → Option W) → Prop}

section Serves

variable {p : Program L C R α}

theorem Serves.bind {f : α → Program L C R β} {Q : β → List L → (L → Option W) → Prop} :
    ∀ {own s}, S.Serves inv (fun a own t => S.Serves inv Q (f a) own t) p own s →
      S.Serves inv Q (p >>= f) own s := by
  induction p with
  | done a => exact id
  | abort => exact False.elim
  | acquire l rest ih =>
    exact fun ⟨outside, live, serves⟩ => ⟨outside, live, fun t grows holds => ih (serves t grows holds)⟩
  | release l rest ih => exact fun ⟨inside, holds, serves⟩ => ⟨inside, holds, ih serves⟩
  | call c next ih =>
    exact fun ⟨inside, allows, answer, serves⟩ =>
      ⟨inside, allows, answer, fun r t answered => ih r (serves r t answered)⟩

theorem Serves.mono {Q Q' : α → List L → (L → Option W) → Prop} (weaker : ∀ a own t, Q a own t → Q' a own t) :
    ∀ {own s}, S.Serves inv Q p own s → S.Serves inv Q' p own s := by
  induction p with
  | done a => exact weaker a _ _
  | abort => exact id
  | acquire l rest ih =>
    exact fun ⟨outside, live, serves⟩ => ⟨outside, live, fun t grows holds => ih (serves t grows holds)⟩
  | release l rest ih => exact fun ⟨inside, holds, serves⟩ => ⟨inside, holds, ih serves⟩
  | call c next ih =>
    exact fun ⟨inside, allows, answer, serves⟩ =>
      ⟨inside, allows, answer, fun r t answered => ih r (serves r t answered)⟩

/-- Outside its sections a program does not mind what others do. -/
theorem Serves.grows {Q : α → List L → (L → Option W) → Prop} {s t : L → Option W}
    (serves : S.Serves inv Q p [] s) (grows : Grows S.kind s t) (stable : ∀ a, Q a [] s → Q a [] t) :
    S.Serves inv Q p [] t := by
  cases p with
  | done a => exact stable a serves
  | abort => exact serves.elim
  | acquire l rest =>
    obtain ⟨outside, live, serves⟩ := serves
    exact ⟨outside, grows.live live, fun u further holds => serves u (grows.trans further) holds⟩
  | release l rest => cases serves.1
  | call c next => exact absurd rfl serves.1

end Serves

section Via

variable {T : Type}

/-- The same calls with a caller, who does not matter. -/
def via (T : Type) (S : Cells L C R W κ) : Cells L (T × C) (fun c => R c.2) W κ where
  kind := S.kind
  scope c := S.scope c.2
  name c := S.name c.2
  answers c := S.answers c.2
  cell scope r :=
    have only := S.cell scope r
    ⟨only.grows, only.live, only.others, only.anywhere⟩
  fresh scope r :=
    have ⟨only, new⟩ := S.fresh scope r
    ⟨⟨only.grows, only.live, only.others, only.anywhere⟩, new⟩

theorem Serves.via {Q : α → List L → (L → Option W) → Prop} {p : Program L C R α} (t : T) :
    ∀ {own s}, S.Serves inv Q p own s → (S.via T).Serves inv Q (p.via t) own s := by
  induction p with
  | done a => exact id
  | abort => exact id
  | acquire l rest ih =>
    exact fun ⟨outside, live, serves⟩ => ⟨outside, live, fun t grows holds => ih (serves t grows holds)⟩
  | release l rest ih => exact fun ⟨inside, holds, serves⟩ => ⟨inside, holds, ih serves⟩
  | call c next ih =>
    exact fun ⟨inside, allows, answer, serves⟩ =>
      ⟨inside, allows, answer, fun r t answered => ih r (serves r t answered)⟩

end Via

/-- A section run alone, from its lock to the program behind its release, or to its end. -/
inductive Section (answers : (c : C) → (L → Option W) → R c → (L → Option W) → Prop) (l : L) :
    Program L C R α → (L → Option W) → Program L C R α → (L → Option W) → Prop where
  | release : Section answers l (.release l rest) s rest s
  | left : Section answers l (.done a) s (.done a) s
  | call {next : R c → Program L C R α} {r : R c} (answered : answers c s r s')
      (tail : Section answers l (next r) s' rest t) : Section answers l (.call c next) s rest t

/-- The calls a section has made so far, and the cells it has then. -/
inductive Calls (S : Cells L C R W κ) (l : L) (p : Program L C R α) (s : L → Option W) :
    List L → Program L C R α → (L → Option W) → Prop where
  | nil : Calls S l p s [l] p s
  | snoc {next : R c → Program L C R α} {r : R c} (calls : Calls S l p s own (.call c next) t)
      (allows : S.Allows own c) (answered : S.answers c t r u) :
      Calls S l p s (S.grow own c r) (next r) u

section Calls

variable {l : L} {p q rest : Program L C R α} {own : List L} {s t u : L → Option W}

theorem Calls.section_of (calls : S.Calls l p s own q t) (tail : Section S.answers l q t rest u) :
    Section S.answers l p s rest u := by
  induction calls with
  | nil => exact tail
  | snoc _ _ answered ih => exact ih (.call answered tail)

/-- What one call does to the cells of the section. -/
theorem Calls.head (calls : S.Calls l p s own q t) : ∃ made, own = l :: made := by
  induction calls with
  | nil => exact ⟨[], rfl⟩
  | snoc _ allows answered ih =>
    obtain ⟨made, rfl⟩ := ih
    obtain ⟨k, -, ⟨-, same⟩ | ⟨-, same⟩⟩ := touches allows answered
    · exact ⟨made, same⟩
    · exact ⟨made ++ [k], same⟩

theorem Calls.others (calls : S.Calls l p s own q t) : ∀ k, k ∉ own → t k = s k := by
  induction calls with
  | nil => exact fun _ _ => rfl
  | snoc _ allows answered ih =>
    intro k outside
    obtain ⟨m, only, ⟨member, same⟩ | ⟨-, same⟩⟩ := touches allows answered
    · rw [same] at outside
      have apart : k ≠ m := fun equal => outside (equal ▸ member)
      rw [only.others answered k apart, ih k outside]
    · rw [same, List.mem_append, List.mem_singleton, not_or] at outside
      rw [only.others answered k outside.2, ih k outside.1]

theorem Calls.grows (calls : S.Calls l p s own q t) : Grows S.kind s t := by
  induction calls with
  | nil => exact .refl s
  | snoc _ allows answered ih =>
    obtain ⟨m, only, -⟩ := touches allows answered
    exact ih.trans (only.grows answered)

theorem Calls.live (calls : S.Calls l p s own q t) (live : s l ≠ none) : ∀ k ∈ own, t k ≠ none := by
  induction calls with
  | nil => simpa using live
  | snoc _ allows answered ih =>
    intro k member
    obtain ⟨m, only, ⟨-, same⟩ | ⟨-, same⟩⟩ := touches allows answered
    · exact (only.grows answered).live (ih k (same ▸ member))
    · rw [same, List.mem_append, List.mem_singleton] at member
      rcases member with old | rfl
      · exact (only.grows answered).live (ih k old)
      · exact only.live answered

/-- The cells a section has made were not there before it. -/
theorem Calls.made (calls : S.Calls l p s own q t) : ∀ k ∈ own, k ≠ l → s k = none := by
  induction calls with
  | nil => simp
  | @snoc _ own' _ _ _ _ before allows answered ih =>
    intro k member apart
    obtain ⟨m, only, ⟨-, same⟩ | ⟨fresh, same⟩⟩ := touches allows answered
    · exact ih k (same ▸ member) apart
    · rw [same, List.mem_append, List.mem_singleton] at member
      rcases member with old | rfl
      · exact ih k old apart
      · by_cases old : k ∈ own'
        · exact ih k old apart
        · rw [← before.others k old, fresh]

/-- The cells in `own` as in `t`, the others as in `u`. -/
def overlay (own : List L) (t u : L → Option W) : L → Option W := fun k => if k ∈ own then t k else u k

theorem overlay_update {k : L} (u : L → Option W) (others : ∀ m, m ≠ k → t m = s m) :
    Function.update (overlay own s u) k (t k) = overlay (own ++ [k]) t u := by
  funext m
  by_cases same : m = k
  · simp [overlay, same]
  · simp [overlay, same, others m same]

theorem overlay_of_mem {k : L} (u : L → Option W) (member : k ∈ own) :
    overlay (own ++ [k]) t u = overlay own t u := by
  funext m
  by_cases same : m = k
  · simp [overlay, same, member]
  · simp [overlay, same]

/-- The section makes the same calls on every store with the same cells of its own. -/
theorem Calls.rebase (calls : S.Calls l p s own q t) :
    (∀ k ∈ own, u k = s k) → S.Calls l p u own q (overlay own t u) := by
  induction calls with
  | nil =>
    intro same
    have whole : overlay [l] s u = u := by
      funext k
      by_cases here : k = l
      · simp [overlay, here, same l]
      · simp [overlay, here]
    rw [whole]
    exact .nil
  | @snoc c own' t' t next r before allows answered ih =>
    intro same
    obtain ⟨m, only, ⟨member, kept⟩ | ⟨fresh, grown⟩⟩ := touches allows answered
    · rw [kept] at same
      have again := (ih same).snoc allows (only.anywhere answered _ (by simp [overlay, member]))
      rw [overlay_update u (only.others answered), overlay_of_mem u member] at again
      rw [kept] at again ⊢
      exact again
    · rw [grown] at same
      have dead : overlay own' t' u m = t' m := by
        by_cases old : m ∈ own'
        · simp [overlay, old]
        · simp [overlay, old, same m (by simp), before.others m old]
      have again := (ih fun k old => same k (by simp [old])).snoc allows (only.anywhere answered _ dead)
      rwa [overlay_update u (only.others answered), ← grown] at again

/-- Run alone, a section that serves restores `inv` and leaves the rest of its program to serve. -/
theorem Section.serves {leaky : α → Prop} {Q : α → (L → Option W) → Prop}
    (whole : Section S.answers l p s rest t) :
    ∀ {own}, own.head? = some l → S.Serves inv (Ends inv leaky Q) p own s →
      inv t ∧ S.Serves inv (Ends inv leaky Q) rest [] t ∧ Grows S.kind s t := by
  induction whole with
  | release => exact fun _ ⟨_, holds, serves⟩ => ⟨holds, serves, .refl _⟩
  | left =>
    intro own inside ⟨holds, result⟩
    have kept := holds (by rintro rfl; cases inside)
    exact ⟨kept.1, ⟨fun _ => kept, result⟩, .refl _⟩
  | call answered _ ih =>
    intro own inside ⟨_, allows, _, serves⟩
    obtain ⟨m, only, -⟩ := touches allows answered
    obtain ⟨kept, serves, grows⟩ := ih (S.head_grow inside _ _) (serves _ _ answered)
    exact ⟨kept, serves, (only.grows answered).trans grows⟩

theorem Calls.serves {Q : α → List L → (L → Option W) → Prop} (calls : S.Calls l p s own q t)
    (serves : S.Serves inv Q p [l] s) : S.Serves inv Q q own t := by
  induction calls with
  | nil => exact serves
  | snoc _ _ answered ih => exact ih.2.2.2 _ _ answered

end Calls

end Cells

end Yfs.Lib
