import Mathlib.Data.Finset.Card
import Mathlib.Data.List.Count
import Mathlib.Logic.Function.Basic

/-! Objects that link to other objects. Every object but a root is to be the target of
exactly one link of one object, and no link is to lead to an object that is gone. -/

namespace Yfs.Lib

variable {α : Type} [DecidableEq α]

/-- The links out of every object there is. -/
abbrev LinkMap (α : Type) := α → Option (List α)

namespace LinkMap

variable {g : LinkMap α} {root parent i j : α} {l before after : List α}

omit [DecidableEq α] in
def Links (g : LinkMap α) (d i : α) : Prop := ∃ l, g d = some l ∧ i ∈ l

/-- `i` is the target of one link of one object. -/
def NamedOnce (g : LinkMap α) (i : α) : Prop :=
  ∃ d l, g d = some l ∧ l.count i = 1 ∧ ∀ d', g.Links d' i → d' = d

/-- No link leads nowhere, and everything but the root is named once. -/
structure Tidy (root : α) (g : LinkMap α) : Prop where
  live : ∀ d i, g.Links d i → g i ≠ none
  once : ∀ i, g i ≠ none → i ≠ root → g.NamedOnce i

theorem NamedOnce.unique (named : g.NamedOnce i) (first : g.Links parent i) (second : g.Links j i) :
    j = parent := by
  obtain ⟨d, l, _, _, only⟩ := named
  rw [only _ first, only _ second]

theorem NamedOnce.count (named : g.NamedOnce i) (links : g parent = some l) (member : i ∈ l) :
    l.count i = 1 := by
  obtain ⟨d, l', links', count, only⟩ := named
  cases only parent ⟨l, links, member⟩
  cases links.symm.trans links'
  exact count

/-- An object has no more links than there are objects. -/
theorem Tidy.length_le (tidy : Tidy root g) {objects : Finset α} (all : ∀ i, g i ≠ none → i ∈ objects)
    (unnamed : ¬ g.Links parent root) (links : g parent = some l) : l.length ≤ objects.card := by
  have live : ∀ i ∈ l, g i ≠ none := fun i member => tidy.live parent i ⟨l, links, member⟩
  have once : l.Nodup := by
    refine List.nodup_iff_count_le_one.mpr fun i => ?_
    by_cases member : i ∈ l
    · have notRoot : i ≠ root := fun same => unnamed ⟨l, links, same ▸ member⟩
      exact ((tidy.once i (live i member) notRoot).count links member).le
    · rw [List.count_eq_zero.mpr member]
      exact Nat.zero_le _
  rw [← List.toFinset_card_of_nodup once]
  exact Finset.card_le_card fun i member => all i (live i (List.mem_toFinset.mp member))

/-- A new object without links of its own, linked from `parent`. -/
def add (g : LinkMap α) (parent : α) (l : List α) (i : α) : LinkMap α :=
  Function.update (Function.update g i (some [])) parent (some (l ++ [i]))

/-- Without `i`, and without a link to it from `parent`. -/
def drop (g : LinkMap α) (parent : α) (l : List α) (i : α) : LinkMap α :=
  Function.update (Function.update g i none) parent (some l)

section Add

variable (links : g parent = some l) (new : g i = none)
include links new

theorem add_links (d k : α) : (g.add parent l i).Links d k ↔ g.Links d k ∨ d = parent ∧ k = i := by
  have apart : parent ≠ i := by
    rintro rfl
    simp [links] at new
  by_cases home : d = parent
  · subst home
    simp [Links, add, links]
  · by_cases self : d = i
    · subst self
      simp [Links, add, home, new]
    · simp [Links, add, home, self]

theorem Tidy.add (tidy : Tidy root g) : Tidy root (g.add parent l i) := by
  have apart : parent ≠ i := by
    rintro rfl
    simp [links] at new
  have unlinked (d) : ¬ g.Links d i := fun linked => tidy.live d i linked new
  constructor
  · intro d k linked
    rcases (add_links links new d k).mp linked with old | ⟨rfl, rfl⟩
    · have live := tidy.live d k old
      have other : k ≠ i := by
        rintro rfl
        exact live new
      by_cases home : k = parent
      · simp [LinkMap.add, home]
      · simp [LinkMap.add, home, other, live]
    · simp [LinkMap.add, Ne.symm apart]
  · intro k live notRoot
    by_cases self : k = i
    · subst self
      refine ⟨parent, l ++ [k], by simp [LinkMap.add], ?_, ?_⟩
      · have absent : k ∉ l := fun member => unlinked parent ⟨l, links, member⟩
        simp [List.count_eq_zero.mpr absent]
      · intro d linked
        rcases (add_links links new d k).mp linked with old | ⟨rfl, _⟩
        · exact absurd old (unlinked d)
        · rfl
    · have alive : g k ≠ none := by
        by_cases home : k = parent
        · simp [home, links]
        · simpa [LinkMap.add, home, self] using live
      obtain ⟨d, l', found, count, only⟩ := tidy.once k alive notRoot
      have still : ∀ d', (g.add parent l i).Links d' k → d' = d := by
        intro d' linked
        rcases (add_links links new d' k).mp linked with old | ⟨_, same⟩
        · exact only d' old
        · exact absurd same self
      by_cases home : d = parent
      · subst home
        cases links.symm.trans found
        refine ⟨d, l ++ [i], by simp [LinkMap.add], ?_, still⟩
        simp [count, Ne.symm self]
      · have other : d ≠ i := by
          rintro rfl
          simp [found] at new
        exact ⟨d, l', by simp [LinkMap.add, home, other, found], count, still⟩

end Add

section Drop

variable (links : g parent = some (before ++ i :: after)) (apart : i ≠ parent)
include links apart

theorem drop_links (named : g.NamedOnce i) (d k : α) :
    (g.drop parent (before ++ after) i).Links d k ↔ g.Links d k ∧ d ≠ i ∧ k ≠ i := by
  have linked : g.Links parent i := ⟨_, links, by simp⟩
  have gone : i ∉ before ++ after := by
    have count := named.count links (by simp)
    have none : (before ++ after).count i = 0 := by
      simp [List.count_append] at count ⊢
      omega
    exact List.count_eq_zero.mp none
  by_cases home : d = parent
  · subst home
    constructor
    · rintro ⟨l, found, member⟩
      have same : l = before ++ after := by simpa [drop] using found.symm
      subst same
      refine ⟨⟨_, links, ?_⟩, Ne.symm apart, ?_⟩
      · simp at member ⊢
        tauto
      · rintro rfl
        exact gone member
    · rintro ⟨⟨l, found, member⟩, _, other⟩
      cases links.symm.trans found
      exact ⟨before ++ after, by simp [drop], by simpa [other] using member⟩
  · by_cases self : d = i
    · subst self
      simp [Links, drop, home]
    · constructor
      · rintro ⟨l, found, member⟩
        have old : g d = some l := by simpa [drop, home, self] using found
        refine ⟨⟨l, old, member⟩, self, ?_⟩
        rintro rfl
        exact home (named.unique linked ⟨l, old, member⟩)
      · rintro ⟨⟨l, found, member⟩, _, _⟩
        exact ⟨l, by simp [drop, home, self, found], member⟩

/-- Dropping an object without links of its own. -/
theorem Tidy.drop (tidy : Tidy root g) (named : g.NamedOnce i) (empty : ∀ k, ¬ g.Links i k) :
    Tidy root (g.drop parent (before ++ after) i) := by
  have gone := drop_links links apart named
  constructor
  · intro d k linked
    obtain ⟨old, _, other⟩ := (gone d k).mp linked
    have live := tidy.live d k old
    by_cases home : k = parent
    · simp [LinkMap.drop, home]
    · simp [LinkMap.drop, home, other, live]
  · intro k live notRoot
    have other : k ≠ i := by
      rintro rfl
      simp [LinkMap.drop, apart] at live
    have alive : g k ≠ none := by
      by_cases home : k = parent
      · simp [home, links]
      · simpa [LinkMap.drop, home, other] using live
    obtain ⟨d, l, found, count, only⟩ := tidy.once k alive notRoot
    have still : ∀ d', (g.drop parent (before ++ after) i).Links d' k → d' = d :=
      fun d' linked => only d' ((gone d' k).mp linked).1
    have elsewhere : d ≠ i := by
      rintro rfl
      exact empty k ⟨l, found, List.count_pos_iff.mp (by omega)⟩
    by_cases home : d = parent
    · subst home
      cases links.symm.trans found
      refine ⟨d, before ++ after, by simp [LinkMap.drop], ?_, still⟩
      simpa [List.count_append, List.count_cons, Ne.symm other] using count
    · exact ⟨d, l, by simp [LinkMap.drop, home, elsewhere, found], count, still⟩

/-- What an object linked to is lost with it. -/
theorem not_tidy_drop (tidy : Tidy root g) (named : g.NamedOnce i) (orphan : g.Links i j)
    (notRoot : j ≠ root) : ¬ Tidy root (g.drop parent (before ++ after) i) := by
  intro after'
  have gone := drop_links links apart named
  have other : j ≠ i := by
    rintro rfl
    exact apart (named.unique ⟨_, links, by simp⟩ orphan)
  have alive := tidy.live i j orphan
  have live : g.drop parent (before ++ after) i j ≠ none := by
    by_cases home : j = parent
    · simp [LinkMap.drop, home]
    · simp [LinkMap.drop, home, other, alive]
  obtain ⟨d, l, found, count, _⟩ := after'.once j live notRoot
  have linked : (g.drop parent (before ++ after) i).Links d j :=
    ⟨l, found, List.count_pos_iff.mp (by omega)⟩
  obtain ⟨old, elsewhere, _⟩ := (gone d j).mp linked
  exact elsewhere ((tidy.once j alive notRoot).unique orphan old)

end Drop

end LinkMap

end Yfs.Lib
