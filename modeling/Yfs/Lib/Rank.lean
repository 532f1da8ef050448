import Mathlib.Algebra.BigOperators.Group.Finset.Basic
import Mathlib.Algebra.Order.BigOperators.Group.Finset
import Mathlib.Algebra.Order.Group.Nat
import Mathlib.Logic.Hydra
import Mathlib.Order.WellFounded
import Yfs.Lib.Program

/-! Measures that bound the length of a run. -/

namespace Yfs.Lib

/-- One of the measures falls from `s` to `t`, and none before it rises. -/
inductive Falls {σ : Type} : List (σ → Nat) → σ → σ → Prop where
  | here (lower : m t < m s) : Falls (m :: rest) s t
  | later (kept : m t ≤ m s) (below : Falls rest s t) : Falls (m :: rest) s t

theorem Falls.wf {σ : Type} (measures : List (σ → Nat)) : WellFounded fun t s => Falls measures s t := by
  induction measures with
  | nil => exact ⟨fun s => ⟨s, fun t falls => by cases falls⟩⟩
  | cons m rest ih =>
    have lex := InvImage.wf (fun s : σ => (m s, s))
      (Prod.lex ⟨(· < ·), Nat.lt_wfRel.wf⟩ ⟨_, ih⟩).wf
    refine Subrelation.wf (fun {t s} falls => ?_) lex
    cases falls with
    | here lower => exact .left _ _ lower
    | later kept below =>
      rcases Nat.lt_or_eq_of_le kept with lower | same
      · exact .left _ _ lower
      · change Prod.Lex _ _ (m t, t) (m s, s)
        rw [same]
        exact .right _ below

/-- A relation whose steps all lower the measures, and keep `P`, has no infinite chain from a
state with `P`. -/
theorem Falls.acc {σ : Type} {measures : List (σ → Nat)} {R : σ → σ → Prop} {P : σ → Prop}
    (falls : ∀ {s t}, P s → R s t → Falls measures s t ∧ P t) {s : σ} (start : P s) :
    Acc (fun t s => R s t) s := by
  induction s using (Falls.wf measures).induction with
  | _ s ih =>
    refine ⟨s, fun t step => ?_⟩
    obtain ⟨lower, kept⟩ := falls start step
    exact ih t lower kept

/-- The same with a well-founded relation before the measures. -/
theorem Falls.acc_lex {σ β : Type} {r : β → β → Prop} (wf : WellFounded r) (f : σ → β)
    {measures : List (σ → Nat)} {R : σ → σ → Prop} {P : σ → Prop}
    (falls : ∀ {s t}, P s → R s t → (r (f t) (f s) ∨ f t = f s ∧ Falls measures s t) ∧ P t) {s : σ}
    (start : P s) : Acc (fun t s => R s t) s := by
  have lex := InvImage.wf (fun s : σ => (f s, s)) (Prod.lex ⟨r, wf⟩ ⟨_, Falls.wf measures⟩).wf
  induction s using lex.induction with
  | _ s ih =>
    refine ⟨s, fun t step => ?_⟩
    obtain ⟨lower | ⟨same, lower⟩, kept⟩ := falls start step
    · exact ih t (.left _ _ lower) kept
    · refine ih t ?_ kept
      change Prod.Lex _ _ (f t, t) (f s, s)
      rw [same]
      exact .right _ lower

/-- The weight of the positions in `F`. -/
def weight {ι α M : Type} [AddCommMonoid M] (F : Finset ι) (w : α → M) (pos : ι → α) : M :=
  ∑ i ∈ F, w (pos i)

/-- Only the weight of `i` changes. -/
theorem weight_of_ne {ι α M : Type} [AddCommMonoid M] [DecidableEq ι] {F : Finset ι} {w : α → M}
    {before after : ι → α} {i : ι} (member : i ∈ F) (others : ∀ j, j ≠ i → w (after j) = w (before j)) :
    weight F w after + w (before i) = weight F w before + w (after i) := by
  have split : ∀ pos : ι → α, weight F w pos = w (pos i) + ∑ j ∈ F.erase i, w (pos j) :=
    fun pos => (Finset.add_sum_erase F (fun j => w (pos j)) member).symm
  have rest : ∑ j ∈ F.erase i, w (after j) = ∑ j ∈ F.erase i, w (before j) :=
    Finset.sum_congr rfl fun j here => others j (Finset.ne_of_mem_erase here)
  rw [split, split, rest, add_right_comm, add_assoc, add_comm (w (after i)), add_assoc]

/-- The measures fall for all positions in `F` together when they fall for some of them and for the
others nothing changes. -/
theorem Falls.sum {ι σ τ : Type} {F : Finset ι} {measures : List (τ → Nat)} {g : ι → σ → Option τ}
    {s t : σ} {a b : τ} (falls : Falls measures a b)
    (others : ∀ i, g i t = g i s ∨ g i s = some a ∧ g i t = some b) {x : ι} (member : x ∈ F)
    (before : g x s = some a) (after : g x t = some b) :
    Falls (measures.map fun m s => weight F (fun y : Option τ => y.elim 0 m) fun i => g i s) s t := by
  have each : ∀ m : τ → Nat, m b ≤ m a → ∀ i, (g i t).elim 0 m ≤ (g i s).elim 0 m := by
    intro m lower i
    rcases others i with same | ⟨first, second⟩
    · rw [same]
    · simpa [first, second] using lower
  induction falls with
  | here lower =>
    refine .here (Finset.sum_lt_sum (fun i _ => each _ lower.le i) ⟨x, member, ?_⟩)
    simpa [before, after] using lower
  | later kept _ ih => exact .later (Finset.sum_le_sum fun i _ => each _ kept i) (ih others before after each)

namespace Program

variable {L C : Type} {R : C → Type} {α : Type}

/-- What is left of a program after a step. -/
inductive Left : Program L C R α → Program L C R α → Prop where
  | acquire {l : L} {rest : Program L C R α} : Left rest (.acquire l rest)
  | release {l : L} {rest : Program L C R α} : Left rest (.release l rest)
  | call {c : C} {next : R c → Program L C R α} {r : R c} : Left (next r) (.call c next)

theorem Left.wf : WellFounded (Left : Program L C R α → Program L C R α → Prop) := by
  refine ⟨fun p => ?_⟩
  induction p with
  | done a => exact ⟨_, fun q left => nomatch left⟩
  | abort => exact ⟨_, fun q left => nomatch left⟩
  | acquire l rest ih =>
    refine ⟨_, fun q left => ?_⟩
    cases left
    exact ih
  | release l rest ih =>
    refine ⟨_, fun q left => ?_⟩
    cases left
    exact ih
  | call c next ih =>
    refine ⟨_, fun q left => ?_⟩
    cases left
    exact ih _

/-- What a thread, if it is at work, has to do. -/
def todo (x : Option (Program L C R α)) : Multiset (Program L C R α) := x.elim 0 ({·})

/-- A thread that takes a step leaves less to be done. -/
theorem cutExpand_todo {ι : Type} [DecidableEq ι] {F : Finset ι} {before after : ι → Option (Program L C R α)}
    {i : ι} {p : Program L C R α} (member : i ∈ F) (running : before i = some p)
    (left : ∀ q, after i = some q → Left q p) (others : ∀ j, j ≠ i → after j = before j) :
    Relation.CutExpand Left (weight F todo after) (weight F todo before) := by
  refine ⟨todo (after i), p, ?_, ?_⟩
  · intro q inside
    rcases now : after i with _ | q'
    · simp [now, todo] at inside
    · rw [now] at inside
      rw [Multiset.mem_singleton.mp inside]
      exact left q' now
  · have balance := weight_of_ne member fun j other => congrArg todo (others j other)
    rwa [running] at balance

end Program

end Yfs.Lib
