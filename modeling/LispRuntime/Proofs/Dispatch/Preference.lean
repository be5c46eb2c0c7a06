import LispRuntime.Dispatch.Tables
import LispRuntime.Proofs.Hierarchy.Changes

/-! Which of two tags a multimethod puts above the other. The search for a preference climbs
one link at a time, on either side; the links have no cycle, so that the fuel for it always
suffices, and the answer is whether there is a preference to be found by climbing. -/

namespace LispRuntime.Dispatch.Tables

variable {α μ : Type} {tables : Tables α μ} {preferences : TagTable α (TagSet α)}
  {hierarchy : Hierarchy α} {preferred other upper lower : Tag α}

/-- The first tag is preferred over the second, as such or on account of parents. -/
inductive Prefers (preferences : TagTable α (TagSet α)) (hierarchy : Hierarchy α) :
    Tag α → Tag α → Prop
  | direct {preferred other : Tag α} :
      TagSet.has ((preferences.lookup preferred).getD []) other = true →
      Prefers preferences hierarchy preferred other
  | overParent {preferred other parent : Tag α} : parent ∈ hierarchy.parentsOf other →
      Prefers preferences hierarchy preferred parent →
      Prefers preferences hierarchy preferred other
  | throughParent {preferred other parent : Tag α} : parent ∈ hierarchy.parentsOf preferred →
      Prefers preferences hierarchy parent other →
      Prefers preferences hierarchy preferred other

/-- One tag is above another if it is preferred over it or is a kind of it. -/
def Dominates (preferences : TagTable α (TagSet α)) (hierarchy : Hierarchy α)
    (upper lower : Tag α) : Prop :=
  Prefers preferences hierarchy upper lower ∨ hierarchy.isa upper lower = true

/-- A question with an answer, which is yes just if the proposition holds. -/
def Decides (question : Option Bool) (proposition : Prop) : Prop :=
  ∃ answer, question = some answer ∧ (answer = true ↔ proposition)

theorem anyOf_decides {β : Type} {test : β → Option Bool} {property : β → Prop}
    {elements : List β} (each : ∀ element ∈ elements, Decides (test element) (property element)) :
    Decides (anyOf test elements) (∃ element ∈ elements, property element) := by
  induction elements with
  | nil => exact ⟨false, rfl, by simp⟩
  | cons element rest induction =>
      rcases each element (List.mem_cons_self ..) with ⟨first, tested, holds⟩
      rcases induction fun later member => each later (List.mem_cons_of_mem _ member) with
        ⟨others, testedRest, holdsRest⟩
      refine ⟨first || others, ?_, ?_⟩
      · cases first <;> simp [anyOf, tested, testedRest]
      · simp [holds, holdsRest]

/-- Fuel beyond what both sides can climb suffices. -/
theorem prefers_decides (tables : Tables α μ) {height : Tag α → Nat} {fuel : Nat}
    (up : ∀ tag parent, hierarchy.LinksTo tag parent → height parent < height tag)
    (enough : height preferred + height other < fuel) :
    Decides (tables.prefers hierarchy fuel preferred other)
      (Prefers tables.preferences hierarchy preferred other) := by
  induction fuel generalizing preferred other with
  | zero => cases enough
  | succ fuel induction =>
      have lower : ∀ tag, ∀ parent ∈ hierarchy.parentsOf tag, height parent < height tag :=
        fun tag parent member => up tag parent (TagSet.has_of_mem member)
      have eachBelow : ∀ parent ∈ hierarchy.parentsOf other,
          Decides (tables.prefers hierarchy fuel preferred parent)
            (Prefers tables.preferences hierarchy preferred parent) := fun parent member =>
        induction (by have := lower other parent member; omega)
      have eachThrough : ∀ parent ∈ hierarchy.parentsOf preferred,
          Decides (tables.prefers hierarchy fuel parent other)
            (Prefers tables.preferences hierarchy parent other) := fun parent member =>
        induction (by have := lower preferred parent member; omega)
      rcases anyOf_decides eachBelow with ⟨belowParent, ranBelow, isBelow⟩
      rcases anyOf_decides eachThrough with ⟨through, ranThrough, isThrough⟩
      refine ⟨tables.directlyPrefers preferred other || belowParent || through, ?_, ?_⟩
      · rw [prefers, ranBelow, ranThrough]
        cases tables.directlyPrefers preferred other <;> cases belowParent <;> rfl
      · rw [Bool.or_eq_true, Bool.or_eq_true, isBelow, isThrough]
        constructor
        · rintro ((direct | ⟨parent, member, above⟩) | ⟨parent, member, above⟩)
          · exact .direct direct
          · exact .overParent member above
          · exact .throughParent member above
        · intro above
          cases above with
          | direct known => exact .inl (.inl known)
          | overParent member above => exact .inl (.inr ⟨_, member, above⟩)
          | throughParent member above => exact .inr ⟨_, member, above⟩

/-- How deep the search goes depends on the hierarchy only: the fuel that is provided
suffices, and so does any more. -/
theorem prefers_of_climbingFuel_le (tables : Tables α μ) (sound : hierarchy.Sound)
    (preferred other : Tag α) {fuel : Nat} (enough : climbingFuel hierarchy ≤ fuel) :
    Decides (tables.prefers hierarchy fuel preferred other)
      (Prefers tables.preferences hierarchy preferred other) := by
  rcases Hierarchy.exists_height sound.distinct sound.acyclic with ⟨height, bounded⟩
  have climbs : height preferred + height other < fuel := by
    have preferredBound := (bounded preferred).1
    have otherBound := (bounded other).1
    unfold climbingFuel at enough
    omega
  exact prefers_decides tables (fun tag => (bounded tag).2) climbs

theorem climbing_decides (tables : Tables α μ) (sound : hierarchy.Sound)
    (preferred other : Tag α) :
    Decides (tables.prefers hierarchy (climbingFuel hierarchy) preferred other)
      (Prefers tables.preferences hierarchy preferred other) :=
  prefers_of_climbingFuel_le tables sound preferred other le_rfl

theorem dominates_decides (tables : Tables α μ) (sound : hierarchy.Sound) (upper lower : Tag α) :
    Decides (tables.dominates hierarchy upper lower)
      (Dominates tables.preferences hierarchy upper lower) := by
  rcases climbing_decides tables sound upper lower with ⟨preferred, ran, isPreferred⟩
  refine ⟨preferred || hierarchy.isa upper lower, ?_, ?_⟩
  · rw [dominates, ran]
    cases preferred <;> rfl
  · rw [Bool.or_eq_true, isPreferred, Dominates]

theorem dominates_of (sound : hierarchy.Sound)
    (above : Dominates tables.preferences hierarchy upper lower) :
    tables.dominates hierarchy upper lower = some true := by
  rcases dominates_decides tables sound upper lower with ⟨answer, ran, holds⟩
  rw [ran, holds.mpr above]

theorem dominates_of_not (sound : hierarchy.Sound)
    (notAbove : ¬Dominates tables.preferences hierarchy upper lower) :
    tables.dominates hierarchy upper lower = some false := by
  rcases dominates_decides tables sound upper lower with ⟨answer, ran, holds⟩
  rw [ran, Bool.eq_false_iff.mpr (notAbove ∘ holds.mp)]

theorem dominates_iff (sound : hierarchy.Sound) :
    Dominates tables.preferences hierarchy upper lower ↔
      tables.dominates hierarchy upper lower = some true := by
  refine ⟨dominates_of sound, fun ran => ?_⟩
  by_contra notAbove
  cases ran.symm.trans (dominates_of_not sound notAbove)

theorem dominates_self (label : upper.label = lower.label) :
    Dominates preferences hierarchy upper lower :=
  .inr (hierarchy.isa_of_label_eq label)

end LispRuntime.Dispatch.Tables
