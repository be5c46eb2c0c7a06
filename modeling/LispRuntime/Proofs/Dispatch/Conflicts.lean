import LispRuntime.Proofs.Dispatch.Cache

/-! Preferences are recorded for two tags, and everything within either of the two inherits
them. What is checked when a preference is taken in is the reverse of the pair that is
recorded. So no two tags are recorded each over the other, and two that are preferred over each
other inherit it from what is recorded. -/

namespace LispRuntime.Dispatch.Tables

variable {α μ : Type} {tables : Tables α μ} {preferences : TagTable α (TagSet α)}
  {hierarchy : Hierarchy α} {preferred other upper lower parent : Tag α}

namespace Decides

variable {question : Option Bool} {proposition same : Prop}

theorem eq_true_iff (decides : Decides question proposition) :
    question = some true ↔ proposition := by
  rcases decides with ⟨answer, rfl, holds⟩
  rw [Option.some.injEq, holds]

theorem eq_false_iff (decides : Decides question proposition) :
    question = some false ↔ ¬proposition := by
  rcases decides with ⟨answer, rfl, holds⟩
  rw [Option.some.injEq, ← holds, Bool.not_eq_true]

theorem congr (decides : Decides question proposition) (iff : proposition ↔ same) :
    Decides question same := by
  rwa [← propext iff]

end Decides

/-- The preference is in the table as it was taken in. -/
def Recorded (preferences : TagTable α (TagSet α)) (preferred other : Tag α) : Prop :=
  TagSet.has ((preferences.lookup preferred).getD []) other = true

theorem Recorded.congr (recorded : Recorded preferences preferred other)
    (left : preferred.label = upper.label) (right : other.label = lower.label) :
    Recorded preferences upper lower := by
  rwa [Recorded, ← TagTable.lookup_congr _ left, ← TagSet.has_congr right]

/-! ## What is inherited -/

theorem Prefers.congr (prefers : Prefers preferences hierarchy preferred other)
    (left : preferred.label = upper.label) (right : other.label = lower.label) :
    Prefers preferences hierarchy upper lower := by
  induction prefers generalizing upper lower with
  | direct known => exact .direct (Recorded.congr known left right)
  | overParent member _ induction =>
      exact .overParent (Hierarchy.parentsOf_congr right ▸ member) (induction left rfl)
  | throughParent member _ induction =>
      exact .throughParent (Hierarchy.parentsOf_congr left ▸ member) (induction rfl right)

theorem Prefers.over_linked (prefers : Prefers preferences hierarchy preferred parent)
    (links : hierarchy.LinksTo other parent) : Prefers preferences hierarchy preferred other := by
  rcases TagSet.has_iff.mp links with ⟨member, inside, same⟩
  exact .overParent inside (prefers.congr rfl same)

theorem Prefers.through_linked (prefers : Prefers preferences hierarchy parent other)
    (links : hierarchy.LinksTo preferred parent) :
    Prefers preferences hierarchy preferred other := by
  rcases TagSet.has_iff.mp links with ⟨member, inside, same⟩
  exact .throughParent inside (prefers.congr same rfl)

theorem Prefers.over_within (prefers : Prefers preferences hierarchy preferred other)
    (within : hierarchy.Within lower other) : Prefers preferences hierarchy preferred lower := by
  rcases within with same | leads
  · exact prefers.congr rfl same.symm
  · induction leads using Relation.TransGen.head_induction_on with
    | single links => exact prefers.over_linked links
    | head links _ induction => exact induction.over_linked links

theorem Prefers.through_within (prefers : Prefers preferences hierarchy preferred other)
    (within : hierarchy.Within upper preferred) : Prefers preferences hierarchy upper other := by
  rcases within with same | leads
  · exact prefers.congr same.symm rfl
  · induction leads using Relation.TransGen.head_induction_on with
    | single links => exact prefers.through_linked links
    | head links _ induction => exact induction.through_linked links

/-- A tag is preferred over another one on account of a preference that is recorded for tags
that they are within. -/
theorem prefers_iff_recorded : Prefers preferences hierarchy upper lower ↔
    ∃ preferred other, Recorded preferences preferred other ∧
      hierarchy.Within upper preferred ∧ hierarchy.Within lower other := by
  have up : ∀ {tag parent : Tag α}, parent ∈ hierarchy.parentsOf tag →
      hierarchy.Within tag parent := fun member => .inr (.single (TagSet.has_of_mem member))
  constructor
  · intro prefers
    induction prefers with
    | direct known => exact ⟨_, _, known, .inl rfl, .inl rfl⟩
    | overParent member _ induction =>
        rcases induction with ⟨preferred, other, recorded, left, right⟩
        exact ⟨preferred, other, recorded, left, .trans (up member) right⟩
    | throughParent member _ induction =>
        rcases induction with ⟨preferred, other, recorded, left, right⟩
        exact ⟨preferred, other, recorded, .trans (up member) left, right⟩
  · rintro ⟨preferred, other, recorded, left, right⟩
    exact ((Prefers.direct recorded).over_within right).through_within left

/-! ## Taking a preference in -/

/-- No two tags are recorded each over the other. -/
def Undisputed (preferences : TagTable α (TagSet α)) : Prop :=
  ∀ left right, Recorded preferences left right → Recorded preferences right left →
    left.label = right.label

/-- What is recorded, and the first tag over the second. -/
def Extends (preferences extended : TagTable α (TagSet α)) (preferred other : Tag α) : Prop :=
  ∀ upper lower, Recorded extended upper lower ↔
    Recorded preferences upper lower ∨ upper.label = preferred.label ∧ lower.label = other.label

theorem extends_insert (preferences : TagTable α (TagSet α)) (preferred other : Tag α) :
    Extends preferences (preferences.insert preferred
      (TagSet.insert ((preferences.lookup preferred).getD []) other)) preferred other := by
  intro upper lower
  rw [Recorded, TagTable.lookup_insert]
  by_cases same : upper.label = preferred.label
  · rw [if_pos same, Option.getD_some, TagSet.has_insert, Recorded,
      TagTable.lookup_congr _ same]
    exact or_congr_right (and_iff_right same).symm
  · rw [if_neg same]
    exact (or_iff_left fun new => same new.1).symm

namespace Extends

variable {extended : TagTable α (TagSet α)}

theorem undisputed (adds : Extends preferences extended preferred other)
    (undisputed : Undisputed preferences) (free : ¬Recorded preferences other preferred) :
    Undisputed extended := by
  intro left right isOver back
  rcases (adds left right).mp isOver with old | ⟨leftLabel, rightLabel⟩
  · rcases (adds right left).mp back with oldBack | ⟨rightLabel, leftLabel⟩
    · exact undisputed left right old oldBack
    · exact absurd (old.congr leftLabel rightLabel) free
  · rcases (adds right left).mp back with oldBack | ⟨rightBack, -⟩
    · exact absurd (oldBack.congr rightLabel leftLabel) free
    · exact leftLabel.trans rightBack.symm

/-- Everything within the two tags inherits the new preference. -/
theorem prefers_iff (adds : Extends preferences extended preferred other) :
    Prefers extended hierarchy upper lower ↔ Prefers preferences hierarchy upper lower ∨
      hierarchy.Within upper preferred ∧ hierarchy.Within lower other := by
  simp only [prefers_iff_recorded, adds _ _]
  constructor
  · rintro ⟨top, bottom, old | ⟨topLabel, bottomLabel⟩, left, right⟩
    · exact .inl ⟨top, bottom, old, left, right⟩
    · exact .inr ⟨left.trans (.inl topLabel), right.trans (.inl bottomLabel)⟩
  · rintro (⟨top, bottom, old, left, right⟩ | ⟨left, right⟩)
    · exact ⟨top, bottom, .inl old, left, right⟩
    · exact ⟨preferred, other, .inr ⟨rfl, rfl⟩, left, right⟩

/-- What was not preferred the other way round is not so now. -/
theorem not_back (adds : Extends preferences extended preferred other)
    (acyclic : hierarchy.Acyclic) (different : preferred.label ≠ other.label)
    (free : ¬Prefers preferences hierarchy other preferred) :
    ¬Prefers extended hierarchy other preferred := by
  rw [adds.prefers_iff]
  rintro (old | ⟨down, up⟩)
  · exact free old
  · exact different (acyclic.label_eq up down)

end Extends

/-- A preference is turned down just if the other tag is preferred already. -/
theorem prefer_cases (tables : Tables α μ) (sound : hierarchy.Sound) (preferred other : Tag α) :
    Prefers tables.preferences hierarchy other preferred ∧
      tables.prefer hierarchy preferred other = some none ∨
    ¬Prefers tables.preferences hierarchy other preferred ∧
      ∃ after, tables.prefer hierarchy preferred other = some (some after) ∧
        after.methods = tables.methods ∧
        Extends tables.preferences after.preferences preferred other := by
  rcases climbing_decides tables sound other preferred with ⟨_ | _, ran, holds⟩
  · have taken : ∃ after, tables.prefer hierarchy preferred other = some (some after) := by
      rw [prefer, ran]
      exact ⟨_, rfl⟩
    rcases taken with ⟨after, taken⟩
    refine .inr ⟨fun prefers => Bool.false_ne_true (holds.mpr prefers), after, taken, ?_, ?_⟩
    all_goals rw [prefer_eq_some taken]
    · rfl
    · exact extends_insert tables.preferences preferred other
  · refine .inl ⟨holds.mp rfl, ?_⟩
    rw [prefer, ran]
    rfl

end LispRuntime.Dispatch.Tables
