import LispRuntime.Proofs.Hierarchy.Rebuilding

/-! Hierarchies over their whole life: whatever links are added and removed, in whatever
order and whether turned down or not, the links never have a cycle, both tables are just
what the links make of them, and no change gets stuck. -/

namespace LispRuntime.Hierarchy

variable {α : Type} {hierarchy after : Hierarchy α} {child parent : Tag α}

inductive Change (α : Type) where
  | derive (child parent : Tag α)
  | underive (child parent : Tag α)

/-- A link that is turned down leaves the hierarchy as it was. -/
def perform (hierarchy : Hierarchy α) : Change α → Option (Hierarchy α)
  | .derive child parent =>
      (hierarchy.derive child parent).map fun answer =>
        match answer with
        | .ok changed => changed
        | .error _ => hierarchy
  | .underive child parent => (hierarchy.underive child parent).map Prod.snd

/-- The changes one after the other, starting without any link. -/
def performAll (changes : List (Change α)) : Option (Hierarchy α) :=
  changes.foldlM perform empty

/-- The same tags are above each tag, directly or not, and the same ones below it. -/
structure SameSets (left right : Hierarchy α) : Prop where
  links : ∀ child parent, left.LinksTo child parent ↔ right.LinksTo child parent
  above : ∀ tag upper, TagSet.has (left.ancestorsOf tag) upper =
    TagSet.has (right.ancestorsOf tag) upper
  below : ∀ tag lower, TagSet.has (left.descendantsOf tag) lower =
    TagSet.has (right.descendantsOf tag) lower

/-- Sound hierarchies differ in their tables only if they differ in their links. -/
theorem Sound.sameSets {left right : Hierarchy α} (leftSound : left.Sound)
    (rightSound : right.Sound)
    (links : ∀ child parent, left.LinksTo child parent ↔ right.LinksTo child parent) :
    SameSets left right := by
  have same : left.LinksTo = right.LinksTo := by
    funext child parent
    exact propext (links child parent)
  refine ⟨links, fun tag upper => ?_, fun tag lower => ?_⟩
  · rw [Bool.eq_iff_iff, leftSound.above, rightSound.above, LeadsTo, same]
  · rw [Bool.eq_iff_iff, leftSound.below, rightSound.below, LeadsTo, same]

/-! ## One change -/

/-- The three ways a link can be taken. -/
theorem Sound.derive_cases (sound : hierarchy.Sound) (child parent : Tag α) :
    hierarchy.LinksTo child parent ∧ hierarchy.derive child parent = some (.ok hierarchy) ∨
    (¬hierarchy.LinksTo child parent ∧ ∃ refusal : Refusal,
      hierarchy.derive child parent = some (.error refusal) ∧
        refusal.Reason hierarchy child parent) ∨
    (hierarchy.Linkable child parent ∧ ∃ after,
      hierarchy.derive child parent = some (.ok after) ∧ after.Sound ∧
        after.parents = (hierarchy.addLink child parent).parents) := by
  by_cases links : hierarchy.LinksTo child parent
  · exact .inl ⟨links, sound.derive_linksTo links⟩
  by_cases against : ∃ refusal : Refusal, refusal.Reason hierarchy child parent
  · exact .inr (.inl ⟨links, sound.derive_refused links against⟩)
  · have linkable : hierarchy.Linkable child parent := ⟨links, not_exists.mp against⟩
    exact .inr (.inr ⟨linkable, sound.derive_linkable linkable⟩)

theorem Sound.perform (sound : hierarchy.Sound) (change : Change α) :
    ∃ after, hierarchy.perform change = some after ∧ after.Sound := by
  cases change with
  | derive child parent =>
      rcases sound.derive_cases child parent with
        ⟨-, answer⟩ | ⟨-, refusal, answer, -⟩ | ⟨-, after, answer, good, -⟩
      · exact ⟨hierarchy, by rw [Hierarchy.perform, answer]; rfl, sound⟩
      · exact ⟨hierarchy, by rw [Hierarchy.perform, answer]; rfl, sound⟩
      · exact ⟨after, by rw [Hierarchy.perform, answer]; rfl, good⟩
  | underive child parent =>
      by_cases links : hierarchy.LinksTo child parent
      · rcases sound.underive_linksTo links with ⟨after, answer, good, -⟩
        exact ⟨after, by rw [Hierarchy.perform, answer]; rfl, good⟩
      · exact ⟨hierarchy, by rw [Hierarchy.perform, underive_of_not links]; rfl, sound⟩

/-- A link that was just added can be removed again, and nothing is left of it. -/
theorem Sound.underive_derive (sound : hierarchy.Sound)
    (linkable : hierarchy.Linkable child parent)
    (derived : hierarchy.derive child parent = some (.ok after)) :
    ∃ restored, after.underive child parent = some (true, restored) ∧
      restored.parents = hierarchy.parents ∧ restored.SameSets hierarchy := by
  rcases sound.derive_linkable linkable with ⟨_, answer, afterSound, parents⟩
  cases derived.symm.trans answer
  have links : after.LinksTo child parent := by
    rw [linksTo_of_parents_eq parents]
    exact linksTo_addLink_iff.mpr (.inr ⟨rfl, rfl⟩)
  rcases afterSound.underive_linksTo links with ⟨restored, removed, restoredSound, remaining⟩
  have same : restored.parents = hierarchy.parents := by
    rw [remaining, removeLink, parentsOf, parents]
    exact parents_removeLink_addLink sound.toWellLinked linkable.new
  refine ⟨restored, removed, same, restoredSound.sameSets sound ?_⟩
  intro low high
  rw [linksTo_of_parents_eq same]

/-! ## A whole life -/

theorem Sound.foldlM_perform (sound : hierarchy.Sound) (changes : List (Change α)) :
    ∃ after, changes.foldlM Hierarchy.perform hierarchy = some after ∧ after.Sound := by
  induction changes generalizing hierarchy with
  | nil => exact ⟨hierarchy, rfl, sound⟩
  | cons change rest induction =>
      rcases sound.perform change with ⟨middle, performed, middleSound⟩
      rcases induction middleSound with ⟨after, ran, good⟩
      refine ⟨after, ?_, good⟩
      rw [List.foldlM_cons, performed]
      exact ran

theorem performAll_sound (changes : List (Change α)) :
    ∃ hierarchy, performAll changes = some hierarchy ∧ hierarchy.Sound :=
  sound_empty.foldlM_perform changes

theorem sound_of_performAll {changes : List (Change α)}
    (reached : performAll changes = some hierarchy) : hierarchy.Sound := by
  rcases performAll_sound changes with ⟨_, again, sound⟩
  cases reached.symm.trans again
  exact sound

/-- Whatever was changed before: no tag is above itself; a tag has above it what links lead
to, and below it what has it above; a link that is turned down changes nothing; both ways of
keeping the tables come to an end with any fuel beyond what is provided, mending leaves no
ancestors wrong, and building anew leaves no tag out. The tables depend on the links alone,
so that taking back a link that was just added restores the hierarchy. -/
theorem performAll_keeps_tables (changes : List (Change α)) :
    ∃ hierarchy, performAll changes = some hierarchy ∧ hierarchy.Acyclic ∧
      (∀ tag upper, TagSet.has (hierarchy.ancestorsOf tag) upper = true ↔
        hierarchy.LeadsTo tag upper) ∧
      (∀ tag lower, TagSet.has (hierarchy.descendantsOf tag) lower = true ↔
        TagSet.has (hierarchy.ancestorsOf lower) tag = true) ∧
      (∀ child parent refusal, hierarchy.derive child parent = some (.error refusal) →
        refusal.Reason hierarchy child parent ∧
          performAll (changes ++ [.derive child parent]) = some hierarchy) ∧
      (∀ child parent, hierarchy.Linkable child parent →
        let linked := hierarchy.addLink child parent
        ∃ mended,
          (∀ fuel, linked.size < fuel → refreshAncestors fuel linked child = some mended) ∧
          ∀ tag upper, TagSet.has (mended.ancestorsOf tag) upper = true ↔
            linked.LeadsTo tag upper) ∧
      (∀ child parent, hierarchy.LinksTo child parent →
        let remaining := hierarchy.removeLink child parent
        ∃ last,
          (∀ fuel, remaining.nodes.length < fuel →
            settleAll remaining.nodes fuel ([], ⟨remaining.parents, [], []⟩) = some last) ∧
          ∀ tag ∈ remaining.nodes, TagSet.has last.1 tag = true) ∧
      (∀ others other, performAll others = some other →
        (∀ child parent, other.LinksTo child parent ↔ hierarchy.LinksTo child parent) →
        other.SameSets hierarchy) ∧
      ∀ child parent after, ¬hierarchy.LinksTo child parent →
        hierarchy.derive child parent = some (.ok after) →
        ∃ restored, after.underive child parent = some (true, restored) ∧
          restored.parents = hierarchy.parents ∧ restored.SameSets hierarchy := by
  rcases performAll_sound changes with ⟨hierarchy, performed, sound⟩
  refine ⟨hierarchy, performed, sound.acyclic, sound.above, ?below, ?refused, ?mending,
    ?rebuilding, ?links, ?restoring⟩
  case below =>
    intro tag lower
    rw [sound.below, sound.above]
  case refused =>
    intro child parent refusal answer
    rcases sound.derive_cases child parent with
      ⟨-, other⟩ | ⟨-, given, other, reason⟩ | ⟨-, after, other, -⟩
    · cases answer.symm.trans other
    · cases answer.symm.trans other
      refine ⟨reason, ?_⟩
      rw [performAll, List.foldlM_append, ← performAll, performed]
      simp [Hierarchy.perform, answer]
    · cases answer.symm.trans other
  case mending =>
    intro child parent linkable
    rcases sound.refreshAncestors_addLink linkable with ⟨mended, ran, -, -, above⟩
    exact ⟨mended, ran, above⟩
  case rebuilding =>
    intro child parent _ remaining
    rcases (settling_start remaining).settleAll (sound.removeLink child parent).distinct
      (sound.acyclic.removeLink child parent) with ⟨last, ran, -, all⟩
    exact ⟨last, ran, fun tag member => all tag (TagSet.has_of_mem member)⟩
  case links =>
    intro others other otherPerformed links
    exact (sound_of_performAll otherPerformed).sameSets sound links
  case restoring =>
    intro child parent after new derived
    rcases sound.derive_cases child parent with
      ⟨links, -⟩ | ⟨-, refusal, answer, -⟩ | ⟨linkable, -⟩
    · exact absurd links new
    · cases derived.symm.trans answer
    · exact sound.underive_derive linkable derived

end LispRuntime.Hierarchy
