import LispRuntime.Proofs.Hierarchy.Ancestors

/-! What `derive` does to a sound hierarchy: one whose links have no cycle, and whose two
tables say of any two tags whether links lead from one to the other. A link is turned down
if it would make a cycle or repeat what is known already; any other one leaves the hierarchy
sound. The tables of ancestors and of descendants are mended apart from each other, so each
of them is compared with the links and not with the other one. -/

namespace LispRuntime.Hierarchy

variable {α : Type} {hierarchy mended : Hierarchy α} {child parent tag upper lower : Tag α}

/-- The links are in order and the tables are what the links make of them. -/
structure Sound (hierarchy : Hierarchy α) : Prop extends WellLinked hierarchy where
  acyclic : hierarchy.Acyclic
  above : ∀ tag upper, TagSet.has (hierarchy.ancestorsOf tag) upper = true ↔
    hierarchy.LeadsTo tag upper
  below : ∀ tag lower, TagSet.has (hierarchy.descendantsOf tag) lower = true ↔
    hierarchy.LeadsTo lower tag

theorem leadsTo_iff_exists_linksTo :
    hierarchy.LeadsTo tag upper ↔ ∃ parent, hierarchy.LinksTo tag parent ∧
      (upper.label = parent.label ∨ hierarchy.LeadsTo parent upper) := by
  constructor
  · intro leads
    rcases Relation.TransGen.head'_iff.mp leads with ⟨next, links, rest⟩
    refine ⟨next, links, ?_⟩
    rcases Relation.reflTransGen_iff_eq_or_transGen.mp rest with rfl | above
    · exact .inl rfl
    · exact .inr above
  · rintro ⟨next, links, same | above⟩
    · exact .single (links.congr_right same.symm)
    · exact .head links above

theorem Sound.consistent (sound : hierarchy.Sound) (tag : Tag α) : hierarchy.Consistent tag := by
  intro upper
  rw [sound.above, has_aboveParents_iff, leadsTo_iff_exists_linksTo]
  simp only [sound.above]

theorem sound_empty : (empty : Hierarchy α).Sound := by
  have none : ∀ tag upper : Tag α, ¬empty.LeadsTo tag upper := by
    intro tag upper leads
    rcases Relation.TransGen.head'_iff.mp leads with ⟨next, links, -⟩
    cases links
  exact
    { wellLinked_empty with
      acyclic := fun tag => none tag tag
      above := fun tag upper => iff_of_false nofun (none tag upper)
      below := fun tag lower => iff_of_false nofun (none lower tag) }

/-! ## The table of descendants -/

theorem has_descendantsOf_addDescendants {ancestor : Tag α} {tags : List (Tag α)} :
    TagSet.has ((hierarchy.addDescendants ancestor tags).descendantsOf tag) lower = true ↔
      TagSet.has (hierarchy.descendantsOf tag) lower = true ∨
        tag.label = ancestor.label ∧ TagSet.has tags lower = true := by
  have found : (hierarchy.addDescendants ancestor tags).descendantsOf tag =
      if tag.label = ancestor.label then
        TagSet.insertAll (hierarchy.descendantsOf ancestor) tags
      else hierarchy.descendantsOf tag := by
    simp only [descendantsOf, addDescendants, TagTable.lookup_insert]
    split <;> rfl
  rw [found]
  split
  case isTrue same =>
    rw [TagSet.has_insertAll, descendantsOf, descendantsOf, TagTable.lookup_congr _ same]
    simp [same]
  case isFalse different => simp [different]

/-- The same tags are put under one ancestor after the other. -/
theorem foldl_addDescendants (tags ancestors : List (Tag α)) (hierarchy : Hierarchy α) :
    let spread := ancestors.foldl (fun h ancestor => h.addDescendants ancestor tags) hierarchy
    spread.parents = hierarchy.parents ∧ spread.ancestors = hierarchy.ancestors ∧
      ∀ tag lower, TagSet.has (spread.descendantsOf tag) lower = true ↔
        TagSet.has (hierarchy.descendantsOf tag) lower = true ∨
          TagSet.has ancestors tag = true ∧ TagSet.has tags lower = true := by
  induction ancestors generalizing hierarchy with
  | nil => simp
  | cons ancestor rest induction =>
      rcases induction (hierarchy.addDescendants ancestor tags) with ⟨parents, ancestors, has⟩
      refine ⟨parents, ancestors, fun tag lower => ?_⟩
      rw [List.foldl_cons, has, has_descendantsOf_addDescendants, TagSet.has_cons, or_and_right,
        or_assoc]

/-! ## A new link -/

/-- With the new link in place everything but the child is as its parents make it. -/
theorem Sound.consistent_addLink (sound : hierarchy.Sound) (different : tag.label ≠ child.label) :
    (hierarchy.addLink child parent).Consistent tag := by
  intro upper
  rw [has_aboveParents_iff]
  refine (sound.consistent tag upper).trans ?_
  rw [has_aboveParents_iff]
  simp only [linksTo_addLink_iff, different, false_and, or_false]
  rfl

/-- The descendants are right as well once the ancestors of the child are. -/
theorem Sound.refreshDescendants (sound : hierarchy.Sound)
    (parents : mended.parents = (hierarchy.addLink child parent).parents)
    (descendants : mended.descendants = hierarchy.descendants)
    (above : ∀ tag upper, TagSet.has (mended.ancestorsOf tag) upper = true ↔
      (hierarchy.addLink child parent).LeadsTo tag upper)
    (apart : ¬hierarchy.Within parent child) :
    (mended.refreshDescendants child).Sound ∧
      (mended.refreshDescendants child).parents = (hierarchy.addLink child parent).parents := by
  rcases foldl_addDescendants (TagSet.insert (mended.descendantsOf child) child)
    (mended.ancestorsOf child) mended with ⟨sameParents, sameAncestors, has⟩
  have links : (mended.refreshDescendants child).parents =
      (hierarchy.addLink child parent).parents := sameParents.trans parents
  have leads := leadsTo_of_parents_eq links
  refine ⟨⟨⟨?_, ?_⟩, ?_, ?_, ?_⟩, links⟩
  · rw [links]
    exact (sound.addLink child parent).distinct
  · rw [links]
    exact (sound.addLink child parent).nonempty
  · exact acyclic_of_parents_eq links (sound.acyclic.addLink apart)
  · intro tag upper
    rw [leads, ← above tag upper, ancestorsOf, ancestorsOf, Hierarchy.refreshDescendants,
      sameAncestors]
  · intro tag lower
    have old : ∀ tag, mended.descendantsOf tag = hierarchy.descendantsOf tag := fun tag => by
      rw [descendantsOf, descendantsOf, descendants]
    rw [leads, Hierarchy.refreshDescendants, has, above, TagSet.has_insert, old, old,
      sound.below, sound.below, leadsTo_addLink_iff, leadsTo_addLink_iff]
    constructor
    · rintro (under | ⟨reaches, within⟩)
      · exact .inl under
      · have within : hierarchy.Within lower child := within.symm
        rcases reaches with known | ⟨-, up⟩
        · exact .inl (within.leadsTo known)
        · exact .inr ⟨within, up⟩
    · rintro (under | ⟨within, up⟩)
      · exact .inl under
      · exact .inr ⟨.inr ⟨.inl rfl, up⟩, within.symm⟩

/-- What is against a link when it is turned down. -/
def Refusal.Reason (hierarchy : Hierarchy α) (child parent : Tag α) : Refusal → Prop
  | .ownParent => child.label = parent.label
  | .alreadyAncestor => hierarchy.LeadsTo child parent
  | .cyclic => hierarchy.LeadsTo parent child

/-- There is nothing against the link, and it is not there yet. -/
structure Linkable (hierarchy : Hierarchy α) (child parent : Tag α) : Prop where
  new : ¬hierarchy.LinksTo child parent
  allowed : ∀ refusal : Refusal, ¬refusal.Reason hierarchy child parent

theorem Linkable.apart (linkable : hierarchy.Linkable child parent) :
    ¬hierarchy.Within parent child := by
  rintro (same | below)
  · exact linkable.allowed .ownParent same.symm
  · exact linkable.allowed .cyclic below

/-- From the child downwards there is an end to mending, and it leaves the ancestors of
every tag right. -/
theorem Sound.refreshAncestors_addLink (sound : hierarchy.Sound)
    (linkable : hierarchy.Linkable child parent) :
    let linked := hierarchy.addLink child parent
    ∃ mended, (∀ fuel, linked.size < fuel → refreshAncestors fuel linked child = some mended) ∧
      mended.parents = linked.parents ∧ mended.descendants = linked.descendants ∧
      ∀ tag upper, TagSet.has (mended.ancestorsOf tag) upper = true ↔
        linked.LeadsTo tag upper := by
  intro linked
  have distinct : TagTable.Distinct linked.parents := (sound.addLink child parent).distinct
  have acyclic : linked.Acyclic := sound.acyclic.addLink linkable.apart
  rcases exists_depth distinct acyclic with ⟨depth, bounded⟩
  have enough : depth child < linked.size + 1 := Nat.lt_succ_of_le (bounded child).1
  rcases refreshAncestors_mended distinct acyclic (fun tag => (bounded tag).2) enough with
    ⟨mended, ran, good⟩
  have consistent : ∀ tag, mended.Consistent tag := fun tag => by
    apply good.consistent
    by_cases same : tag.label = child.label
    · exact .inr ⟨child, List.mem_singleton_self _, same⟩
    · exact .inl (sound.consistent_addLink same)
  refine ⟨mended, fun fuel enough => refreshAncestors_mono enough ran, good.parents,
    good.descendants, fun tag upper => ?_⟩
  rw [has_ancestorsOf_iff (good.parents ▸ distinct)
    (acyclic_of_parents_eq good.parents acyclic) consistent, leadsTo_of_parents_eq good.parents]

/-- A link that there is nothing against leaves the hierarchy sound. -/
theorem Sound.derive_linkable (sound : hierarchy.Sound)
    (linkable : hierarchy.Linkable child parent) :
    ∃ after, hierarchy.derive child parent = some (.ok after) ∧ after.Sound ∧
      after.parents = (hierarchy.addLink child parent).parents := by
  rcases sound.refreshAncestors_addLink linkable with ⟨mended, ran, parents, descendants, above⟩
  refine ⟨mended.refreshDescendants child, ?_,
    sound.refreshDescendants parents descendants above linkable.apart⟩
  have new : ¬TagSet.has (hierarchy.parentsOf child) parent = true := linkable.new
  rw [derive, if_neg (linkable.allowed .ownParent ∘ Tag.sameAs_iff.mp), if_neg new,
    if_neg (linkable.allowed .alreadyAncestor ∘ (sound.above child parent).mp),
    if_neg (linkable.allowed .cyclic ∘ (sound.above parent child).mp)]
  simp [ran _ (Nat.lt_succ_self _)]

/-- A link that is there already stays. -/
theorem Sound.derive_linksTo (sound : hierarchy.Sound) (links : hierarchy.LinksTo child parent) :
    hierarchy.derive child parent = some (.ok hierarchy) := by
  have different := sound.acyclic.label_ne (.single links)
  have present : TagSet.has (hierarchy.parentsOf child) parent = true := links
  rw [derive, if_neg (different ∘ Tag.sameAs_iff.mp), if_pos present]

/-- Any other link is turned down, for a reason that holds. -/
theorem Sound.derive_refused (sound : hierarchy.Sound) (new : ¬hierarchy.LinksTo child parent)
    (against : ∃ refusal : Refusal, refusal.Reason hierarchy child parent) :
    ∃ refusal : Refusal, hierarchy.derive child parent = some (.error refusal) ∧
      refusal.Reason hierarchy child parent := by
  have absent : ¬TagSet.has (hierarchy.parentsOf child) parent = true := new
  by_cases same : child.label = parent.label
  · exact ⟨.ownParent, if_pos (Tag.sameAs_iff.mpr same), same⟩
  rw [derive, if_neg (same ∘ Tag.sameAs_iff.mp), if_neg absent]
  by_cases above : hierarchy.LeadsTo child parent
  · rw [if_pos ((sound.above child parent).mpr above)]
    exact ⟨.alreadyAncestor, rfl, above⟩
  · have below : hierarchy.LeadsTo parent child := by
      rcases against with ⟨_ | _ | _, reason⟩
      · exact absurd reason same
      · exact absurd reason above
      · exact reason
    rw [if_neg (above ∘ (sound.above child parent).mp),
      if_pos ((sound.above parent child).mpr below)]
    exact ⟨.cyclic, rfl, below⟩

end LispRuntime.Hierarchy
