import LispRuntime.Proofs.Hierarchy.Links

/-! The table of ancestors after a new link. What the table has for a tag is consistent if it
is what the tag's parents make of it. Where that is so everywhere, the table has just what
lies above each tag. A new link disturbs the child alone, and mending the child disturbs its
children at most, so that mending them in turn, and so on down, leaves nothing behind; that
some tag is mended before another of its parents is does no harm, as it is mended again
after that. -/

namespace LispRuntime.Hierarchy

variable {α : Type} {hierarchy before middle after : Hierarchy α} {tag other upper : Tag α}

/-! ## What parents make of it -/

private theorem has_foldl_above {parents : List (Tag α)} {set : TagSet α} :
    TagSet.has (parents.foldl
        (fun set parent =>
          TagSet.insertAll (TagSet.insert set parent) (hierarchy.ancestorsOf parent)) set)
        upper = true ↔
      TagSet.has set upper = true ∨
        ∃ parent ∈ parents, upper.label = parent.label ∨
          TagSet.has (hierarchy.ancestorsOf parent) upper = true := by
  induction parents generalizing set with
  | nil => simp
  | cons parent rest induction =>
      rw [List.foldl_cons, induction, TagSet.has_insertAll, TagSet.has_insert]
      simp [or_assoc]

theorem has_aboveParents_iff :
    TagSet.has (hierarchy.aboveParents tag) upper = true ↔
      ∃ parent, hierarchy.LinksTo tag parent ∧ (upper.label = parent.label ∨
        TagSet.has (hierarchy.ancestorsOf parent) upper = true) := by
  rw [aboveParents, has_foldl_above]
  simp only [TagSet.has_nil, Bool.false_eq_true, false_or]
  constructor
  · rintro ⟨parent, member, above⟩
    exact ⟨parent, TagSet.has_of_mem member, above⟩
  · rintro ⟨parent, links, above⟩
    rcases TagSet.has_iff.mp links with ⟨member, inside, same⟩
    refine ⟨member, inside, ?_⟩
    rwa [← same, ← ancestorsOf_congr same]

/-- The table has for the tag what the tag's parents make of it. -/
def Consistent (hierarchy : Hierarchy α) (tag : Tag α) : Prop :=
  ∀ upper, TagSet.has (hierarchy.ancestorsOf tag) upper = true ↔
    TagSet.has (hierarchy.aboveParents tag) upper = true

/-- Two tables that agree on a tag and on its parents are both consistent there. -/
theorem Consistent.of_ancestorsOf_eq (consistent : before.Consistent tag)
    (parents : after.parents = before.parents)
    (here : after.ancestorsOf tag = before.ancestorsOf tag)
    (above : ∀ parent, before.LinksTo tag parent →
      after.ancestorsOf parent = before.ancestorsOf parent) : after.Consistent tag := by
  intro upper
  rw [here, consistent upper, has_aboveParents_iff, has_aboveParents_iff]
  refine exists_congr fun parent => ?_
  have links : after.LinksTo tag parent ↔ before.LinksTo tag parent := by
    rw [LinksTo, LinksTo, parentsOf, parentsOf, parents]
  rw [links]
  exact and_congr_right fun isParent => by rw [above parent isParent]

/-- A consistent table has just what lies above each tag. -/
theorem has_ancestorsOf_iff (distinct : TagTable.Distinct hierarchy.parents)
    (acyclic : hierarchy.Acyclic) (consistent : ∀ tag, hierarchy.Consistent tag) :
    TagSet.has (hierarchy.ancestorsOf tag) upper = true ↔ hierarchy.LeadsTo tag upper := by
  rcases exists_height distinct acyclic with ⟨height, bounded⟩
  -- The parents of a tag are less high than the tag itself.
  induction steps : height tag using Nat.strongRecOn generalizing tag with
  | ind steps induction =>
      have parent : ∀ parent, hierarchy.LinksTo tag parent →
          (TagSet.has (hierarchy.ancestorsOf parent) upper = true ↔
            hierarchy.LeadsTo parent upper) := fun parent links =>
        induction _ (steps ▸ (bounded tag).2 parent links) rfl
      rw [consistent tag upper, has_aboveParents_iff]
      constructor
      · rintro ⟨next, links, same | above⟩
        · exact .single (links.congr_right same.symm)
        · exact .head links ((parent next links).mp above)
      · intro leads
        rcases Relation.TransGen.head'_iff.mp leads with ⟨next, links, rest⟩
        refine ⟨next, links, ?_⟩
        rcases Relation.reflTransGen_iff_eq_or_transGen.mp rest with rfl | above
        · exact .inl rfl
        · exact .inr ((parent next links).mpr above)

/-! ## One tag -/

theorem ancestorsOf_setAncestors (hierarchy : Hierarchy α) (tag other : Tag α)
    (set : TagSet α) :
    (hierarchy.setAncestors tag set).ancestorsOf other =
      if other.label = tag.label then set else hierarchy.ancestorsOf other := by
  unfold ancestorsOf setAncestors
  cases set with
  | nil =>
      rw [List.isEmpty_nil, if_pos rfl, TagTable.lookup_erase]
      split <;> rfl
  | cons first rest =>
      rw [List.isEmpty_cons, if_neg Bool.false_ne_true, TagTable.lookup_insert]
      split <;> rfl

/-- One tag alone is mended. -/
abbrev mendOne (hierarchy : Hierarchy α) (tag : Tag α) : Hierarchy α :=
  hierarchy.setAncestors tag (hierarchy.aboveParents tag)

theorem ancestorsOf_mendOne_of_ne (different : other.label ≠ tag.label) :
    (hierarchy.mendOne tag).ancestorsOf other = hierarchy.ancestorsOf other := by
  rw [ancestorsOf_setAncestors, if_neg different]

theorem consistent_mendOne_self (acyclic : hierarchy.Acyclic)
    (same : other.label = tag.label) : (hierarchy.mendOne tag).Consistent other := by
  intro upper
  rw [ancestorsOf_setAncestors, if_pos same, has_aboveParents_iff, has_aboveParents_iff]
  refine exists_congr fun parent => ?_
  have links : (hierarchy.mendOne tag).LinksTo other parent ↔ hierarchy.LinksTo tag parent := by
    change hierarchy.LinksTo other parent ↔ _
    exact ⟨.congr_left same, .congr_left same.symm⟩
  rw [links]
  refine and_congr_right fun isParent => ?_
  rw [ancestorsOf_mendOne_of_ne (acyclic.label_ne (.single isParent)).symm]

/-- Mending a tag disturbs no tag but its children. -/
theorem consistent_mendOne_of_ne (consistent : hierarchy.Consistent other)
    (different : other.label ≠ tag.label) (notChild : ¬hierarchy.LinksTo other tag) :
    (hierarchy.mendOne tag).Consistent other := by
  refine consistent.of_ancestorsOf_eq rfl (ancestorsOf_mendOne_of_ne different) ?_
  intro parent links
  exact ancestorsOf_mendOne_of_ne fun same => notChild (links.congr_right same)

/-! ## Down from a tag -/

/-- Some tags have been mended and everything below them. -/
structure Mended (before : Hierarchy α) (tops : List (Tag α)) (after : Hierarchy α) :
    Prop where
  parents : after.parents = before.parents
  descendants : after.descendants = before.descendants
  elsewhere : ∀ tag, (∀ top ∈ tops, ¬before.Within tag top) →
    after.ancestorsOf tag = before.ancestorsOf tag
  consistent : ∀ tag, before.Consistent tag ∨ (∃ top ∈ tops, tag.label = top.label) →
    after.Consistent tag

theorem linksTo_of_parents_eq (parents : after.parents = before.parents) :
    after.LinksTo = before.LinksTo := by
  funext child parent
  rw [LinksTo, LinksTo, parentsOf, parentsOf, parents]

theorem leadsTo_of_parents_eq (parents : after.parents = before.parents) :
    after.LeadsTo = before.LeadsTo := by
  rw [LeadsTo, LeadsTo, linksTo_of_parents_eq parents]

theorem within_of_parents_eq (parents : after.parents = before.parents) :
    after.Within = before.Within := by
  funext child parent
  rw [Within, Within, leadsTo_of_parents_eq parents]

theorem acyclic_of_parents_eq (parents : after.parents = before.parents)
    (acyclic : before.Acyclic) : after.Acyclic := by
  rwa [Acyclic, leadsTo_of_parents_eq parents]

theorem Mended.nil (hierarchy : Hierarchy α) : Mended hierarchy [] hierarchy :=
  ⟨rfl, rfl, fun _ _ => rfl, by simp⟩

theorem Mended.cons {tops : List (Tag α)} (first : Mended before [tag] middle)
    (rest : Mended middle tops after) : Mended before (tag :: tops) after where
  parents := rest.parents.trans first.parents
  descendants := rest.descendants.trans first.descendants
  elsewhere other outside := by
    rw [rest.elsewhere, first.elsewhere]
    · simpa using outside tag (List.mem_cons_self ..)
    · rw [within_of_parents_eq first.parents]
      exact fun top member => outside top (List.mem_cons_of_mem _ member)
  consistent other good := by
    apply rest.consistent
    rcases good with consistent | ⟨top, member, same⟩
    · exact .inl (first.consistent other (.inl consistent))
    · rcases List.mem_cons.mp member with rfl | inside
      · exact .inl (first.consistent other (.inr ⟨top, List.mem_singleton_self _, same⟩))
      · exact .inr ⟨top, inside, same⟩

/-- One tag after the other, if each of them can be mended. -/
theorem foldlM_mended {refresh : Hierarchy α → Tag α → Option (Hierarchy α)}
    {tops : List (Tag α)}
    (mends : ∀ state, state.parents = before.parents → ∀ top ∈ tops,
      ∃ mended, refresh state top = some mended ∧ Mended state [top] mended) :
    ∃ after, tops.foldlM refresh before = some after ∧ Mended before tops after := by
  induction tops generalizing before with
  | nil => exact ⟨before, rfl, .nil before⟩
  | cons top rest induction =>
      rcases mends before rfl top (List.mem_cons_self ..) with ⟨middle, ran, first⟩
      have others : ∀ state, state.parents = middle.parents → ∀ top ∈ rest,
          ∃ mended, refresh state top = some mended ∧ Mended state [top] mended :=
        fun state parents other member =>
          mends state (parents.trans first.parents) other (List.mem_cons_of_mem _ member)
      rcases induction others with ⟨after, ranRest, mended⟩
      refine ⟨after, ?_, first.cons mended⟩
      rw [List.foldlM_cons, ran]
      exact ranRest

/-- Mending goes down as far as there are links, and leaves nothing behind. -/
theorem refreshAncestors_mended {depth : Tag α → Nat} {fuel : Nat}
    (distinct : TagTable.Distinct before.parents) (acyclic : before.Acyclic)
    (down : ∀ tag child, before.LinksTo child tag → depth child < depth tag)
    (enough : depth tag < fuel) :
    ∃ after, refreshAncestors fuel before tag = some after ∧ Mended before [tag] after := by
  induction fuel generalizing before tag with
  | zero => cases enough
  | succ fuel induction =>
      let mended := before.mendOne tag
      have children : ∀ child ∈ mended.childrenOf tag, before.LinksTo child tag :=
        fun child member => linksTo_of_mem_childrenOf distinct member
      have mends : ∀ state, state.parents = mended.parents → ∀ child ∈ mended.childrenOf tag,
          ∃ after, refreshAncestors fuel state child = some after ∧
            Mended state [child] after := by
        intro state parents child member
        have same : state.parents = before.parents := parents
        have lower := down tag child (children child member)
        apply induction (same ▸ distinct) (acyclic_of_parents_eq same acyclic)
        · rw [linksTo_of_parents_eq same]
          exact down
        · omega
      rcases foldlM_mended mends with ⟨after, ran, below⟩
      refine ⟨after, ran, below.parents, below.descendants, ?_, ?_⟩
      · intro other outside
        have notWithin : ¬before.Within other tag := outside tag (List.mem_singleton_self _)
        rw [below.elsewhere other, ancestorsOf_mendOne_of_ne (notWithin ∘ .inl)]
        intro child member within
        have belowChild : before.Within other child := within
        exact notWithin (.inr (belowChild.tail (children child member)))
      · intro other good
        apply below.consistent
        by_cases same : other.label = tag.label
        · exact .inl (consistent_mendOne_self acyclic same)
        · have consistent : before.Consistent other := good.resolve_right (by simpa using same)
          by_cases links : before.LinksTo other tag
          · rcases exists_mem_childrenOf distinct links with ⟨child, member, label⟩
            exact .inr ⟨child, member, label⟩
          · exact .inl (consistent_mendOne_of_ne consistent same links)

/-! ## More fuel -/

private theorem foldlM_eq_some_of_imp {β γ : Type} {first second : β → γ → Option β}
    (imp : ∀ state element result, first state element = some result →
      second state element = some result)
    {elements : List γ} {state result : β} (ran : elements.foldlM first state = some result) :
    elements.foldlM second state = some result := by
  induction elements generalizing state with
  | nil => exact ran
  | cons element rest induction =>
      rw [List.foldlM_cons] at ran ⊢
      rcases Option.bind_eq_some_iff.mp ran with ⟨next, stepped, rest⟩
      exact Option.bind_eq_some_iff.mpr ⟨next, imp _ _ _ stepped, induction rest⟩

/-- What was mended with some fuel is mended in the same way with more. -/
theorem refreshAncestors_mono {fuel more : Nat} (le : fuel ≤ more)
    (ran : refreshAncestors fuel before tag = some after) :
    refreshAncestors more before tag = some after := by
  have oneMore : ∀ {fuel : Nat} {state result : Hierarchy α} {top : Tag α},
      refreshAncestors fuel state top = some result →
        refreshAncestors (fuel + 1) state top = some result := by
    intro fuel
    induction fuel with
    | zero => exact nofun
    | succ fuel induction =>
        intro state result top ran
        exact foldlM_eq_some_of_imp (fun _ _ _ => induction) ran
  induction le with
  | refl => exact ran
  | step _ induction => exact oneMore induction

end LispRuntime.Hierarchy
