import LispRuntime.Proofs.Hierarchy.NewLink
import Mathlib.Data.List.Perm.Subperm

/-! Building both tables from the links alone. A tag is settled once all of its parents are,
and what the table has for a settled tag is just what lies above it. A pass over all tags
settles at least one more, since of the tags that are not settled one has no parent among
them; so there are no more passes than tags, and the last one leaves none unsettled. -/

namespace LispRuntime.Hierarchy

variable {α : Type} {base : Hierarchy α} {state : TagSet α × Hierarchy α}
  {child parent tag other upper : Tag α}

/-! ## The tags that links mention -/

theorem has_nodes_iff : TagSet.has base.nodes tag = true ↔
    ∃ entry ∈ base.parents, tag.label = entry.1.label ∨ TagSet.has entry.2 tag = true := by
  rw [nodes, TagSet.has_insertAll, TagSet.has_insertAll, TagTable.keys]
  simp only [TagSet.has_nil, Bool.false_eq_true, false_or, TagSet.has_iff, List.mem_map,
    List.mem_flatMap]
  constructor
  · rintro (⟨_, ⟨entry, member, rfl⟩, same⟩ | ⟨parent, ⟨entry, member, inside⟩, same⟩)
    · exact ⟨entry, member, .inl same⟩
    · exact ⟨entry, member, .inr ⟨parent, inside, same⟩⟩
  · rintro ⟨entry, member, same | ⟨parent, inside, same⟩⟩
    · exact .inl ⟨_, ⟨entry, member, rfl⟩, same⟩
    · exact .inr ⟨parent, ⟨entry, member, inside⟩, same⟩

theorem LinksTo.has_nodes (distinct : TagTable.Distinct base.parents)
    (links : base.LinksTo child parent) :
    TagSet.has base.nodes child = true ∧ TagSet.has base.nodes parent = true := by
  rcases (linksTo_iff_mem distinct).mp links with ⟨entry, member, same, has⟩
  exact ⟨has_nodes_iff.mpr ⟨entry, member, .inl same⟩,
    has_nodes_iff.mpr ⟨entry, member, .inr has⟩⟩

/-! ## Settled tags -/

/-- The settled tags are closed upwards, and the table is right for them; it has nothing
for any other tag. -/
structure Settling (base : Hierarchy α) (state : TagSet α × Hierarchy α) : Prop where
  parents : state.2.parents = base.parents
  descendants : state.2.descendants = []
  distinct : TagSet.Distinct state.1
  once : TagTable.Distinct state.2.ancestors
  known : TagSet.isSubsetOf state.1 base.nodes = true
  closed : ∀ tag parent, TagSet.has state.1 tag = true → base.LinksTo tag parent →
    TagSet.has state.1 parent = true
  above : ∀ tag, TagSet.has state.1 tag = true → ∀ upper,
    TagSet.has (state.2.ancestorsOf tag) upper = true ↔ base.LeadsTo tag upper
  rest : ∀ tag, TagSet.has state.1 tag = false → state.2.ancestorsOf tag = []

theorem settling_start (base : Hierarchy α) : Settling base ([], ⟨base.parents, [], []⟩) where
  parents := rfl
  descendants := rfl
  distinct := List.nodup_nil
  once := List.nodup_nil
  known := rfl
  closed := nofun
  above := nofun
  rest _ _ := rfl

/-- Every parent of the tag is settled. -/
def Ready (base : Hierarchy α) (settled : TagSet α) (tag : Tag α) : Prop :=
  ∀ parent, base.LinksTo tag parent → TagSet.has settled parent = true

theorem Settling.ready_iff (settling : Settling base state) :
    TagSet.isSubsetOf (state.2.parentsOf tag) state.1 = true ↔ Ready base state.1 tag := by
  rw [TagSet.isSubsetOf_iff, parentsOf, settling.parents]
  rfl

/-- What the parents of a tag make of it is put into the table, unless it is nothing. -/
def recordAbove (hierarchy : Hierarchy α) (tag : Tag α) : Hierarchy α :=
  if (hierarchy.aboveParents tag).isEmpty then hierarchy
  else hierarchy.setAncestors tag (hierarchy.aboveParents tag)

@[simp] theorem parents_recordAbove (hierarchy : Hierarchy α) (tag : Tag α) :
    (hierarchy.recordAbove tag).parents = hierarchy.parents := by
  unfold recordAbove
  split <;> rfl

@[simp] theorem descendants_recordAbove (hierarchy : Hierarchy α) (tag : Tag α) :
    (hierarchy.recordAbove tag).descendants = hierarchy.descendants := by
  unfold recordAbove
  split <;> rfl

theorem distinct_recordAbove (once : TagTable.Distinct base.ancestors) (tag : Tag α) :
    TagTable.Distinct (base.recordAbove tag).ancestors := by
  unfold recordAbove
  split
  case isTrue => exact once
  case isFalse some =>
    rw [setAncestors, if_neg some]
    exact once.insert tag _

theorem ancestorsOf_recordAbove (nothing : base.ancestorsOf tag = []) (other : Tag α) :
    (base.recordAbove tag).ancestorsOf other =
      if other.label = tag.label then base.aboveParents tag else base.ancestorsOf other := by
  unfold recordAbove
  split
  case isFalse => exact ancestorsOf_setAncestors ..
  case isTrue empty =>
    rw [List.isEmpty_iff.mp empty]
    split
    case isTrue same => rw [ancestorsOf_congr same, nothing]
    case isFalse => rfl

/-- A tag whose parents are all settled becomes settled itself. -/
theorem Settling.settle_of_ready (settling : Settling base state)
    (unsettled : ¬TagSet.has state.1 tag = true) (ready : Ready base state.1 tag) :
    settle state tag = (TagSet.insert state.1 tag, state.2.recordAbove tag) := by
  rw [settle, if_neg unsettled, if_pos (settling.ready_iff.mpr ready)]
  rfl

theorem Settling.settle_of_not (settling : Settling base state)
    (skipped : TagSet.has state.1 tag = true ∨ ¬Ready base state.1 tag) :
    settle state tag = state := by
  rw [settle]
  split
  case isTrue => rfl
  case isFalse unsettled =>
    rw [if_neg (skipped.resolve_left unsettled ∘ settling.ready_iff.mp)]

theorem Settling.settle (settling : Settling base state)
    (isNode : TagSet.has base.nodes tag = true) : Settling base (settle state tag) := by
  by_cases unsettled : TagSet.has state.1 tag = true
  · rwa [settling.settle_of_not (.inl unsettled)]
  by_cases ready : Ready base state.1 tag
  case neg => rwa [settling.settle_of_not (.inr ready)]
  rw [settling.settle_of_ready unsettled ready]
  have nothing := settling.rest tag (Bool.not_eq_true _ ▸ unsettled)
  refine ⟨?_, ?_, settling.distinct.insert tag, distinct_recordAbove settling.once tag,
    ?_, ?_, ?_, ?_⟩
  · exact (parents_recordAbove ..).trans settling.parents
  · exact (descendants_recordAbove ..).trans settling.descendants
  · rw [TagSet.isSubsetOf_iff]
    intro other settled
    rcases TagSet.has_insert.mp settled with old | same
    · exact TagSet.isSubsetOf_iff.mp settling.known other old
    · rwa [TagSet.has_congr same]
  · intro other parent settled links
    apply TagSet.has_insert.mpr
    rcases TagSet.has_insert.mp settled with old | same
    · exact .inl (settling.closed other parent old links)
    · exact .inl (ready parent (links.congr_left same))
  · intro other settled upper
    rw [ancestorsOf_recordAbove nothing]
    split
    case isFalse different =>
      exact settling.above other ((TagSet.has_insert.mp settled).resolve_right different) upper
    case isTrue same =>
      rw [has_aboveParents_iff, linksTo_of_parents_eq settling.parents,
        leadsTo_iff_exists_linksTo]
      have links : base.LinksTo tag = base.LinksTo other := by
        funext parent
        rw [LinksTo, LinksTo, parentsOf_congr same]
      rw [links]
      refine exists_congr fun parent => and_congr_right fun isParent => ?_
      rw [settling.above parent (ready parent (links ▸ isParent))]
  · intro other unsettledStill
    have notYet : ¬(TagSet.has state.1 other = true ∨ other.label = tag.label) :=
      TagSet.has_insert.not.mp (Bool.not_eq_true _ ▸ unsettledStill)
    rw [ancestorsOf_recordAbove nothing, if_neg (notYet ∘ .inr)]
    exact settling.rest other (Bool.not_eq_true _ ▸ notYet ∘ .inl)

/-! ## One pass -/

/-- A pass settles something, or else there was nothing that it could have settled. -/
theorem Settling.pass (settling : Settling base state) (tags : List (Tag α))
    (nodes : ∀ tag ∈ tags, TagSet.has base.nodes tag = true) :
    Settling base (tags.foldl Hierarchy.settle state) ∧
      (state.1.length < (tags.foldl Hierarchy.settle state).1.length ∨
        tags.foldl Hierarchy.settle state = state ∧
          ∀ tag ∈ tags, TagSet.has state.1 tag = true ∨ ¬Ready base state.1 tag) := by
  induction tags generalizing state with
  | nil => exact ⟨settling, .inr ⟨rfl, nofun⟩⟩
  | cons tag rest induction =>
      rcases induction (settling.settle (nodes tag (List.mem_cons_self ..)))
        (fun other member => nodes other (List.mem_cons_of_mem _ member)) with ⟨after, progress⟩
      refine ⟨after, ?_⟩
      rw [List.foldl_cons]
      by_cases skipped : TagSet.has state.1 tag = true ∨ ¬Ready base state.1 tag
      · rw [settling.settle_of_not skipped] at progress ⊢
        refine progress.imp_right fun ⟨same, stuck⟩ => ⟨same, fun other member => ?_⟩
        rcases List.mem_cons.mp member with rfl | inside
        · exact skipped
        · exact stuck other inside
      · rw [not_or, not_not] at skipped
        have grown : (Hierarchy.settle state tag).1.length = state.1.length + 1 := by
          rw [settling.settle_of_ready skipped.1 skipped.2, TagSet.insert, if_neg skipped.1]
          exact List.length_append
        rcases progress with further | ⟨same, -⟩
        · exact .inl (by omega)
        · exact .inl (by rw [same]; omega)

/-- Some tag that is not settled has only settled parents. -/
theorem all_settled {settled : TagSet α} (distinct : TagTable.Distinct base.parents)
    (acyclic : base.Acyclic)
    (stuck : ∀ tag ∈ base.nodes, TagSet.has settled tag = true ∨ ¬Ready base settled tag) :
    ∀ tag, TagSet.has base.nodes tag = true → TagSet.has settled tag = true := by
  rcases exists_height distinct acyclic with ⟨height, bounded⟩
  intro tag isNode
  induction steps : height tag using Nat.strongRecOn generalizing tag with
  | ind steps induction =>
      have ready : Ready base settled tag := fun parent links =>
        induction _ (steps ▸ (bounded tag).2 parent links) parent (links.has_nodes distinct).2 rfl
      rcases TagSet.has_iff.mp isNode with ⟨node, member, same⟩
      rw [TagSet.has_congr same]
      refine (stuck node member).resolve_right fun unready => unready ?_
      exact fun parent links => ready parent (links.congr_left same.symm)

/-! ## All passes -/

theorem Settling.length_le (settling : Settling base state) :
    state.1.length ≤ base.nodes.length := by
  have subset : state.1.map Tag.label ⊆ base.nodes.map Tag.label := by
    intro label member
    rcases List.mem_map.mp member with ⟨tag, inside, rfl⟩
    rw [← TagSet.has_iff_label_mem]
    exact TagSet.isSubsetOf_iff.mp settling.known tag (TagSet.has_of_mem inside)
  simpa using (settling.distinct.subperm subset).length_le

/-- There are never more passes than there are tags left to settle, and one that finds
nothing; then every tag is settled. -/
theorem Settling.settleAll (settling : Settling base state)
    (distinct : TagTable.Distinct base.parents) (acyclic : base.Acyclic) :
    ∃ last, (∀ fuel, base.nodes.length < fuel + state.1.length →
        settleAll base.nodes fuel state = some last) ∧ Settling base last ∧
      ∀ tag, TagSet.has base.nodes tag = true → TagSet.has last.1 tag = true := by
  -- The induction is on how many tags are left.
  induction left : base.nodes.length - state.1.length using Nat.strongRecOn
    generalizing state with
  | ind left induction =>
      have bounded := settling.length_le
      have unfolded : ∀ fuel, base.nodes.length < fuel + state.1.length →
          ∃ less, fuel = less + 1 := fun fuel enough =>
        Nat.exists_eq_add_one_of_ne_zero (by omega)
      rcases settling.pass base.nodes fun _ => TagSet.has_of_mem with
        ⟨settled, grown | ⟨same, stuck⟩⟩
      · have boundedNext := settled.length_le
        rcases induction _ (by omega) settled rfl with ⟨last, ran, good⟩
        refine ⟨last, fun fuel enough => ?_, good⟩
        rcases unfolded fuel enough with ⟨less, rfl⟩
        rw [Hierarchy.settleAll, if_neg (by omega), ran less (by omega)]
      · refine ⟨state, fun fuel enough => ?_, settling, all_settled distinct acyclic stuck⟩
        rcases unfolded fuel enough with ⟨less, rfl⟩
        rw [Hierarchy.settleAll, if_pos (by rw [same]), same]

/-! ## The other table -/

/-- Every entry of a table of ancestors puts its tag under each of its ancestors. -/
theorem foldl_entries (entries : TagTable α (TagSet α)) (hierarchy : Hierarchy α) :
    let filled := entries.foldl
      (fun hierarchy entry =>
        entry.2.foldl (fun hierarchy upper => hierarchy.addDescendants upper [entry.1]) hierarchy)
      hierarchy
    filled.parents = hierarchy.parents ∧ filled.ancestors = hierarchy.ancestors ∧
      ∀ tag lower, TagSet.has (filled.descendantsOf tag) lower = true ↔
        TagSet.has (hierarchy.descendantsOf tag) lower = true ∨
          ∃ entry ∈ entries, lower.label = entry.1.label ∧ TagSet.has entry.2 tag = true := by
  induction entries generalizing hierarchy with
  | nil => simp
  | cons entry rest induction =>
      rcases foldl_addDescendants [entry.1] entry.2 hierarchy with
        ⟨firstParents, firstAncestors, first⟩
      rcases induction (entry.2.foldl
        (fun hierarchy upper => hierarchy.addDescendants upper [entry.1]) hierarchy) with
        ⟨parents, ancestors, has⟩
      refine ⟨parents.trans firstParents, ancestors.trans firstAncestors, fun tag lower => ?_⟩
      rw [List.foldl_cons, has, first, TagSet.has_singleton, Tag.sameAs_iff, or_assoc,
        and_comm]
      simp only [List.mem_cons, exists_eq_or_imp]

/-- The tables are built from the links alone, and they are right. -/
theorem rebuild_sound (linked : base.WellLinked) (acyclic : base.Acyclic) :
    ∃ after, base.rebuild = some after ∧ after.Sound ∧ after.parents = base.parents := by
  rcases (settling_start base).settleAll linked.distinct acyclic with
    ⟨⟨settled, table⟩, ran, settling, all⟩
  rcases foldl_entries table.ancestors table with ⟨sameParents, sameAncestors, has⟩
  have links := sameParents.trans settling.parents
  have above : ∀ tag upper, TagSet.has (table.ancestorsOf tag) upper = true ↔
      base.LeadsTo tag upper := by
    intro tag upper
    by_cases isSettled : TagSet.has settled tag = true
    · exact settling.above tag isSettled upper
    · rw [settling.rest tag (Bool.not_eq_true _ ▸ isSettled)]
      refine iff_of_false nofun fun leads => isSettled (all tag ?_)
      rcases leadsTo_iff_exists_linksTo.mp leads with ⟨parent, first, -⟩
      exact (first.has_nodes linked.distinct).1
  have leads := leadsTo_of_parents_eq links
  refine ⟨_, ?_, ⟨⟨?_, ?_⟩, ?_, ?_, ?_⟩, links⟩
  · rw [rebuild, Option.bind_eq_bind, ran _ (Nat.lt_succ_self _)]
    rfl
  · exact links ▸ linked.distinct
  · exact links ▸ linked.nonempty
  · exact acyclic_of_parents_eq links acyclic
  · intro tag upper
    rw [leads, ← above tag upper, ancestorsOf, sameAncestors, ancestorsOf]
  · intro tag lower
    have found : (∃ entry ∈ table.ancestors, lower.label = entry.1.label ∧
        TagSet.has entry.2 tag = true) ↔ TagSet.has (table.ancestorsOf lower) tag = true :=
      (TagTable.has_lookup_iff settling.once).symm
    have nothing : table.descendantsOf tag = [] := by
      rw [descendantsOf, settling.descendants]
      rfl
    rw [leads, has, found, above, nothing]
    simp

/-! ## A removed link -/

theorem Sound.underive_linksTo (sound : base.Sound) (links : base.LinksTo child parent) :
    ∃ after, base.underive child parent = some (true, after) ∧ after.Sound ∧
      after.parents = (base.removeLink child parent).parents := by
  rcases rebuild_sound (sound.removeLink child parent) (sound.acyclic.removeLink child parent)
    with ⟨after, ran, good⟩
  have present : TagSet.has (base.parentsOf child) parent = true := links
  refine ⟨after, ?_, good⟩
  rw [underive, if_pos present, ran]
  rfl

theorem underive_of_not (absent : ¬base.LinksTo child parent) :
    base.underive child parent = some (false, base) :=
  if_neg absent

end LispRuntime.Hierarchy
