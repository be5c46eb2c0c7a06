import LispRuntime.Hierarchy.Basic
import LispRuntime.Proofs.Hierarchy.Tags
import Mathlib.Data.Finset.Card
import Mathlib.Logic.Relation

/-! The links of a hierarchy as a relation between tags, and one or more of them in a
row. A new link leads on from whatever is below the child to whatever is above the
parent, and to nothing else. Without a cycle there are only so many links in a row. -/

namespace LispRuntime.Hierarchy

variable {α : Type} {hierarchy : Hierarchy α} {child parent tag other : Tag α}

/-- The second tag is a direct parent of the first. -/
def LinksTo (hierarchy : Hierarchy α) (child parent : Tag α) : Prop :=
  TagSet.has (hierarchy.parentsOf child) parent = true

/-- One or more links lead from the first tag to the second. -/
abbrev LeadsTo (hierarchy : Hierarchy α) : Tag α → Tag α → Prop :=
  Relation.TransGen hierarchy.LinksTo

def Acyclic (hierarchy : Hierarchy α) : Prop := ∀ tag, ¬hierarchy.LeadsTo tag tag

/-- The first tag is the second, or below it. -/
def Within (hierarchy : Hierarchy α) (tag top : Tag α) : Prop :=
  tag.label = top.label ∨ hierarchy.LeadsTo tag top

/-! ## Labels -/

theorem parentsOf_congr (same : tag.label = other.label) :
    hierarchy.parentsOf tag = hierarchy.parentsOf other := by
  rw [parentsOf, parentsOf, TagTable.lookup_congr _ same]

theorem ancestorsOf_congr (same : tag.label = other.label) :
    hierarchy.ancestorsOf tag = hierarchy.ancestorsOf other := by
  rw [ancestorsOf, ancestorsOf, TagTable.lookup_congr _ same]

theorem isa_of_label_eq (hierarchy : Hierarchy α) (same : tag.label = other.label) :
    hierarchy.isa tag other = true := by
  have sameAs : tag.sameAs other = true := Tag.sameAs_iff.mpr same
  unfold isa
  simp [sameAs]

theorem LinksTo.congr_left (same : tag.label = other.label)
    (links : hierarchy.LinksTo tag parent) : hierarchy.LinksTo other parent := by
  rwa [LinksTo, ← parentsOf_congr same]

theorem LinksTo.congr_right (same : tag.label = other.label)
    (links : hierarchy.LinksTo child tag) : hierarchy.LinksTo child other := by
  rwa [LinksTo, ← TagSet.has_congr same]

theorem LeadsTo.congr_left (same : tag.label = other.label)
    (leads : hierarchy.LeadsTo tag parent) : hierarchy.LeadsTo other parent := by
  rcases Relation.TransGen.head'_iff.mp leads with ⟨next, links, rest⟩
  exact Relation.TransGen.head' (links.congr_left same) rest

theorem LeadsTo.congr_right (same : tag.label = other.label)
    (leads : hierarchy.LeadsTo child tag) : hierarchy.LeadsTo child other := by
  rcases Relation.TransGen.tail'_iff.mp leads with ⟨last, rest, links⟩
  exact Relation.TransGen.tail' rest (links.congr_right same)

theorem LeadsTo.mono {richer : Hierarchy α}
    (all : ∀ low high, hierarchy.LinksTo low high → richer.LinksTo low high)
    (leads : hierarchy.LeadsTo child parent) : richer.LeadsTo child parent :=
  Relation.TransGen.mono all _ _ leads

theorem Acyclic.label_ne (acyclic : hierarchy.Acyclic)
    (leads : hierarchy.LeadsTo child parent) : child.label ≠ parent.label :=
  fun same => acyclic child (LeadsTo.congr_right same.symm leads)

/-- From whatever is within a tag the way leads on. -/
theorem Within.leadsTo (within : hierarchy.Within child tag)
    (leads : hierarchy.LeadsTo tag parent) : hierarchy.LeadsTo child parent := by
  rcases within with same | below
  · exact LeadsTo.congr_left same.symm leads
  · exact below.trans leads

theorem Within.tail (within : hierarchy.Within child tag)
    (links : hierarchy.LinksTo tag parent) : hierarchy.LeadsTo child parent :=
  within.leadsTo (.single links)

theorem Within.trans (within : hierarchy.Within child tag)
    (further : hierarchy.Within tag parent) : hierarchy.Within child parent := by
  rcases further with same | above
  · exact within.imp (·.trans same) (LeadsTo.congr_right same)
  · exact .inr (within.leadsTo above)

/-- Only equal tags are within each other. -/
theorem Acyclic.label_eq (acyclic : hierarchy.Acyclic) (up : hierarchy.Within child parent)
    (down : hierarchy.Within parent child) : child.label = parent.label := by
  rcases up with same | leads
  · exact same
  · rcases down with same | back
    · exact same.symm
    · exact absurd (leads.trans back) (acyclic child)

/-! ## The table of links -/

/-- A tag stands in the table of links once, and only with parents. -/
structure WellLinked (hierarchy : Hierarchy α) : Prop where
  distinct : TagTable.Distinct hierarchy.parents
  nonempty : ∀ entry ∈ hierarchy.parents, entry.2 ≠ []

theorem wellLinked_empty : (empty : Hierarchy α).WellLinked := ⟨List.nodup_nil, nofun⟩

theorem linksTo_iff_mem (distinct : TagTable.Distinct hierarchy.parents) :
    hierarchy.LinksTo child parent ↔
      ∃ entry ∈ hierarchy.parents, child.label = entry.1.label ∧
        TagSet.has entry.2 parent = true :=
  TagTable.has_lookup_iff distinct

theorem mem_childrenOf : child ∈ hierarchy.childrenOf tag ↔
    ∃ set, (child, set) ∈ hierarchy.parents ∧ TagSet.has set tag = true := by
  simp [childrenOf]

theorem linksTo_of_mem_childrenOf (distinct : TagTable.Distinct hierarchy.parents)
    (member : child ∈ hierarchy.childrenOf tag) : hierarchy.LinksTo child tag := by
  rcases mem_childrenOf.mp member with ⟨set, inside, has⟩
  exact (linksTo_iff_mem distinct).mpr ⟨_, inside, rfl, has⟩

theorem exists_mem_childrenOf (distinct : TagTable.Distinct hierarchy.parents)
    (links : hierarchy.LinksTo child tag) :
    ∃ member ∈ hierarchy.childrenOf tag, child.label = member.label := by
  rcases (linksTo_iff_mem distinct).mp links with ⟨entry, inside, same, has⟩
  exact ⟨entry.1, mem_childrenOf.mpr ⟨entry.2, inside, has⟩, same⟩

/-! ## A new link -/

theorem parentsOf_addLink (hierarchy : Hierarchy α) (child parent tag : Tag α) :
    (hierarchy.addLink child parent).parentsOf tag =
      if tag.label = child.label then TagSet.insert (hierarchy.parentsOf child) parent
      else hierarchy.parentsOf tag := by
  simp only [parentsOf, addLink, TagTable.lookup_insert]
  split <;> rfl

theorem linksTo_addLink_iff {upper : Tag α} :
    (hierarchy.addLink child parent).LinksTo tag upper ↔
      hierarchy.LinksTo tag upper ∨ tag.label = child.label ∧ upper.label = parent.label := by
  unfold LinksTo
  rw [parentsOf_addLink]
  split
  case isTrue same => simp [same, parentsOf_congr same]
  case isFalse different => simp [different]

theorem WellLinked.addLink (linked : hierarchy.WellLinked) (child parent : Tag α) :
    (hierarchy.addLink child parent).WellLinked where
  distinct := linked.distinct.insert child _
  nonempty entry member := by
    rcases TagTable.mem_insert member with inside | ⟨-, set⟩
    · exact linked.nonempty entry inside
    · intro empty
      have has : TagSet.has (TagSet.insert (hierarchy.parentsOf child) parent) parent = true :=
        TagSet.has_insert.mpr (.inr rfl)
      rw [← set, empty] at has
      cases has

theorem leadsTo_addLink_iff {upper : Tag α} :
    (hierarchy.addLink child parent).LeadsTo tag upper ↔
      hierarchy.LeadsTo tag upper ∨
        hierarchy.Within tag child ∧ hierarchy.Within parent upper := by
  constructor
  · intro leads
    induction leads with
    | single links =>
        rcases linksTo_addLink_iff.mp links with old | ⟨atChild, atParent⟩
        · exact .inl (.single old)
        · exact .inr ⟨.inl atChild, .inl atParent.symm⟩
    | tail _ links induction =>
        rcases linksTo_addLink_iff.mp links with old | ⟨atChild, atParent⟩
        · rcases induction with below | ⟨within, above⟩
          · exact .inl (below.tail old)
          · exact .inr ⟨within, .inr (above.tail old)⟩
        · rcases induction with below | ⟨within, -⟩
          · exact .inr ⟨.inr (LeadsTo.congr_right atChild below), .inl atParent.symm⟩
          · exact .inr ⟨within, .inl atParent.symm⟩
  · have old : ∀ {low high : Tag α}, hierarchy.LeadsTo low high →
        (hierarchy.addLink child parent).LeadsTo low high := fun leads =>
      LeadsTo.mono (fun _ _ links => linksTo_addLink_iff.mpr (.inl links)) leads
    have oldWithin : ∀ {low high : Tag α}, hierarchy.Within low high →
        (hierarchy.addLink child parent).Within low high := fun within => within.imp_right old
    rintro (leads | ⟨within, above⟩)
    · exact old leads
    · have new : (hierarchy.addLink child parent).LinksTo child parent :=
        linksTo_addLink_iff.mpr (.inr ⟨rfl, rfl⟩)
      have up := (oldWithin within).tail new
      rcases above with same | above
      · exact LeadsTo.congr_right same up
      · exact up.trans (old above)

/-- A link makes no cycle if its parent is not already within its child. -/
theorem Acyclic.addLink (acyclic : hierarchy.Acyclic)
    (apart : ¬hierarchy.Within parent child) : (hierarchy.addLink child parent).Acyclic := by
  intro tag leads
  rcases leadsTo_addLink_iff.mp leads with old | ⟨within, above⟩
  · exact acyclic tag old
  · refine apart ?_
    rcases above with same | above
    · exact within.imp same.trans (LeadsTo.congr_left same.symm)
    · rcases within with atChild | below
      · exact .inr (LeadsTo.congr_right atChild above)
      · exact .inr (above.trans below)

/-! ## A removed link -/

/-- A child without any parent left is taken out of the table. -/
theorem parents_removeLink_last
    (last : (TagSet.erase (hierarchy.parentsOf child) parent).isEmpty = true) :
    (hierarchy.removeLink child parent).parents = hierarchy.parents.erase child :=
  if_pos last

theorem parents_removeLink_other
    (others : ¬(TagSet.erase (hierarchy.parentsOf child) parent).isEmpty = true) :
    (hierarchy.removeLink child parent).parents =
      hierarchy.parents.insert child (TagSet.erase (hierarchy.parentsOf child) parent) :=
  if_neg others

theorem parentsOf_removeLink (hierarchy : Hierarchy α) (child parent tag : Tag α) :
    (hierarchy.removeLink child parent).parentsOf tag =
      if tag.label = child.label then TagSet.erase (hierarchy.parentsOf child) parent
      else hierarchy.parentsOf tag := by
  by_cases last : (TagSet.erase (hierarchy.parentsOf child) parent).isEmpty = true
  · rw [List.isEmpty_iff.mp last, parentsOf, parents_removeLink_last last,
      TagTable.lookup_erase]
    split <;> rfl
  · rw [parentsOf, parents_removeLink_other last, TagTable.lookup_insert]
    split <;> rfl

theorem linksTo_removeLink_iff {upper : Tag α} :
    (hierarchy.removeLink child parent).LinksTo tag upper ↔
      hierarchy.LinksTo tag upper ∧
        ¬(tag.label = child.label ∧ upper.label = parent.label) := by
  unfold LinksTo
  rw [parentsOf_removeLink]
  split
  case isTrue same => simp [same, parentsOf_congr same]
  case isFalse different => simp [different]

theorem WellLinked.removeLink (linked : hierarchy.WellLinked) (child parent : Tag α) :
    (hierarchy.removeLink child parent).WellLinked := by
  by_cases last : (TagSet.erase (hierarchy.parentsOf child) parent).isEmpty = true
  · constructor <;> rw [parents_removeLink_last last]
    · exact linked.distinct.erase child
    · exact fun entry member => linked.nonempty entry (List.mem_of_mem_filter member)
  · constructor <;> rw [parents_removeLink_other last]
    · exact linked.distinct.insert child _
    · intro entry member
      rcases TagTable.mem_insert member with inside | ⟨-, set⟩
      · exact linked.nonempty entry inside
      · rw [set]
        exact last ∘ List.isEmpty_iff.mpr

theorem Acyclic.removeLink (acyclic : hierarchy.Acyclic) (child parent : Tag α) :
    (hierarchy.removeLink child parent).Acyclic := fun tag leads =>
  acyclic tag (LeadsTo.mono (fun _ _ links => (linksTo_removeLink_iff.mp links).1) leads)

/-- A link that was not there can be taken back. -/
theorem parents_removeLink_addLink (linked : hierarchy.WellLinked)
    (new : ¬hierarchy.LinksTo child parent) :
    ((hierarchy.addLink child parent).removeLink child parent).parents =
      hierarchy.parents := by
  have absent : TagSet.has (hierarchy.parentsOf child) parent = false := by
    simpa [LinksTo] using new
  have remaining : TagSet.erase ((hierarchy.addLink child parent).parentsOf child) parent =
      hierarchy.parentsOf child := by
    rw [parentsOf_addLink, if_pos rfl, TagSet.erase_insert absent]
  rw [removeLink, remaining]
  cases found : hierarchy.parents.lookup child with
  | none =>
      have nothing : hierarchy.parentsOf child = [] := by rw [parentsOf, found]; rfl
      rw [nothing]
      exact TagTable.erase_insert_of_lookup_eq_none found _
  | some set =>
      have parents : hierarchy.parentsOf child = set := by rw [parentsOf, found]; rfl
      rcases (TagTable.lookup_eq_some_iff linked.distinct).mp found with ⟨key, member, -⟩
      have nonempty : ¬set.isEmpty = true :=
        fun empty => linked.nonempty _ member (List.isEmpty_iff.mp empty)
      simp only [parents]
      rw [if_neg nonempty]
      exact TagTable.insert_insert_of_lookup_eq_some found _

/-! ## No more links in a row than there are children -/

/-- What is counted grows along a relation by some key, so that there are only as many
steps in a row as there are keys. -/
private theorem exists_rank (relation : Tag α → Tag α → Prop) (keys : List Nat)
    (counted : Tag α → Nat → Prop)
    (grows : ∀ low high, relation low high →
      (∀ label, counted high label → counted low label) ∧
        ∃ label ∈ keys, counted low label ∧ ¬counted high label) :
    ∃ rank : Tag α → Nat, ∀ low, rank low ≤ keys.length ∧
      ∀ high, relation low high → rank high < rank low := by
  classical
  refine ⟨fun tag => (keys.toFinset.filter (counted tag)).card, fun low => ⟨?_, ?_⟩⟩
  · exact (Finset.card_filter_le _ _).trans (List.toFinset_card_le keys)
  · intro high related
    rcases grows low high related with ⟨subset, label, isKey, inLow, notInHigh⟩
    apply Finset.card_lt_card
    rw [Finset.ssubset_iff_of_subset]
    · refine ⟨label, ?_, ?_⟩ <;> simp [isKey, inLow, notInHigh]
    · intro other member
      rw [Finset.mem_filter] at member ⊢
      exact ⟨member.1, subset other member.2⟩

private theorem label_mem_of_linksTo (distinct : TagTable.Distinct hierarchy.parents)
    (links : hierarchy.LinksTo child parent) :
    child.label ∈ hierarchy.parents.map fun entry => entry.1.label := by
  rcases (linksTo_iff_mem distinct).mp links with ⟨entry, member, same, -⟩
  exact List.mem_map.mpr ⟨entry, member, same.symm⟩

/-- Going up, a tag counts the children that it can still pass. -/
theorem exists_height (distinct : TagTable.Distinct hierarchy.parents)
    (acyclic : hierarchy.Acyclic) :
    ∃ height : Tag α → Nat, ∀ tag, height tag ≤ hierarchy.size ∧
      ∀ parent, hierarchy.LinksTo tag parent → height parent < height tag := by
  rw [size, ← List.length_map fun entry : Tag α × TagSet α => entry.1.label]
  apply exists_rank _ _ fun tag label => ∃ upper, hierarchy.Within tag upper ∧ upper.label = label
  intro low high links
  constructor
  · rintro label ⟨upper, same | above, rfl⟩
    · exact ⟨upper, .inr (.single (links.congr_right same)), rfl⟩
    · exact ⟨upper, .inr (.head links above), rfl⟩
  · refine ⟨low.label, label_mem_of_linksTo distinct links, ⟨low, .inl rfl, rfl⟩, ?_⟩
    rintro ⟨upper, within, same⟩
    refine acyclic low (.head links ?_)
    rcases within with equal | above
    · exact absurd (equal.trans same) (acyclic.label_ne (.single links)).symm
    · exact LeadsTo.congr_right same above

/-- Going down, it counts the children below it. -/
theorem exists_depth (distinct : TagTable.Distinct hierarchy.parents)
    (acyclic : hierarchy.Acyclic) :
    ∃ depth : Tag α → Nat, ∀ tag, depth tag ≤ hierarchy.size ∧
      ∀ child, hierarchy.LinksTo child tag → depth child < depth tag := by
  rw [size, ← List.length_map fun entry : Tag α × TagSet α => entry.1.label]
  apply exists_rank (fun tag child => hierarchy.LinksTo child tag) _
    fun tag label => ∃ lower, hierarchy.LeadsTo lower tag ∧ lower.label = label
  intro high low links
  constructor
  · rintro label ⟨lower, below, rfl⟩
    exact ⟨lower, below.tail links, rfl⟩
  · refine ⟨low.label, label_mem_of_linksTo distinct links, ⟨low, .single links, rfl⟩, ?_⟩
    rintro ⟨lower, below, same⟩
    exact acyclic low (LeadsTo.congr_left same below)

end LispRuntime.Hierarchy
