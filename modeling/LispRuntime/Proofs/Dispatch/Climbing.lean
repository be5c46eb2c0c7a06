import LispRuntime.Proofs.Dispatch.Conflicts

/-! The search for a preference has no memory of where it has been: it climbs from the one tag
and from the other in any order, and passes a tag again on every way that leads there. It comes
to an end because each step is one link up on one of two sides. What it finds is a preference
between two tags that the table of ancestors has above the two, or that are the two. -/

namespace LispRuntime.Dispatch.Tables

variable {α μ : Type} {tables : Tables α μ} {hierarchy : Hierarchy α} {preferred other : Tag α}

/-- What a tag is within is read off the table of ancestors. -/
theorem within_iff_ancestor (sound : hierarchy.Sound) {tag top : Tag α} :
    hierarchy.Within tag top ↔
      ∃ upper ∈ tag :: hierarchy.ancestorsOf tag, upper.label = top.label := by
  have above : hierarchy.LeadsTo tag top ↔
      ∃ upper ∈ hierarchy.ancestorsOf tag, upper.label = top.label := by
    rw [← sound.above, TagSet.has_iff]
    simp only [eq_comm]
  rw [Hierarchy.Within, above, List.exists_mem_cons_iff]

/-- What is inherited is preferred between two tags of the tables. -/
theorem prefers_iff_ancestors (sound : hierarchy.Sound) :
    Prefers tables.preferences hierarchy preferred other ↔
      ∃ upper ∈ preferred :: hierarchy.ancestorsOf preferred,
        ∃ lower ∈ other :: hierarchy.ancestorsOf other,
          tables.directlyPrefers upper lower = true := by
  rw [prefers_iff_recorded]
  constructor
  · rintro ⟨top, bottom, recorded, left, right⟩
    rcases (within_iff_ancestor sound).mp left with ⟨upper, upperMember, sameTop⟩
    rcases (within_iff_ancestor sound).mp right with ⟨lower, lowerMember, sameBottom⟩
    exact ⟨upper, upperMember, lower, lowerMember, recorded.congr sameTop.symm sameBottom.symm⟩
  · rintro ⟨upper, upperMember, lower, lowerMember, direct⟩
    exact ⟨upper, lower, direct, (within_iff_ancestor sound).mpr ⟨upper, upperMember, rfl⟩,
      (within_iff_ancestor sound).mpr ⟨lower, lowerMember, rfl⟩⟩

def twoLines : Hierarchy Unit where
  parents := [(.plain 0 (), [.plain 1 ()]), (.plain 1 (), [.plain 2 ()]),
    (.plain 3 (), [.plain 4 ()]), (.plain 4 (), [.plain 5 ()])]
  ancestors := [(.plain 0 (), [.plain 1 (), .plain 2 ()]), (.plain 1 (), [.plain 2 ()]),
    (.plain 3 (), [.plain 4 (), .plain 5 ()]), (.plain 4 (), [.plain 5 ()])]
  descendants := [(.plain 1 (), [.plain 0 ()]), (.plain 2 (), [.plain 0 (), .plain 1 ()]),
    (.plain 4 (), [.plain 3 ()]), (.plain 5 (), [.plain 3 (), .plain 4 ()])]

def preferringOneLine : Tables Unit Nat :=
  { Tables.empty with preferences := [(.plain 2 (), [.plain 5 ()])] }

end LispRuntime.Dispatch.Tables
