import LispRuntime.Proofs.Dispatch.BestMatch
import Mathlib.Data.List.Perm.Basic
import Mathlib.Data.List.Dedup

/-! A method table has no order of its own, and the pass over it takes the one it happens to
be in. A dominant candidate, one that is above all others with none above it, is never passed
over for another, but two of the others may be compared before it is met, and then the pass
ends in a tie if neither is above the other. And a candidate need not be dominant to be taken:
it suffices to be at the top of a ladder, each rung of which is above the one before, when all
other candidates are strictly below some rung. -/

namespace LispRuntime.Dispatch.Tables

open scoped List

variable {α μ : Type} {above : Tag α × μ → Tag α × μ → Prop}
  {entries rest others rungs : List (Tag α × μ)} {best first top last : Tag α × μ}

/-! ## A dominant candidate -/

/-- It is above every other entry, and none is above it. -/
structure Dominant (above : Tag α × μ → Tag α × μ → Prop) (entries : List (Tag α × μ))
    (top : Tag α × μ) : Prop where
  member : top ∈ entries
  rules : ∀ other ∈ entries, other ≠ top → above top other
  unruled : ∀ other ∈ entries, other ≠ top → ¬above other top

theorem Dominant.perm {order : List (Tag α × μ)} (dominant : Dominant above entries top)
    (same : order.Perm entries) : Dominant above order top where
  member := same.mem_iff.mpr dominant.member
  rules other member := dominant.rules other (same.mem_iff.mp member)
  unruled other member := dominant.unruled other (same.mem_iff.mp member)

/-- Nothing else comes out of the pass while the dominant one is kept or still to come. -/
theorem Keeps.eq_dominant (keeps : Keeps above best rest last)
    (dominant : Dominant above (best :: rest) top) : last = top := by
  induction keeps with
  | done => exact (List.mem_singleton.mp dominant.member).symm
  | @replaced best next last rest isAbove _ induction =>
      refine induction ⟨?_,
        fun other member => dominant.rules other (List.mem_cons_of_mem _ member),
        fun other member => dominant.unruled other (List.mem_cons_of_mem _ member)⟩
      rcases List.mem_cons.mp dominant.member with rfl | inside
      · by_contra outside
        have different : next ≠ top := fun same => outside (same ▸ List.mem_cons_self ..)
        exact dominant.unruled next (by simp) different isAbove
      · exact inside
  | @stayed best next last rest notAbove _ _ induction =>
      have kept : ∀ other ∈ best :: rest, other ∈ best :: next :: rest := by
        intro other member
        rcases List.mem_cons.mp member with rfl | inside <;> simp_all
      refine induction ⟨?_, fun other member => dominant.rules other (kept other member),
        fun other member => dominant.unruled other (kept other member)⟩
      by_cases first : best = top
      · exact first ▸ List.mem_cons_self ..
      · rcases List.mem_cons.mp dominant.member with same | inside
        · exact absurd same.symm first
        · rcases List.mem_cons.mp inside with rfl | later
          · exact absurd (dominant.rules best (List.mem_cons_self ..) first) notAbove
          · exact List.mem_cons_of_mem _ later

theorem Wins.eq_dominant (wins : Wins above entries last)
    (dominant : Dominant above entries top) : last = top := by
  cases wins with
  | intro keeps => exact keeps.eq_dominant dominant

/-- Among entries of which any two can be compared the pass meets no tie. -/
theorem exists_keeps_of_comparable
    (comparable : ∀ left ∈ best :: rest, ∀ right ∈ best :: rest,
      above left right ∨ above right left) :
    ∃ last, Keeps above best rest last := by
  induction rest generalizing best with
  | nil => exact ⟨best, .done⟩
  | cons next rest induction =>
      by_cases isAbove : above next best
      · have later : ∀ left ∈ next :: rest, ∀ right ∈ next :: rest,
            above left right ∨ above right left := fun left leftMember right rightMember =>
          comparable left (List.mem_cons_of_mem _ leftMember) right
            (List.mem_cons_of_mem _ rightMember)
        rcases induction later with ⟨last, keeps⟩
        exact ⟨last, .replaced isAbove keeps⟩
      · have kept : ∀ other ∈ best :: rest, other ∈ best :: next :: rest := by
          intro other member
          rcases List.mem_cons.mp member with rfl | inside <;> simp_all
        have others : ∀ left ∈ best :: rest, ∀ right ∈ best :: rest,
            above left right ∨ above right left := fun left leftMember right rightMember =>
          comparable left (kept left leftMember) right (kept right rightMember)
        rcases induction others with ⟨last, keeps⟩
        have below := (comparable next (by simp) best (by simp)).resolve_left isAbove
        exact ⟨last, .stayed isAbove below keeps⟩

/-- Any two entries can be the first two. -/
theorem exists_perm_cons_cons {left right : Tag α × μ} (leftMember : left ∈ entries)
    (rightMember : right ∈ entries) (different : right ≠ left) :
    ∃ rest, entries.Perm (left :: right :: rest) := by
  classical
  have rightLater : right ∈ entries.erase left := (List.mem_erase_of_ne different).mpr rightMember
  exact ⟨_, (List.perm_cons_erase leftMember).trans
    ((List.perm_cons_erase rightLater).cons left)⟩

/-! ## Ladders -/

/-- Some entries in a row, each above the one before it, such that every entry that is left
out is strictly below one of them. -/
structure Ladder (above : Tag α × μ → Tag α × μ → Prop) (entries rungs : List (Tag α × μ))
    (top : Tag α × μ) : Prop where
  members : ∀ rung ∈ rungs, rung ∈ entries
  once : rungs.Nodup
  climbs : rungs.IsChain fun low high => above high low
  ends : rungs.getLast? = some top
  covers : ∀ other ∈ entries, other ∈ rungs ∨ ∃ rung ∈ rungs, above rung other ∧ ¬above other rung

/-- The entries that are kept one after the other are a ladder. -/
theorem Keeps.exists_rungs (keeps : Keeps above best rest last) :
    ∃ rungs, rungs.Sublist rest ∧ (best :: rungs).IsChain (fun low high => above high low) ∧
      (best :: rungs).getLast? = some last ∧
      ∀ other ∈ rest, other ∈ rungs ∨
        ∃ rung ∈ best :: rungs, above rung other ∧ ¬above other rung := by
  induction keeps with
  | done => exact ⟨[], List.Sublist.refl _, .singleton _, rfl, nofun⟩
  | @replaced best next last rest isAbove _ induction =>
      rcases induction with ⟨rungs, inside, climbs, ends, covers⟩
      refine ⟨next :: rungs, inside.cons_cons _, .cons_cons isAbove climbs, ends, ?_⟩
      intro other member
      rcases List.mem_cons.mp member with rfl | later
      · exact .inl (List.mem_cons_self ..)
      · rcases covers other later with rung | ⟨rung, isRung, below⟩
        · exact .inl (List.mem_cons_of_mem _ rung)
        · exact .inr ⟨rung, List.mem_cons_of_mem _ isRung, below⟩
  | @stayed best next last rest notAbove isAbove _ induction =>
      rcases induction with ⟨rungs, inside, climbs, ends, covers⟩
      refine ⟨rungs, inside.cons _, climbs, ends, ?_⟩
      intro other member
      rcases List.mem_cons.mp member with rfl | later
      · exact .inr ⟨best, List.mem_cons_self .., isAbove, notAbove⟩
      · exact covers other later

theorem Keeps.append (below : ∀ other ∈ others, above best other ∧ ¬above other best)
    (keeps : Keeps above best rest last) : Keeps above best (others ++ rest) last := by
  induction others with
  | nil => exact keeps
  | cons other others induction =>
      rcases below other (List.mem_cons_self ..) with ⟨isAbove, notAbove⟩
      exact .stayed notAbove isAbove
        (induction fun later member => below later (List.mem_cons_of_mem _ member))

/-- Behind each rung go the entries that are strictly below it; then the pass climbs. -/
theorem exists_keeps_of_rungs (climbs : (first :: rungs).IsChain fun low high => above high low)
    (ends : (first :: rungs).getLast? = some top)
    (covers : ∀ other ∈ others, ∃ rung ∈ first :: rungs, above rung other ∧ ¬above other rung) :
    ∃ order, order.Perm (rungs ++ others) ∧ Keeps above first order top := by
  classical
  induction rungs generalizing first others with
  | nil =>
      have below : ∀ other ∈ others, above first other ∧ ¬above other first := by
        simpa using covers
      cases ends
      refine ⟨others, List.Perm.refl _, ?_⟩
      simpa using Keeps.append below .done
  | cons second rungs induction =>
      rcases List.isChain_cons_cons.mp climbs with ⟨isAbove, climbs⟩
      let isBelow : Tag α × μ → Bool := fun other => above first other ∧ ¬above other first
      have later : ∀ other ∈ others.filter (fun other => !isBelow other),
          ∃ rung ∈ second :: rungs, above rung other ∧ ¬above other rung := by
        intro other member
        rcases List.mem_filter.mp member with ⟨inside, notBelow⟩
        rcases covers other inside with ⟨rung, isRung, below⟩
        rcases List.mem_cons.mp isRung with rfl | further
        · simp [isBelow, below] at notBelow
        · exact ⟨rung, further, below⟩
      rcases induction climbs ends later with ⟨order, same, keeps⟩
      refine ⟨others.filter isBelow ++ second :: order, ?_, ?_⟩
      · calc others.filter isBelow ++ second :: order
          _ ~ others.filter isBelow ++
                (second :: rungs ++ others.filter fun other => !isBelow other) :=
              (same.cons second).append_left _
          _ ~ second :: rungs ++ (others.filter isBelow ++
                others.filter fun other => !isBelow other) := List.perm_append_comm_assoc ..
          _ ~ second :: rungs ++ others := (List.filter_append_perm isBelow others).append_left _
      · apply Keeps.append
        · intro other member
          simpa [isBelow] using (List.mem_filter.mp member).2
        · exact .replaced isAbove keeps

/-- Just what stands at the top of a ladder is picked in some order. -/
theorem exists_wins_iff_ladder (once : entries.Nodup) :
    (∃ order, order.Perm entries ∧ Wins above order top) ↔
      ∃ rungs, Ladder above entries rungs top := by
  classical
  constructor
  · rintro ⟨order, same, wins⟩
    cases wins with
    | @intro first _ rest keeps =>
        rcases keeps.exists_rungs with ⟨rungs, inside, climbs, ends, covers⟩
        have sublist : (first :: rungs).Sublist (first :: rest) := inside.cons_cons _
        refine ⟨first :: rungs, fun rung member => same.mem_iff.mp (sublist.subset member),
          (same.nodup_iff.mpr once).sublist sublist, climbs, ends, fun other member => ?_⟩
        rcases List.mem_cons.mp (same.mem_iff.mpr member) with rfl | later
        · exact .inl (List.mem_cons_self ..)
        · exact (covers other later).imp_left (List.mem_cons_of_mem _)
  · rintro ⟨_ | ⟨first, rungs⟩, ladder⟩
    · cases ladder.ends
    · let others := entries.filter fun entry => entry ∉ first :: rungs
      have covers : ∀ other ∈ others,
          ∃ rung ∈ first :: rungs, above rung other ∧ ¬above other rung := by
        intro other member
        rcases List.mem_filter.mp member with ⟨inside, outside⟩
        exact (ladder.covers other inside).resolve_left (of_decide_eq_true outside)
      rcases exists_keeps_of_rungs ladder.climbs ladder.ends covers with ⟨order, same, keeps⟩
      refine ⟨first :: order, (same.cons first).trans ?_, .intro keeps⟩
      have together : (first :: rungs ++ others).Nodup :=
        List.nodup_append.mpr ⟨ladder.once, once.filter _, by
          intro rung isRung other member
          rintro rfl
          exact of_decide_eq_true (List.mem_filter.mp member).2 isRung⟩
      refine (List.perm_ext_iff_of_nodup together once).mpr fun entry => ?_
      rw [List.mem_append, List.mem_filter]
      constructor
      · rintro (isRung | ⟨inside, -⟩)
        · exact ladder.members entry isRung
        · exact inside
      · intro inside
        by_cases isRung : entry ∈ first :: rungs
        · exact .inl isRung
        · exact .inr ⟨inside, decide_eq_true isRung⟩

/-- No two entries are above each other, and what is above one that is above a third is
above the third. -/
structure Ordered (above : Tag α × μ → Tag α × μ → Prop) (entries : List (Tag α × μ)) :
    Prop where
  trans : ∀ high ∈ entries, ∀ middle ∈ entries, ∀ low ∈ entries,
    above high middle → above middle low → above high low
  antisymm : ∀ left ∈ entries, ∀ right ∈ entries,
    above left right → above right left → left = right

/-- Where the entries are ordered, the top of a ladder is dominant. -/
theorem Ladder.dominant (ladder : Ladder above entries rungs top)
    (ordered : Ordered above entries) :
    Dominant above entries top := by
  -- The top is above every other rung.
  have overRungs : ∀ rung ∈ rungs, rung = top ∨ above top rung := by
    rcases ladder with ⟨members, -, climbs, ends, -⟩
    induction rungs with
    | nil => exact nofun
    | cons first rest induction =>
        intro rung member
        cases rest with
        | nil =>
            cases ends
            exact .inl (List.mem_singleton.mp member)
        | cons second rest =>
            rcases List.isChain_cons_cons.mp climbs with ⟨isAbove, climbs⟩
            have higher := induction (fun rung member => members rung (by simp [member])) climbs
              ends
            rcases List.mem_cons.mp member with rfl | later
            · have topMember : top ∈ entries :=
                members top (List.mem_cons_of_mem _ (List.mem_of_getLast? ends))
              rcases higher second (List.mem_cons_self ..) with rfl | further
              · exact .inr isAbove
              · exact .inr (ordered.trans top topMember second (members second (by simp)) rung
                  (members rung (by simp)) further isAbove)
            · exact higher rung later
  have topMember := ladder.members top (List.mem_of_getLast? ladder.ends)
  have rules : ∀ other ∈ entries, other ≠ top → above top other := by
    intro other member different
    rcases ladder.covers other member with isRung | ⟨rung, isRung, isAbove, -⟩
    · exact (overRungs other isRung).resolve_left different
    · rcases overRungs rung isRung with rfl | higher
      · exact isAbove
      · exact ordered.trans top topMember rung (ladder.members rung isRung) other member higher
          isAbove
  refine ⟨topMember, rules, fun other member different isAbove => different ?_⟩
  exact ordered.antisymm other member top topMember isAbove (rules other member different)

end LispRuntime.Dispatch.Tables
