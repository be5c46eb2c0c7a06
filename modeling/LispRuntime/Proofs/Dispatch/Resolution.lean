import LispRuntime.Proofs.Dispatch.Orders

/-! What a multimethod answers for a tag that it has no method of its own for, whatever
changes its hierarchy went through, in every order that its method table can be in. -/

namespace LispRuntime.Dispatch.Tables

variable {α μ : Type} {tables : Tables α μ} {hierarchy : Hierarchy α} {version : Nat}
  {default sought : Tag α} {order : TagTable α μ} {best : Tag α × μ}

/-- What is answered, without the tables after the question. -/
def answer (tables : Tables α μ) (hierarchy : Hierarchy α) (version : Nat)
    (default sought : Tag α) : Option (Except (Tie α) (Option μ)) :=
  (tables.resolve hierarchy version default sought).map Prod.fst

/-- The table has no method of exactly this tag, and no answer from before. -/
structure Open (tables : Tables α μ) (version : Nat) (sought : Tag α) : Prop where
  inexact : tables.methods.lookup sought = none
  uncached : (tables.sync version).cache.lookup sought = none

@[simp] theorem methods_sync (tables : Tables α μ) (version : Nat) :
    (tables.sync version).methods = tables.methods := by
  unfold sync
  split <;> rfl

@[simp] theorem preferences_sync (tables : Tables α μ) (version : Nat) :
    (tables.sync version).preferences = tables.preferences := by
  unfold sync
  split <;> rfl

theorem answer_of_open (isOpen : tables.Open version sought) :
    tables.answer hierarchy version default sought =
      ((tables.sync version).bestMatch hierarchy sought tables.methods none).map fun found =>
        found.map (tables.orDefault default) := by
  simp only [answer, resolve, isOpen.uncached, findMethod, isOpen.inexact, methods_sync]
  rcases (tables.sync version).bestMatch hierarchy sought tables.methods none with
    _ | (tie | found)
  · rfl
  · rfl
  · have same : (tables.sync version).orDefault default found = tables.orDefault default found := by
      unfold orDefault
      rw [methods_sync]
    simp only [Option.bind_eq_bind, Option.bind_some, same]
    cases chosen : tables.orDefault default found <;> simp [Except.map, chosen]

/-- The default method without candidates, the method of a winner, or a tie. -/
theorem answer_cases (sound : hierarchy.Sound) (default : Tag α)
    (isOpen : tables.Open version sought) :
    (candidates hierarchy sought tables.methods = [] ∧
      tables.answer hierarchy version default sought =
        some (.ok (tables.methods.lookup default))) ∨
    (∃ last, Wins (Above tables.preferences hierarchy)
        (candidates hierarchy sought tables.methods) last ∧
      tables.answer hierarchy version default sought = some (.ok (some last.2))) ∨
    (candidates hierarchy sought tables.methods ≠ [] ∧
      (∀ last, ¬Wins (Above tables.preferences hierarchy)
        (candidates hierarchy sought tables.methods) last) ∧
      ∃ tie, tables.answer hierarchy version default sought = some (.error tie)) := by
  have cases := bestMatch_cases (tables.sync version) sound sought tables.methods
  rw [preferences_sync] at cases
  rw [answer_of_open isOpen]
  refine cases.imp ?_ (Or.imp ?_ ?_)
  · rintro ⟨nothing, ran⟩
    exact ⟨nothing, by rw [ran]; rfl⟩
  · rintro ⟨last, wins, ran⟩
    exact ⟨last, wins, by rw [ran]; rfl⟩
  · rintro ⟨something, never, tie, ran⟩
    exact ⟨something, never, tie, by rw [ran]; rfl⟩

/-! ## Orders of the method table -/

/-- The same tables with the methods in another order. -/
abbrev ordered (tables : Tables α μ) (order : TagTable α μ) : Tables α μ :=
  { tables with methods := order }

theorem Open.ordered (isOpen : tables.Open version sought)
    (distinct : TagTable.Distinct tables.methods) (same : order.Perm tables.methods) :
    (tables.ordered order).Open version sought where
  inexact := by
    have distinctOrder : TagTable.Distinct order := (same.map _).nodup_iff.mpr distinct
    refine Option.eq_none_iff_forall_ne_some.mpr fun method found => ?_
    rcases (TagTable.lookup_eq_some_iff distinctOrder).mp found with ⟨key, member, label⟩
    have before := (TagTable.lookup_eq_some_iff distinct).mpr
      ⟨key, same.mem_iff.mp member, label⟩
    cases isOpen.inexact.symm.trans before
  uncached := by
    have uncached := isOpen.uncached
    unfold sync at uncached ⊢
    split at uncached <;> simp_all

theorem candidates_perm (hierarchy : Hierarchy α) (sought : Tag α)
    (same : order.Perm tables.methods) :
    (candidates hierarchy sought order).Perm (candidates hierarchy sought tables.methods) :=
  same.filter _

/-- The candidates can be met in any order. -/
theorem exists_order {met : TagTable α μ}
    (same : met.Perm (candidates hierarchy sought tables.methods)) :
    ∃ order, order.Perm tables.methods ∧ candidates hierarchy sought order = met := by
  have each : ∀ entry ∈ met, hierarchy.isa sought entry.1 = true := fun entry member =>
    (List.mem_filter.mp (same.mem_iff.mp member)).2
  refine ⟨met ++ tables.methods.filter fun entry => !hierarchy.isa sought entry.1,
    (same.append_right _).trans (List.filter_append_perm _ _), ?_⟩
  rw [candidates, List.filter_append, List.filter_eq_self.mpr each, List.filter_filter]
  simp

theorem nodup_candidates (distinct : TagTable.Distinct tables.methods) :
    (candidates hierarchy sought tables.methods).Nodup :=
  (List.Nodup.of_map _ distinct).filter _

/-- With candidates, every order has a winner whose method is answered, or a tie. -/
theorem answer_ordered_cases (sound : hierarchy.Sound) (default : Tag α)
    (distinct : TagTable.Distinct tables.methods) (isOpen : tables.Open version sought)
    (matched : candidates hierarchy sought tables.methods ≠ [])
    (same : order.Perm tables.methods) :
    (∃ top, Wins (Above tables.preferences hierarchy) (candidates hierarchy sought order) top ∧
      (tables.ordered order).answer hierarchy version default sought =
        some (.ok (some top.2))) ∨
    (∀ top, ¬Wins (Above tables.preferences hierarchy) (candidates hierarchy sought order) top) ∧
      ∃ tie, (tables.ordered order).answer hierarchy version default sought =
        some (.error tie) := by
  rcases answer_cases sound default (isOpen.ordered distinct same) with
    ⟨nothing, -⟩ | wins | ⟨-, never, tie⟩
  · have members := candidates_perm hierarchy sought same
    exact absurd (members.symm.trans (.of_eq nothing)).eq_nil matched
  · exact .inl wins
  · exact .inr ⟨never, tie⟩

/-- If there is a dominant candidate, no order has any other method answered, but it can be
that none is answered at all; and it cannot just if any two candidates can be compared. -/
theorem answer_of_dominant (default : Tag α) {changes : List (Hierarchy.Change α)}
    (reached : Hierarchy.performAll changes = some hierarchy)
    (distinct : TagTable.Distinct tables.methods) (isOpen : tables.Open version sought)
    (dominant : Dominant (Above tables.preferences hierarchy)
      (candidates hierarchy sought tables.methods) best) :
    (∀ order, order.Perm tables.methods →
      (tables.ordered order).answer hierarchy version default sought = some (.ok (some best.2)) ∨
        ∃ tie, (tables.ordered order).answer hierarchy version default sought =
          some (.error tie)) ∧
    ((∀ order, order.Perm tables.methods →
        (tables.ordered order).answer hierarchy version default sought =
          some (.ok (some best.2))) ↔
      ∀ left ∈ candidates hierarchy sought tables.methods,
        ∀ right ∈ candidates hierarchy sought tables.methods,
          Above tables.preferences hierarchy left right ∨
            Above tables.preferences hierarchy right left) := by
  have sound := Hierarchy.sound_of_performAll reached
  have matched := List.ne_nil_of_mem dominant.member
  have cases : ∀ order : TagTable α μ, order.Perm tables.methods → _ := fun order =>
    answer_ordered_cases sound default distinct isOpen matched
  have answered : ∀ order, order.Perm tables.methods → ∀ top,
      Wins (Above tables.preferences hierarchy) (candidates hierarchy sought order) top →
        top = best := fun order same top wins =>
    wins.eq_dominant (dominant.perm (candidates_perm hierarchy sought same))
  refine ⟨fun order same => ?_, fun all left leftMember right rightMember => ?_,
    fun comparable order same => ?_⟩
  · refine (cases order same).imp ?_ And.right
    rintro ⟨top, wins, ran⟩
    rw [ran, answered order same top wins]
  · -- Two candidates that cannot be compared make a tie when they are met first.
    by_contra incomparable
    rw [not_or] at incomparable
    have different : right ≠ left := fun equal =>
      incomparable.1 (dominates_self (congrArg (fun entry => entry.1.label) equal.symm))
    rcases exists_perm_cons_cons leftMember rightMember different with ⟨rest, split⟩
    rcases exists_order split.symm with ⟨order, same, met⟩
    rcases cases order same with ⟨top, wins, -⟩ | ⟨-, tie, ran⟩
    · rw [met, wins_cons_iff] at wins
      exact not_keeps_of_tied incomparable.2 incomparable.1 wins
    · cases ran.symm.trans (all order same)
  · have members := candidates_perm hierarchy sought same
    rcases cases order same with ⟨top, wins, ran⟩ | ⟨never, -⟩
    · rw [ran, answered order same top wins]
    · cases met : candidates hierarchy sought order with
      | nil => exact absurd (members.symm.trans (.of_eq met)).eq_nil matched
      | cons first rest =>
          rw [met] at members never
          rcases exists_keeps_of_comparable fun left leftMember right rightMember =>
            comparable left (members.mem_iff.mp leftMember) right
              (members.mem_iff.mp rightMember) with ⟨last, keeps⟩
          exact absurd (.intro keeps) (never last)

/-! A tag with three parents. The third one is preferred over the other two, which have
nothing to do with each other. -/

/-- A tag that has nothing but a label. -/
def numbered (label : Nat) : Tag Unit := .plain label ()

def threeParents : Hierarchy Unit where
  parents := [(numbered 0, [numbered 1, numbered 2, numbered 3])]
  ancestors := [(numbered 0, [numbered 1, numbered 2, numbered 3])]
  descendants := [(numbered 1, [numbered 0]), (numbered 2, [numbered 0]),
    (numbered 3, [numbered 0])]

def preferringThird : Tables Unit Nat where
  methods := [(numbered 1, 1), (numbered 2, 2), (numbered 3, 3)]
  preferences := [(numbered 3, [numbered 1, numbered 2])]
  cache := []
  cachedVersion := 0

/-- The method of the third parent is dominant and is not answered in every order. -/
theorem third_not_always_answered :
    Hierarchy.performAll [.derive (numbered 0) (numbered 1), .derive (numbered 0) (numbered 2),
      .derive (numbered 0) (numbered 3)] = some threeParents ∧
    Dominant (Above preferringThird.preferences threeParents)
      (candidates threeParents (numbered 0) preferringThird.methods) (numbered 3, 3) ∧
    ¬∀ order, order.Perm preferringThird.methods →
      (preferringThird.ordered order).answer threeParents 0 (numbered 9) (numbered 0) =
        some (.ok (some 3)) := by
  have reached : Hierarchy.performAll [.derive (numbered 0) (numbered 1),
      .derive (numbered 0) (numbered 2), .derive (numbered 0) (numbered 3)] =
        some threeParents := rfl
  have above : ∀ upper lower, Dominates preferringThird.preferences threeParents upper lower ↔ _ :=
    fun upper lower => dominates_iff (Hierarchy.sound_of_performAll reached)
  have members : candidates threeParents (numbered 0) preferringThird.methods =
      [(numbered 1, 1), (numbered 2, 2), (numbered 3, 3)] := rfl
  have dominant : Dominant (Above preferringThird.preferences threeParents)
      (candidates threeParents (numbered 0) preferringThird.methods) (numbered 3, 3) := by
    rw [members]
    refine ⟨by simp, ?_, ?_⟩ <;> simp only [List.forall_mem_cons]
    · exact ⟨fun _ => (above ..).mpr rfl, fun _ => (above ..).mpr rfl,
        fun different => absurd rfl different, nofun⟩
    · exact ⟨fun _ => (above ..).not.mpr (by decide), fun _ => (above ..).not.mpr (by decide),
        fun different => absurd rfl different, nofun⟩
  refine ⟨reached, dominant, fun all => ?_⟩
  have isOpen : preferringThird.Open 0 (numbered 0) := ⟨rfl, rfl⟩
  have comparable := (answer_of_dominant (numbered 9) reached (by decide) isOpen dominant).2.mp
    all (numbered 1, 1) (by simp [members]) (numbered 2, 2) (by simp [members])
  rw [Above, above, Above, above] at comparable
  revert comparable
  decide

/-- If there are candidates, the answer is the method of one of them or a tie. In some order
it is the method of a candidate just if that one is at the top of a ladder. Where the
candidates are ordered this means that it is dominant. -/
theorem answer_iff_ladder (default : Tag α) {changes : List (Hierarchy.Change α)}
    (reached : Hierarchy.performAll changes = some hierarchy)
    (distinct : TagTable.Distinct tables.methods) (isOpen : tables.Open version sought)
    (matched : candidates hierarchy sought tables.methods ≠ []) :
    (∀ order, order.Perm tables.methods →
      (∃ entry ∈ candidates hierarchy sought tables.methods,
        (tables.ordered order).answer hierarchy version default sought =
          some (.ok (some entry.2))) ∨
      ∃ tie, (tables.ordered order).answer hierarchy version default sought =
        some (.error tie)) ∧
    (∀ method,
      (∃ order, order.Perm tables.methods ∧
        (tables.ordered order).answer hierarchy version default sought =
          some (.ok (some method))) ↔
      ∃ rungs top, Ladder (Above tables.preferences hierarchy)
        (candidates hierarchy sought tables.methods) rungs top ∧ top.2 = method) ∧
    (Ordered (Above tables.preferences hierarchy) (candidates hierarchy sought tables.methods) →
      ∀ order, order.Perm tables.methods → ∀ method,
        (tables.ordered order).answer hierarchy version default sought =
          some (.ok (some method)) →
        ∃ top, Dominant (Above tables.preferences hierarchy)
          (candidates hierarchy sought tables.methods) top ∧ top.2 = method) := by
  have sound := Hierarchy.sound_of_performAll reached
  have cases : ∀ order : TagTable α μ, order.Perm tables.methods → _ := fun order =>
    answer_ordered_cases sound default distinct isOpen matched
  have picked : ∀ {top}, (∃ order, order.Perm (candidates hierarchy sought tables.methods) ∧
      Wins (Above tables.preferences hierarchy) order top) ↔
      ∃ rungs, Ladder (Above tables.preferences hierarchy)
        (candidates hierarchy sought tables.methods) rungs top :=
    exists_wins_iff_ladder (nodup_candidates distinct)
  have ladders : ∀ order, order.Perm tables.methods → ∀ method,
      (tables.ordered order).answer hierarchy version default sought =
        some (.ok (some method)) →
      ∃ rungs top, Ladder (Above tables.preferences hierarchy)
        (candidates hierarchy sought tables.methods) rungs top ∧ top.2 = method := by
    intro order same method answered
    rcases cases order same with ⟨top, wins, ran⟩ | ⟨-, tie, ran⟩
    · cases answered.symm.trans ran
      rcases picked.mp ⟨_, candidates_perm hierarchy sought same, wins⟩ with ⟨rungs, ladder⟩
      exact ⟨rungs, top, ladder, rfl⟩
    · cases answered.symm.trans ran
  refine ⟨fun order same => ?_, fun method => ⟨?_, ?_⟩, ?_⟩
  · refine (cases order same).imp ?_ And.right
    rintro ⟨top, wins, ran⟩
    rcases picked.mp ⟨_, candidates_perm hierarchy sought same, wins⟩ with ⟨rungs, ladder⟩
    exact ⟨top, ladder.members top (List.mem_of_getLast? ladder.ends), ran⟩
  · rintro ⟨order, same, answered⟩
    exact ladders order same method answered
  · rintro ⟨rungs, top, ladder, rfl⟩
    rcases picked.mpr ⟨rungs, ladder⟩ with ⟨met, sameMembers, wins⟩
    rcases exists_order sameMembers with ⟨order, same, rfl⟩
    refine ⟨order, same, ?_⟩
    rcases cases order same with ⟨other, otherWins, ran⟩ | ⟨never, -⟩
    · rw [ran, wins.unique otherWins]
    · exact absurd wins (never top)
  · intro isOrdered order same method answered
    rcases ladders order same method answered with ⟨rungs, top, ladder, isMethod⟩
    exact ⟨top, ladder.dominant isOrdered, isMethod⟩

/-! A tag with a parent and a grandparent, the grandparent being preferred over the parent. -/

def grandparent : Hierarchy Unit where
  parents := [(numbered 0, [numbered 1]), (numbered 1, [numbered 2])]
  ancestors := [(numbered 0, [numbered 1, numbered 2]), (numbered 1, [numbered 2])]
  descendants := [(numbered 1, [numbered 0]), (numbered 2, [numbered 0, numbered 1])]

def preferringGrandparent : Tables Unit Nat where
  methods := [(numbered 1, 1), (numbered 2, 2)]
  preferences := [(numbered 2, [numbered 1])]
  cache := []
  cachedVersion := 0

/-- Each of the two is above the other, and by the order one or the other is answered. -/
theorem grandparent_answered_by_order :
    Hierarchy.performAll [.derive (numbered 0) (numbered 1), .derive (numbered 1) (numbered 2)] =
      some grandparent ∧
    (¬∃ top, Dominant (Above preferringGrandparent.preferences grandparent)
      (candidates grandparent (numbered 0) preferringGrandparent.methods) top) ∧
    ∀ method ∈ [1, 2], ∃ order, order.Perm preferringGrandparent.methods ∧
      (preferringGrandparent.ordered order).answer grandparent 0 (numbered 9) (numbered 0) =
        some (.ok (some method)) := by
  have reached : Hierarchy.performAll [.derive (numbered 0) (numbered 1),
      .derive (numbered 1) (numbered 2)] = some grandparent := rfl
  have members : candidates grandparent (numbered 0) preferringGrandparent.methods =
      [(numbered 1, 1), (numbered 2, 2)] := rfl
  have above : ∀ upper lower,
      Dominates preferringGrandparent.preferences grandparent upper lower ↔ _ :=
    fun upper lower => dominates_iff (Hierarchy.sound_of_performAll reached)
  have parentAbove : Above preferringGrandparent.preferences grandparent
      (numbered 1, 1) (numbered 2, 2) := (above ..).mpr rfl
  have grandparentAbove : Above preferringGrandparent.preferences grandparent
      (numbered 2, 2) (numbered 1, 1) := (above ..).mpr rfl
  refine ⟨reached, ?_, ?_⟩
  · rintro ⟨top, dominant⟩
    rw [members] at dominant
    have isMember := dominant.member
    simp only [List.mem_cons, List.not_mem_nil, or_false] at isMember
    rcases isMember with rfl | rfl
    · exact dominant.unruled (numbered 2, 2) (by simp) (by simp) grandparentAbove
    · exact dominant.unruled (numbered 1, 1) (by simp) (by simp) parentAbove
  · have isOpen : preferringGrandparent.Open 0 (numbered 0) := ⟨rfl, rfl⟩
    have matched : candidates grandparent (numbered 0) preferringGrandparent.methods ≠ [] := by
      rw [members]
      exact List.cons_ne_nil _ _
    have picked := (answer_iff_ladder (numbered 9) reached (by decide) isOpen matched).2.1
    rw [members] at picked
    simp only [List.forall_mem_cons]
    refine ⟨(picked 1).mpr ⟨[(numbered 2, 2), (numbered 1, 1)], (numbered 1, 1), ?_, rfl⟩,
      (picked 2).mpr ⟨[(numbered 1, 1), (numbered 2, 2)], (numbered 2, 2), ?_, rfl⟩, nofun⟩
    · exact ⟨by simp, by simp, .cons_cons parentAbove (.singleton _), rfl, by simp⟩
    · exact ⟨by simp, by simp, .cons_cons grandparentAbove (.singleton _), rfl, by simp⟩

end LispRuntime.Dispatch.Tables
