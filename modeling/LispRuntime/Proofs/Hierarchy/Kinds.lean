import LispRuntime.Proofs.Hierarchy.Alike
import Mathlib.Data.List.Forall2

/-! Whether being a kind of something is an order. There are two ways up from a tag: along
links, and from a vector to another one part by part. Steps of one way make one step of that
way; but the table of ancestors has only what links lead to, so that a step of each way need
not make one step of either. Nor does the check for cycles see more than links, so that the
two ways may lead round in a circle. -/

namespace LispRuntime

variable {α : Type}

namespace Tag

def parts : Tag α → List (Tag α)
  | plain .. => []
  | vector _ _ parts => parts

def isVector : Tag α → Bool
  | plain .. => false
  | vector .. => true

/-- What holds of a tag whenever it holds of its parts holds of every tag. -/
@[elab_as_elim] theorem inductionOnParts {motive : Tag α → Prop}
    (visit : ∀ tag, (∀ part ∈ tag.parts, motive part) → motive tag) (tag : Tag α) :
    motive tag :=
  visit tag fun part member =>
    have : sizeOf part < sizeOf tag := by
      cases tag with
      | plain => cases member
      | vector label value parts =>
          have smaller := List.sizeOf_lt_of_mem member
          simp only [Tag.parts] at smaller
          simp only [vector.sizeOf_spec]
          omega
    inductionOnParts visit part
termination_by sizeOf tag

theorem allAlike_iff {lefts rights : List (Tag α)} :
    allAlike lefts rights = true ↔
      List.Forall₂ (fun left right => left.alike right = true) lefts rights := by
  induction lefts generalizing rights with
  | nil => cases rights <;> simp [allAlike]
  | cons left lefts induction => cases rights <;> simp [allAlike, induction]

end Tag

/-- Step by step, one relation after the other makes a third one. -/
private theorem forall₂_compose {β : Type} {first second both : β → β → Prop}
    {lows middles highs : List β} (low : List.Forall₂ first lows middles)
    (high : List.Forall₂ second middles highs)
    (compose : ∀ low ∈ lows, ∀ middle ∈ middles, ∀ high ∈ highs,
      first low middle → second middle high → both low high) :
    List.Forall₂ both lows highs := by
  induction low generalizing highs with
  | nil =>
      cases high
      exact .nil
  | cons here rest induction =>
      cases high with
      | cons above others =>
          refine .cons (compose _ (List.mem_cons_self ..) _ (List.mem_cons_self ..) _
            (List.mem_cons_self ..) here above) (induction others ?_)
          intro low lowMember middle middleMember high highMember
          exact compose low (List.mem_cons_of_mem _ lowMember) middle
            (List.mem_cons_of_mem _ middleMember) high (List.mem_cons_of_mem _ highMember)

namespace Hierarchy

variable {hierarchy : Hierarchy α} {child parent low middle high left right : Tag α}
  {tags : Set (Tag α)}

/-! ## The two ways -/

/-- Both are vectors of one length, and each part of the first is a kind of its counterpart. -/
inductive ByParts (hierarchy : Hierarchy α) : Tag α → Tag α → Prop
  | intro {label other : Nat} {value otherValue : α} {parts otherParts : List (Tag α)} :
      List.Forall₂ (fun child parent => hierarchy.isa child parent = true) parts otherParts →
      ByParts hierarchy (.vector label value parts) (.vector other otherValue otherParts)

theorem allIsa_iff {children parents : List (Tag α)} :
    hierarchy.allIsa children parents = true ↔
      List.Forall₂ (fun child parent => hierarchy.isa child parent = true) children parents := by
  induction children generalizing parents with
  | nil => cases parents <;> simp [allIsa]
  | cons child children induction => cases parents <;> simp [allIsa, induction]

/-- A tag is a kind of what it is within and of what it is a kind of part by part. -/
theorem Sound.isa_iff (sound : hierarchy.Sound) :
    hierarchy.isa child parent = true ↔
      hierarchy.Within child parent ∨ hierarchy.ByParts child parent := by
  unfold Within
  cases child with
  | plain label value =>
      rw [isa_plain, Bool.or_eq_true, Tag.sameAs_iff, sound.above]
      exact (or_iff_left nofun).symm
  | vector label value parts =>
      cases parent with
      | plain other otherValue =>
          rw [isa_vector_plain, Bool.or_eq_true, Tag.sameAs_iff, sound.above]
          exact (or_iff_left nofun).symm
      | vector other otherValue otherParts =>
          rw [isa_vector_vector, Bool.or_eq_true, Bool.or_eq_true, Tag.sameAs_iff, sound.above,
            allIsa_iff]
          exact or_congr_right ⟨.intro, fun | .intro each => each⟩

theorem ByParts.isVector (byParts : hierarchy.ByParts child parent) :
    child.isVector = true ∧ parent.isVector = true := by
  cases byParts
  exact ⟨rfl, rfl⟩

/-- What a tag is a kind of does not depend on which of two tags that are alike is meant. -/
theorem Sound.isa_of_alike (sound : hierarchy.Sound) (alike : left.alike right = true)
    (kind : hierarchy.isa child left = true) : hierarchy.isa child right = true := by
  induction child using Tag.inductionOnParts generalizing left right with
  | visit child induction =>
      have label := Tag.label_eq_of_alike alike
      rcases sound.isa_iff.mp kind with within | byParts
      · exact sound.isa_iff.mpr (.inl (within.imp (·.trans label) (LeadsTo.congr_right label)))
      · rcases byParts with ⟨each⟩
        cases right with
        | plain => simp [Tag.alike] at alike
        | vector =>
            simp only [Tag.alike, Bool.and_eq_true, Tag.allAlike_iff] at alike
            refine sound.isa_iff.mpr (.inr (.intro (forall₂_compose each alike.2 ?_)))
            intro part member _ _ _ _ partKind partsAlike
            exact induction part member partsAlike partKind

/-! ## Orders -/

def TransitiveOn (hierarchy : Hierarchy α) (tags : Set (Tag α)) : Prop :=
  ∀ low ∈ tags, ∀ middle ∈ tags, ∀ high ∈ tags, hierarchy.isa low middle = true →
    hierarchy.isa middle high = true → hierarchy.isa low high = true

def AntisymmetricOn (hierarchy : Hierarchy α) (tags : Set (Tag α)) : Prop :=
  ∀ left ∈ tags, ∀ right ∈ tags, hierarchy.isa left right = true →
    hierarchy.isa right left = true → left.label = right.label

/-- A set that has the parts of its vectors, and in which vectors with equal parts are equal. -/
structure Vocabulary (tags : Set (Tag α)) : Prop where
  parts : ∀ tag ∈ tags, ∀ part ∈ tag.parts, part ∈ tags
  label : ∀ left ∈ tags, ∀ right ∈ tags, left.isVector = true → right.isVector = true →
    left.parts.map Tag.label = right.parts.map Tag.label → left.label = right.label

/-- Two steps up, of which one goes along links, or to an equal tag, and the other part by
part. -/
inductive Turns (hierarchy : Hierarchy α) (low middle high : Tag α) : Prop
  | toParts (within : hierarchy.Within low middle) (byParts : hierarchy.ByParts middle high)
  | fromParts (byParts : hierarchy.ByParts low middle) (within : hierarchy.Within middle high)

/-- Two steps make one if two steps that turn do. -/
theorem Sound.transitiveOn_iff (sound : hierarchy.Sound) (vocabulary : Vocabulary tags) :
    hierarchy.TransitiveOn tags ↔
      ∀ low ∈ tags, ∀ middle ∈ tags, ∀ high ∈ tags, hierarchy.Turns low middle high →
        hierarchy.isa low high = true := by
  constructor
  · intro transitive low lowIn middle middleIn high highIn turns
    apply transitive low lowIn middle middleIn high highIn
    all_goals
      cases turns with
      | toParts within byParts => simp [sound.isa_iff, within, byParts]
      | fromParts byParts within => simp [sound.isa_iff, within, byParts]
  · intro turns low lowIn middle middleIn high highIn first second
    induction low using Tag.inductionOnParts generalizing middle high with
    | visit low induction =>
        rcases sound.isa_iff.mp first with within | byParts
        · rcases sound.isa_iff.mp second with further | across
          · exact sound.isa_iff.mpr (.inl (within.trans further))
          · exact turns low lowIn middle middleIn high highIn (.toParts within across)
        · rcases sound.isa_iff.mp second with further | across
          · exact turns low lowIn middle middleIn high highIn (.fromParts byParts further)
          · rcases byParts with ⟨each⟩
            rcases across with ⟨others⟩
            refine sound.isa_iff.mpr (.inr (.intro (forall₂_compose each others ?_)))
            intro part member between betweenMember upper upperMember
            exact induction part member (vocabulary.parts _ lowIn part member) between
              (vocabulary.parts _ middleIn between betweenMember) upper
              (vocabulary.parts _ highIn upper upperMember)

private theorem map_label_eq {lefts rights : List (Tag α)}
    (up : List.Forall₂ (fun left right => hierarchy.isa left right = true) lefts rights)
    (down : List.Forall₂ (fun right left => hierarchy.isa right left = true) rights lefts)
    (same : ∀ left ∈ lefts, ∀ right ∈ rights, hierarchy.isa left right = true →
      hierarchy.isa right left = true → left.label = right.label) :
    lefts.map Tag.label = rights.map Tag.label := by
  induction up with
  | nil => rfl
  | cons here rest induction =>
      cases down with
      | cons back others =>
          rw [List.map_cons, List.map_cons, same _ (List.mem_cons_self ..) _
            (List.mem_cons_self ..) here back, induction others ?_]
          intro left leftMember right rightMember
          exact same left (List.mem_cons_of_mem _ leftMember) right
            (List.mem_cons_of_mem _ rightMember)

/-- There is a circle only if links lead to a tag from which there is a way back part by
part. -/
theorem Sound.antisymmetricOn_iff (sound : hierarchy.Sound) (vocabulary : Vocabulary tags) :
    hierarchy.AntisymmetricOn tags ↔
      ∀ low ∈ tags, ∀ high ∈ tags, hierarchy.LeadsTo low high → ¬hierarchy.ByParts high low := by
  constructor
  · intro antisymmetric low lowIn high highIn leads back
    refine sound.acyclic.label_ne leads (antisymmetric low lowIn high highIn ?_ ?_)
    · exact sound.isa_iff.mpr (.inl (.inr leads))
    · exact sound.isa_iff.mpr (.inr back)
  · intro noWayBack left leftIn right rightIn first second
    induction left using Tag.inductionOnParts generalizing right with
    | visit left induction =>
        rcases sound.isa_iff.mp first with (same | leads) | byParts
        · exact same
        · rcases sound.isa_iff.mp second with (same | back) | back
          · exact same.symm
          · exact absurd (leads.trans back) (sound.acyclic left)
          · exact absurd back (noWayBack left leftIn right rightIn leads)
        · rcases sound.isa_iff.mp second with (same | back) | back
          · exact same.symm
          · exact absurd byParts (noWayBack right rightIn left leftIn back)
          · refine vocabulary.label left leftIn right rightIn byParts.isVector.1
              byParts.isVector.2 ?_
            rcases byParts with ⟨each⟩
            rcases back with ⟨others⟩
            refine map_label_eq each others fun part member other otherMember => ?_
            exact induction part member (vocabulary.parts _ leftIn part member) other
              (vocabulary.parts _ rightIn other otherMember)

/-- Where no vector is linked to anything and equal tags are alike there are no turns, and no
way back. -/
theorem Sound.ordered_of_unlinked (sound : hierarchy.Sound) (vocabulary : Vocabulary tags)
    (unlinked : ∀ low ∈ tags, ∀ high ∈ tags, hierarchy.LeadsTo low high →
      low.isVector = false ∧ high.isVector = false)
    (alike : ∀ left ∈ tags, ∀ right ∈ tags, left.label = right.label →
      left.alike right = true) :
    hierarchy.TransitiveOn tags ∧ hierarchy.AntisymmetricOn tags := by
  constructor
  · refine (sound.transitiveOn_iff vocabulary).mpr ?_
    intro low lowIn middle middleIn high highIn turns
    cases turns with
    | toParts within byParts =>
        rcases within with same | leads
        · rw [isa_eq_of_alike hierarchy low middle high (alike low lowIn middle middleIn same)]
          exact sound.isa_iff.mpr (.inr byParts)
        · have plain := (unlinked low lowIn middle middleIn leads).2
          rw [byParts.isVector.1] at plain
          cases plain
    | fromParts byParts within =>
        rcases within with same | leads
        · exact sound.isa_of_alike (alike middle middleIn high highIn same)
            (sound.isa_iff.mpr (.inr byParts))
        · have plain := (unlinked middle middleIn high highIn leads).1
          rw [byParts.isVector.2] at plain
          cases plain
  · refine (sound.antisymmetricOn_iff vocabulary).mpr ?_
    intro low lowIn high highIn leads byParts
    have plain := (unlinked low lowIn high highIn leads).1
    rw [byParts.isVector.2] at plain
    cases plain

section

private def first : Tag Unit := .plain 0 ()
private def second : Tag Unit := .plain 1 ()
private def third : Tag Unit := .plain 2 ()
private def ofFirst : Tag Unit := .vector 3 () [first]
private def ofSecond : Tag Unit := .vector 4 () [second]

def vectorLinks : List (Change Unit) :=
  [.derive first second, .derive ofSecond third, .derive ofSecond ofFirst]

def vectorTags : Set (Tag Unit) := {first, second, third, ofFirst, ofSecond}

end

end Hierarchy

end LispRuntime
