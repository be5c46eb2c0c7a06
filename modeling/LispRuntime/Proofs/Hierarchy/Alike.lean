import LispRuntime.Proofs.Hierarchy.Changes

/-! Equal values need not be made alike: a list and a vector of the same elements are equal,
but only the vector is compared with other vectors element by element. What a tag is a kind of
depends on how it is made, so that tags with one label can be told apart by a third one. -/

namespace LispRuntime

variable {α : Type}

namespace Tag

mutual
/-- The same label, and the same labels in all parts. -/
def alike : Tag α → Tag α → Bool
  | .plain left _, .plain right _ => left == right
  | .vector left _ leftParts, .vector right _ rightParts =>
      left == right && allAlike leftParts rightParts
  | _, _ => false

def allAlike : List (Tag α) → List (Tag α) → Bool
  | [], [] => true
  | left :: lefts, right :: rights => left.alike right && allAlike lefts rights
  | _, _ => false
end

theorem label_eq_of_alike {left right : Tag α} (alike : left.alike right = true) :
    left.label = right.label := by
  cases left <;> cases right <;> simp_all [Tag.alike, label]

end Tag

namespace Hierarchy

variable {hierarchy : Hierarchy α}

theorem isa_plain (label : Nat) (value : α) (key : Tag α) :
    hierarchy.isa (.plain label value) key =
      ((Tag.plain label value).sameAs key ||
        TagSet.has (hierarchy.ancestorsOf (.plain label value)) key) := by
  cases key <;> simp [isa]

theorem isa_vector_plain (label other : Nat) (value otherValue : α) (parts : List (Tag α)) :
    hierarchy.isa (.vector label value parts) (.plain other otherValue) =
      ((Tag.vector label value parts).sameAs (.plain other otherValue) ||
        TagSet.has (hierarchy.ancestorsOf (.vector label value parts))
          (.plain other otherValue)) := by
  simp [isa]

theorem isa_vector_vector (label other : Nat) (value otherValue : α)
    (parts otherParts : List (Tag α)) :
    hierarchy.isa (.vector label value parts) (.vector other otherValue otherParts) =
      ((Tag.vector label value parts).sameAs (.vector other otherValue otherParts) ||
        TagSet.has (hierarchy.ancestorsOf (.vector label value parts))
          (.vector other otherValue otherParts) ||
        hierarchy.allIsa parts otherParts) := by
  rw [isa]

theorem allIsa_self (hierarchy : Hierarchy α) (tags : List (Tag α)) :
    hierarchy.allIsa tags tags = true := by
  induction tags with
  | nil => rw [allIsa]
  | cons tag rest induction =>
      rw [allIsa, induction, Bool.and_true]
      exact hierarchy.isa_of_label_eq rfl

/-! ## Tags that are alike -/

mutual
/-- Tags that are alike are of the same kinds. -/
theorem isa_eq_of_alike (hierarchy : Hierarchy α) (left right key : Tag α)
    (alike : left.alike right = true) : hierarchy.isa left key = hierarchy.isa right key := by
  have label := Tag.label_eq_of_alike alike
  have same : left.sameAs key = right.sameAs key := by simp only [Tag.sameAs, label]
  have above : hierarchy.ancestorsOf left = hierarchy.ancestorsOf right := ancestorsOf_congr label
  cases left with
  | plain =>
      cases right with
      | plain => rw [isa_plain, isa_plain, same, above]
      | vector => simp [Tag.alike] at alike
  | vector _ _ lefts =>
      cases right with
      | plain => simp [Tag.alike] at alike
      | vector _ _ rights =>
          cases key with
          | plain => rw [isa_vector_plain, isa_vector_plain, same, above]
          | vector _ _ keys =>
              simp only [Tag.alike, Bool.and_eq_true] at alike
              rw [isa_vector_vector, isa_vector_vector, same, above,
                allIsa_eq_of_allAlike hierarchy lefts rights keys alike.2]

theorem allIsa_eq_of_allAlike (hierarchy : Hierarchy α) (lefts rights keys : List (Tag α))
    (alike : Tag.allAlike lefts rights = true) :
    hierarchy.allIsa lefts keys = hierarchy.allIsa rights keys := by
  cases lefts with
  | nil =>
      cases rights with
      | nil => rfl
      | cons => simp [Tag.allAlike] at alike
  | cons left lefts =>
      cases rights with
      | nil => simp [Tag.allAlike] at alike
      | cons right rights =>
          simp only [Tag.allAlike, Bool.and_eq_true] at alike
          cases keys with
          | nil => simp [allIsa]
          | cons key keys =>
              rw [allIsa, allIsa, isa_eq_of_alike hierarchy left right key alike.1,
                allIsa_eq_of_allAlike hierarchy lefts rights keys alike.2]
end

/-! ## Tags that are not -/

/-- Without links, a vector is a kind of another one only element by element. -/
theorem isa_empty_vector {label fresh : Nat} (value other : α) (parts keys : List (Tag α))
    (different : label ≠ fresh) :
    empty.isa (.vector label value parts) (.vector fresh other keys) =
      empty.allIsa parts keys := by
  simp [isa_vector_vector, Tag.sameAs, Tag.label, ancestorsOf, empty, TagTable.lookup, different]

theorem isa_empty_plain {label : Nat} {value : α} {key : Tag α} :
    empty.isa (.plain label value) key = (label == key.label) := by
  simp [isa_plain, Tag.sameAs, Tag.label, ancestorsOf, empty, TagTable.lookup]

theorem isa_empty_to_plain {label : Nat} {value : α} {tag : Tag α} :
    empty.isa tag (.plain label value) = (tag.label == label) := by
  cases tag with
  | plain => rw [isa_empty_plain, Tag.label, Tag.label]
  | vector =>
      simp [isa_vector_plain, Tag.sameAs, Tag.label, ancestorsOf, empty, TagTable.lookup]

/-- A vector and something that is no vector are told apart by a vector of the same parts. -/
theorem exists_isa_empty_ne (label : Nat) (value other : α) (parts : List (Tag α)) :
    ∃ key, empty.isa (.vector label value parts) key = true ∧
      empty.isa (.plain label other) key = false := by
  refine ⟨.vector (label + 1) value parts, ?_, ?_⟩
  · rw [isa_empty_vector value value parts parts (Nat.ne_of_lt (Nat.lt_succ_self label)),
      allIsa_self]
  · rw [isa_empty_plain]
    simp [Tag.label]

mutual
/-- Tags that are of the same kinds where there is no link at all are alike. -/
theorem alike_of_isa_eq (left right : Tag α)
    (same : ∀ key, empty.isa left key = empty.isa right key) : left.alike right = true := by
  have label : left.label = right.label := by
    have kind := same (.plain right.label right.value)
    rw [isa_empty_to_plain, isa_empty_to_plain, beq_self_eq_true] at kind
    exact beq_iff_eq.mp kind
  cases left with
  | plain leftLabel leftValue =>
      cases right with
      | plain => exact beq_iff_eq.mpr label
      | vector rightLabel rightValue rights =>
          cases label
          rcases exists_isa_empty_ne leftLabel rightValue leftValue rights with
            ⟨key, isKind, isNot⟩
          rw [same, isKind] at isNot
          cases isNot
  | vector leftLabel leftValue lefts =>
      cases right with
      | plain rightLabel rightValue =>
          cases label
          rcases exists_isa_empty_ne leftLabel leftValue rightValue lefts with
            ⟨key, isKind, isNot⟩
          rw [← same, isKind] at isNot
          cases isNot
      | vector rightLabel rightValue rights =>
          cases label
          have parts : ∀ keys, empty.allIsa lefts keys = empty.allIsa rights keys := by
            intro keys
            have different := Nat.ne_of_lt (Nat.lt_succ_self leftLabel)
            rw [← isa_empty_vector leftValue leftValue lefts keys different, same,
              isa_empty_vector rightValue leftValue rights keys different]
          rw [Tag.alike, allAlike_of_allIsa_eq lefts rights parts, beq_self_eq_true]
          rfl

theorem allAlike_of_allIsa_eq (lefts rights : List (Tag α))
    (same : ∀ keys, empty.allIsa lefts keys = empty.allIsa rights keys) :
    Tag.allAlike lefts rights = true := by
  cases lefts with
  | nil =>
      cases rights with
      | nil => rfl
      | cons => simpa [allIsa] using same []
  | cons left lefts =>
      cases rights with
      | nil => simpa [allIsa] using same []
      | cons right rights =>
          have split : ∀ key keys, (empty.isa left key && empty.allIsa lefts keys) =
              (empty.isa right key && empty.allIsa rights keys) := by
            intro key keys
            rw [← allIsa, ← allIsa, same]
          -- The right parts are kinds of the left ones, so each side can be asked for alone.
          have across := split left lefts
          rw [allIsa_self, empty.isa_of_label_eq rfl, Bool.and_true, eq_comm,
            Bool.and_eq_true] at across
          have first : left.alike right = true := by
            apply alike_of_isa_eq
            intro key
            have kind := split key lefts
            rwa [allIsa_self, across.2, Bool.and_true, Bool.and_true] at kind
          have others : Tag.allAlike lefts rights = true := by
            apply allAlike_of_allIsa_eq
            intro keys
            have kind := split left keys
            rwa [empty.isa_of_label_eq rfl, across.1, Bool.true_and, Bool.true_and] at kind
          rw [Tag.allAlike, first, others]
          rfl
end

/-- Tags are alike exactly if no hierarchy can tell them apart. -/
theorem alike_iff_isa_eq (left right : Tag α) :
    left.alike right = true ↔
      ∀ hierarchy : Hierarchy α, ∀ key, hierarchy.isa left key = hierarchy.isa right key :=
  ⟨fun alike hierarchy key => isa_eq_of_alike hierarchy left right key alike,
    fun same => alike_of_isa_eq left right (same empty)⟩

end Hierarchy

end LispRuntime
