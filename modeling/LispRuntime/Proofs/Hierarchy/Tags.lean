import LispRuntime.Hierarchy.Tag
import Mathlib.Data.List.Nodup

/-! Sets and tables of tags see nothing but labels. What a set has and what a table
finds is said here once for each way to change them. -/

namespace LispRuntime

variable {α β : Type}

namespace Tag

@[simp] theorem sameAs_iff {left right : Tag α} :
    left.sameAs right = true ↔ left.label = right.label := by
  simp [sameAs]

@[simp] theorem sameAs_eq_false_iff {left right : Tag α} :
    left.sameAs right = false ↔ left.label ≠ right.label := by
  simp [sameAs]

end Tag

namespace TagSet

variable {set : TagSet α} {tag other : Tag α}

theorem has_iff : TagSet.has set tag = true ↔ ∃ member ∈ set, tag.label = member.label := by
  simp [TagSet.has]

theorem has_of_mem (member : tag ∈ set) : TagSet.has set tag = true :=
  has_iff.mpr ⟨tag, member, rfl⟩

theorem has_congr (same : tag.label = other.label) :
    TagSet.has set tag = TagSet.has set other := by
  rw [Bool.eq_iff_iff, has_iff, has_iff, same]

@[simp] theorem has_nil : TagSet.has ([] : TagSet α) tag = false := rfl

theorem has_cons {rest : TagSet α} :
    TagSet.has (other :: rest) tag = true ↔
      tag.label = other.label ∨ TagSet.has rest tag = true := by
  simp [TagSet.has]

@[simp] theorem has_append {rest : TagSet α} :
    TagSet.has (set ++ rest) tag = (TagSet.has set tag || TagSet.has rest tag) :=
  List.any_append

@[simp] theorem has_singleton : TagSet.has [other] tag = tag.sameAs other := by
  simp [TagSet.has]

@[simp] theorem has_insert :
    TagSet.has (TagSet.insert set other) tag = true ↔
      TagSet.has set tag = true ∨ tag.label = other.label := by
  unfold TagSet.insert
  split
  case isTrue present =>
    constructor
    · exact .inl
    · rintro (has | same)
      · exact has
      · rwa [has_congr same]
  case isFalse => simp

@[simp] theorem has_insertAll {tags : List (Tag α)} :
    TagSet.has (TagSet.insertAll set tags) tag = true ↔
      TagSet.has set tag = true ∨ TagSet.has tags tag = true := by
  unfold TagSet.insertAll
  induction tags generalizing set with
  | nil => simp
  | cons first rest induction =>
      rw [List.foldl_cons, induction, has_insert, has_cons, or_assoc]

@[simp] theorem has_erase :
    TagSet.has (TagSet.erase set other) tag = true ↔
      TagSet.has set tag = true ∧ tag.label ≠ other.label := by
  simp only [has_iff, TagSet.erase, List.mem_filter, Bool.not_eq_true', ← Bool.not_eq_true,
    Tag.sameAs_iff]
  constructor
  · rintro ⟨member, ⟨inside, different⟩, same⟩
    exact ⟨⟨member, inside, same⟩, fun equal => different (equal.symm.trans same)⟩
  · rintro ⟨⟨member, inside, same⟩, different⟩
    exact ⟨member, ⟨inside, fun equal => different (same.trans equal.symm)⟩, same⟩

theorem isSubsetOf_iff {left right : TagSet α} :
    TagSet.isSubsetOf left right = true ↔
      ∀ tag, TagSet.has left tag = true → TagSet.has right tag = true := by
  rw [TagSet.isSubsetOf, List.all_eq_true]
  constructor
  · intro each tag has
    rcases has_iff.mp has with ⟨member, inside, same⟩
    rw [has_congr same]
    exact each member inside
  · exact fun all tag member => all tag (has_of_mem member)

/-! No two members of a set have one label. -/

abbrev Distinct (set : TagSet α) : Prop := (set.map Tag.label).Nodup

theorem has_iff_label_mem : TagSet.has set tag = true ↔ tag.label ∈ set.map Tag.label := by
  rw [has_iff, List.mem_map]
  exact exists_congr fun _ => and_congr_right fun _ => eq_comm

theorem Distinct.insert (distinct : Distinct set) (tag : Tag α) :
    Distinct (TagSet.insert set tag) := by
  unfold TagSet.insert
  split
  case isTrue => exact distinct
  case isFalse absent =>
    rw [has_iff_label_mem] at absent
    rw [Distinct, List.map_append]
    exact List.nodup_append.mpr ⟨distinct, List.nodup_singleton _, by simp_all⟩

/-- A member that was added can be taken out again. -/
theorem erase_insert (absent : TagSet.has set tag = false) :
    TagSet.erase (TagSet.insert set tag) tag = set := by
  have others : ∀ other ∈ set, tag.label ≠ other.label := by
    simpa [TagSet.has] using absent
  rw [TagSet.insert, absent, TagSet.erase]
  simpa [List.filter_append] using others

end TagSet

namespace TagTable

variable {table : TagTable α β} {tag key : Tag α} {value : β}

theorem lookup_cons (entry : Tag α × β) (rest : TagTable α β) (tag : Tag α) :
    TagTable.lookup (entry :: rest) tag =
      if tag.label = entry.1.label then some entry.2 else TagTable.lookup rest tag := by
  by_cases same : tag.label = entry.1.label
  · simp [TagTable.lookup, same]
  · have different : tag.sameAs entry.1 = false := Tag.sameAs_eq_false_iff.mpr same
    simp [TagTable.lookup, same, different]

theorem lookup_congr (table : TagTable α β) {tag other : Tag α}
    (same : tag.label = other.label) :
    TagTable.lookup table tag = TagTable.lookup table other := by
  simp only [TagTable.lookup, Tag.sameAs, same]

theorem lookup_insert (table : TagTable α β) (key tag : Tag α) (value : β) :
    TagTable.lookup (TagTable.insert table key value) tag =
      if tag.label = key.label then some value else TagTable.lookup table tag := by
  induction table with
  | nil => rw [TagTable.insert, lookup_cons]
  | cons entry rest induction =>
      rcases entry with ⟨first, old⟩
      rw [TagTable.insert]
      by_cases here : key.label = first.label
      · rw [if_pos (Tag.sameAs_iff.mpr here), lookup_cons, lookup_cons, here]
        split <;> rfl
      · rw [if_neg (here ∘ Tag.sameAs_iff.mp), lookup_cons, lookup_cons, induction]
        by_cases same : tag.label = key.label
        · simp [same, here]
        · simp [same]

theorem lookup_erase (table : TagTable α β) (key tag : Tag α) :
    TagTable.lookup (TagTable.erase table key) tag =
      if tag.label = key.label then none else TagTable.lookup table tag := by
  induction table with
  | nil => simp [TagTable.erase, TagTable.lookup]
  | cons entry rest induction =>
      unfold TagTable.erase at induction ⊢
      rw [List.filter_cons]
      by_cases here : key.label = entry.1.label
      · have same : key.sameAs entry.1 = true := Tag.sameAs_iff.mpr here
        rw [same, lookup_cons, ← here]
        simp only [Bool.not_true, Bool.false_eq_true, if_false, induction]
        split <;> rfl
      · have different : key.sameAs entry.1 = false := Tag.sameAs_eq_false_iff.mpr here
        rw [different]
        simp only [Bool.not_false, if_true, lookup_cons, induction]
        by_cases same : tag.label = key.label
        · simp [same, here]
        · simp [same]

/-! No two entries of a table have one label. -/

abbrev Distinct (table : TagTable α β) : Prop := (table.map fun entry => entry.1.label).Nodup

theorem Distinct.cons_iff {entry : Tag α × β} {rest : TagTable α β} :
    Distinct (entry :: rest) ↔
      (∀ other ∈ rest, entry.1.label ≠ other.1.label) ∧ Distinct rest := by
  simp [Distinct, List.nodup_cons, eq_comm]

/-- A table finds just its entries. -/
theorem lookup_eq_some_iff (distinct : Distinct table) :
    TagTable.lookup table tag = some value ↔
      ∃ key, (key, value) ∈ table ∧ tag.label = key.label := by
  induction table with
  | nil => simp [TagTable.lookup]
  | cons entry rest induction =>
      rcases entry with ⟨first, old⟩
      rcases Distinct.cons_iff.mp distinct with ⟨apart, distinct⟩
      rw [lookup_cons]
      by_cases here : tag.label = first.label
      · simp only [here, if_true, Option.some.injEq, List.mem_cons, Prod.mk.injEq]
        constructor
        · exact fun same => ⟨first, .inl ⟨rfl, same.symm⟩, rfl⟩
        · rintro ⟨key, ⟨-, same⟩ | inside, label⟩
          · exact same.symm
          · exact absurd label (apart _ inside)
      · simp only [here, if_false, induction distinct, List.mem_cons, Prod.mk.injEq]
        constructor
        · exact fun ⟨key, inside, label⟩ => ⟨key, .inr inside, label⟩
        · rintro ⟨key, ⟨rfl, -⟩ | inside, label⟩
          · exact absurd label here
          · exact ⟨key, inside, label⟩

/-- In a table of sets a tag has the members of its entry. -/
theorem has_lookup_iff {table : TagTable α (TagSet α)} (distinct : Distinct table)
    {tag other : Tag α} :
    TagSet.has ((TagTable.lookup table tag).getD []) other = true ↔
      ∃ entry ∈ table, tag.label = entry.1.label ∧ TagSet.has entry.2 other = true := by
  cases found : TagTable.lookup table tag with
  | some set =>
      rcases (lookup_eq_some_iff distinct).mp found with ⟨key, member, same⟩
      constructor
      · exact fun has => ⟨_, member, same, has⟩
      · rintro ⟨⟨otherKey, otherSet⟩, inside, label, has⟩
        have again := (lookup_eq_some_iff distinct).mpr ⟨otherKey, inside, label⟩
        cases found.symm.trans again
        exact has
  | none =>
      simp only [Option.getD_none, TagSet.has_nil, Bool.false_eq_true, false_iff]
      rintro ⟨⟨key, set⟩, inside, label, -⟩
      cases found.symm.trans ((lookup_eq_some_iff distinct).mpr ⟨key, inside, label⟩)

theorem mem_insert {entry : Tag α × β} (member : entry ∈ TagTable.insert table key value) :
    entry ∈ table ∨ entry.1.label = key.label ∧ entry.2 = value := by
  induction table with
  | nil =>
      rw [TagTable.insert, List.mem_singleton] at member
      simp [member]
  | cons first rest induction =>
      rcases first with ⟨old, oldValue⟩
      rw [TagTable.insert] at member
      split at member
      case isTrue here =>
        rcases List.mem_cons.mp member with rfl | inside
        · exact .inr ⟨(Tag.sameAs_iff.mp here).symm, rfl⟩
        · exact .inl (List.mem_cons_of_mem _ inside)
      case isFalse =>
        rcases List.mem_cons.mp member with rfl | inside
        · exact .inl (List.mem_cons_self ..)
        · exact (induction inside).imp_left (List.mem_cons_of_mem _)

theorem Distinct.insert (distinct : Distinct table) (key : Tag α) (value : β) :
    Distinct (TagTable.insert table key value) := by
  induction table with
  | nil => exact List.nodup_singleton _
  | cons entry rest induction =>
      rcases entry with ⟨first, old⟩
      rw [TagTable.insert]
      split
      case isTrue => exact distinct
      case isFalse different =>
        rcases Distinct.cons_iff.mp distinct with ⟨apart, distinct⟩
        refine Distinct.cons_iff.mpr ⟨fun other member => ?_, induction distinct⟩
        rcases mem_insert member with inside | ⟨same, -⟩
        · exact apart other inside
        · exact fun equal => different (Tag.sameAs_iff.mpr (same.symm.trans equal.symm))

theorem Distinct.erase (distinct : Distinct table) (key : Tag α) :
    Distinct (TagTable.erase table key) :=
  distinct.sublist (List.filter_sublist.map _)

/-- What was put under a new key can be taken out again. -/
theorem erase_insert_of_lookup_eq_none (absent : TagTable.lookup table key = none)
    (value : β) : TagTable.erase (TagTable.insert table key value) key = table := by
  induction table with
  | nil => simp [TagTable.insert, TagTable.erase, Tag.sameAs]
  | cons entry rest induction =>
      rcases entry with ⟨first, old⟩
      rw [lookup_cons] at absent
      split at absent
      case isTrue => cases absent
      case isFalse different =>
        have notHere : key.sameAs first = false := Tag.sameAs_eq_false_iff.mpr different
        have rest := induction absent
        unfold TagTable.erase at rest ⊢
        simp [TagTable.insert, notHere, rest]

/-- What was put in place of something else can be changed back. -/
theorem insert_insert_of_lookup_eq_some {old : β}
    (present : TagTable.lookup table key = some old) (value : β) :
    TagTable.insert (TagTable.insert table key value) key old = table := by
  induction table with
  | nil => cases present
  | cons entry rest induction =>
      rcases entry with ⟨first, stored⟩
      rw [lookup_cons] at present
      split at present
      case isTrue here =>
        cases present
        simp [TagTable.insert, Tag.sameAs_iff.mpr here]
      case isFalse different =>
        have notHere : key.sameAs first = false := Tag.sameAs_eq_false_iff.mpr different
        simp [TagTable.insert, notHere, induction present]

end TagTable

end LispRuntime
