import LispRuntime.Proofs.Collection.Tables
import Mathlib.Logic.Function.Basic

/-! A sorted table while its elements are added and removed. Keys are compared only when this is
done, and what a comparison comes to may depend on the world, so an element stands where its key
belonged when it was added. If keys always compare as some data do, the table is in the order of
these data, and it has exactly what was added last for each of them. -/

namespace LispRuntime

variable {ε : Type}

/-! ## What is in a table -/

namespace Table

variable {keyOf : ε → Datum} {new element : ε} {elements : List ε} {key : Datum}

/-- An element of a table where keys are distinct is the only one with its key. -/
theorem ne_of_nodup_cons {first : ε} {rest : List ε}
    (distinct : ((first :: rest).map keyOf).Nodup) (member : element ∈ rest) :
    keyOf element ≠ keyOf first := by
  rintro same
  exact (List.nodup_cons.mp distinct).1 (same ▸ List.mem_map_of_mem member)

theorem mem_put_iff (distinct : (elements.map keyOf).Nodup) :
    element ∈ put keyOf new elements ↔
      element = new ∨ element ∈ elements ∧ keyOf element ≠ keyOf new := by
  induction elements with
  | nil => simp [put]
  | cons first rest induction =>
      have apart : element ∈ rest → keyOf element ≠ keyOf first := ne_of_nodup_cons distinct
      rw [put]
      split
      case isTrue same =>
        rw [same] at apart
        grind
      case isFalse different =>
        rw [List.mem_cons, induction (List.nodup_cons.mp distinct).2]
        grind

theorem mem_drop_iff (distinct : (elements.map keyOf).Nodup) :
    element ∈ drop keyOf key elements ↔ element ∈ elements ∧ keyOf element ≠ key := by
  induction elements with
  | nil => simp [drop]
  | cons first rest induction =>
      have apart : element ∈ rest → keyOf element ≠ keyOf first := ne_of_nodup_cons distinct
      have dropped := induction (List.nodup_cons.mp distinct).2
      rw [drop] at dropped ⊢
      by_cases same : keyOf first = key
      · rw [List.eraseP_cons, decide_eq_true same, cond_true]
        grind
      · rw [List.eraseP_cons, decide_eq_false same, cond_false, List.mem_cons, dropped]
        grind

end Table

/-- The elements are those that are known by their keys, in the order of the keys. -/
structure Table.Lists (keyOf : ε → Datum) (known : Datum → Option ε) (elements : List ε) :
    Prop where
  sorted : (elements.map keyOf).Pairwise (· < ·)
  mem_iff : ∀ element, element ∈ elements ↔ known (keyOf element) = some element

namespace Table.Lists

variable {keyOf : ε → Datum} {known : Datum → Option ε} {elements : List ε}

theorem empty : Lists keyOf (fun _ => none) [] where
  sorted := .nil
  mem_iff _ := by simp

theorem nodup (lists : Lists keyOf known elements) : (elements.map keyOf).Nodup :=
  lists.sorted.imp fun less => less.ne

theorem put (lists : Lists keyOf known elements) (new : ε) :
    Lists keyOf (Function.update known (keyOf new) (some new)) (putInOrder keyOf new elements) where
  sorted := putInOrder_sorted lists.sorted
  mem_iff element := by
    rw [(putInOrder_perm lists.sorted).mem_iff, mem_put_iff lists.nodup, lists.mem_iff,
      Function.update_apply]
    grind

theorem drop (lists : Lists keyOf known elements) (key : Datum) :
    Lists keyOf (Function.update known key none) (Table.drop keyOf key elements) where
  sorted := drop_sorted lists.sorted key
  mem_iff element := by
    rw [mem_drop_iff lists.nodup, lists.mem_iff, Function.update_apply]
    grind

end Table.Lists

/-! ## Where an element is put -/

namespace SortedTable

/-- An element comes into the table or takes the place of another one, by what the comparisons
with it have come to. -/
inductive Inserted (decided : ε → Ordering → Prop) (new : ε) : List ε → List ε → Prop where
  | last : Inserted decided new [] [new]
  | replaces {element : ε} {rest : List ε} (equal : decided element .eq) :
      Inserted decided new (element :: rest) (new :: rest)
  | before {element : ε} {rest : List ε} (greater : decided element .gt) :
      Inserted decided new (element :: rest) (new :: element :: rest)
  | behind {element : ε} {rest changed : List ε} (less : decided element .lt)
      (later : Inserted decided new rest changed) :
      Inserted decided new (element :: rest) (element :: changed)

inductive Erased (decided : ε → Ordering → Prop) : List ε → List ε → Prop where
  | absent : Erased decided [] []
  | here {element : ε} {rest : List ε} (equal : decided element .eq) :
      Erased decided (element :: rest) rest
  | passed {element : ε} {rest : List ε} (greater : decided element .gt) :
      Erased decided (element :: rest) (element :: rest)
  | behind {element : ε} {rest changed : List ε} (less : decided element .lt)
      (later : Erased decided rest changed) :
      Erased decided (element :: rest) (element :: changed)

section

variable {decided : ε → Ordering → Prop} {new : ε} {elements changed : List ε}

theorem Inserted.mem (inserted : Inserted decided new elements changed) :
    ∀ element ∈ changed, element = new ∨ element ∈ elements := by
  induction inserted with grind

theorem Erased.mem (erased : Erased decided elements changed) :
    ∀ element ∈ changed, element ∈ elements := by
  induction erased with grind

variable {keyOf : ε → Datum}

theorem Inserted.eq_putInOrder (inserted : Inserted decided new elements changed)
    (inOrder : ∀ element ∈ elements, ∀ order, decided element order →
      order = (keyOf element).compare (keyOf new)) :
    changed = Table.putInOrder keyOf new elements := by
  induction inserted with
  | last => rfl
  | replaces equal => rw [Table.putInOrder, ← inOrder _ (List.mem_cons_self ..) _ equal]
  | before greater => rw [Table.putInOrder, ← inOrder _ (List.mem_cons_self ..) _ greater]
  | behind less later induction =>
      rw [Table.putInOrder, ← inOrder _ (List.mem_cons_self ..) _ less,
        induction fun element member => inOrder element (List.mem_cons_of_mem _ member)]

theorem Erased.eq_drop {key : Datum} (erased : Erased decided elements changed)
    (inOrder : ∀ element ∈ elements, ∀ order, decided element order →
      order = (keyOf element).compare key)
    (sorted : (elements.map keyOf).Pairwise (· < ·)) :
    changed = Table.drop keyOf key elements := by
  induction erased with
  | absent => rfl
  | here equal =>
      have same := Datum.eq_of_compare _ _ (inOrder _ (List.mem_cons_self ..) _ equal).symm
      simp [Table.drop, same]
  | @passed element rest greater =>
      have less : key < keyOf element := by
        rw [Datum.lt_iff_compare, Datum.compare_swap,
          ← inOrder _ (List.mem_cons_self ..) _ greater]
        rfl
      refine (Table.drop_of_not_mem fun member => ?_).symm
      rcases List.mem_cons.mp member with same | member
      · exact less.ne same
      · exact (less.trans ((List.pairwise_cons.mp sorted).1 _ member)).ne rfl
  | @behind element rest changed less later induction =>
      have different : keyOf element ≠ key :=
        (Datum.lt_iff_compare.mpr (inOrder _ (List.mem_cons_self ..) _ less).symm).ne
      have dropped := induction
        (fun element member => inOrder element (List.mem_cons_of_mem _ member))
        (List.pairwise_cons.mp sorted).2
      simp [Table.drop, different, dropped]

end

/-! ### Running them -/

section

variable {machine : Machine} {good : World → Prop} {keyOf : ε → Value}
  {compare : Value → Value → Run Ordering} {decided : ε → Ordering → Prop}
  {world after : World} {new : ε} {elements changed : List ε}

theorem inserted_of_run (decides : ∀ element ∈ elements, ∀ world order after, good world →
      compare (keyOf element) (keyOf new) machine world = some (order, after) →
      good after ∧ decided element order)
    (isGood : good world)
    (ran : insert keyOf compare new elements machine world = some (changed, after)) :
    good after ∧ Inserted decided new elements changed := by
  induction elements generalizing world changed with
  | nil =>
      cases ran
      exact ⟨isGood, .last⟩
  | cons element rest induction =>
      rcases Run.exists_of_bind ran with ⟨order, between, compared, ran⟩
      rcases decides element (List.mem_cons_self ..) _ _ _ isGood compared with ⟨still, isOrder⟩
      cases order with
      | eq =>
          cases ran
          exact ⟨still, .replaces isOrder⟩
      | gt =>
          cases ran
          exact ⟨still, .before isOrder⟩
      | lt =>
          rcases Run.exists_of_bind ran with ⟨_, _, inserted, rest⟩
          cases rest
          rcases induction (fun other member => decides other (List.mem_cons_of_mem _ member))
            still inserted with ⟨last, later⟩
          exact ⟨last, .behind isOrder later⟩

theorem erased_of_run {sought : Value}
    (decides : ∀ element ∈ elements, ∀ world order after, good world →
      compare (keyOf element) sought machine world = some (order, after) →
      good after ∧ decided element order)
    (isGood : good world)
    (ran : erase keyOf compare sought elements machine world = some (changed, after)) :
    good after ∧ Erased decided elements changed := by
  induction elements generalizing world changed with
  | nil =>
      cases ran
      exact ⟨isGood, .absent⟩
  | cons element rest induction =>
      rcases Run.exists_of_bind ran with ⟨order, between, compared, ran⟩
      rcases decides element (List.mem_cons_self ..) _ _ _ isGood compared with ⟨still, isOrder⟩
      cases order with
      | eq =>
          cases ran
          exact ⟨still, .here isOrder⟩
      | gt =>
          cases ran
          exact ⟨still, .passed isOrder⟩
      | lt =>
          rcases Run.exists_of_bind ran with ⟨_, _, erased, rest⟩
          cases rest
          rcases induction (fun other member => decides other (List.mem_cons_of_mem _ member))
            still erased with ⟨last, later⟩
          exact ⟨last, .behind isOrder later⟩

end

end SortedTable

end LispRuntime
