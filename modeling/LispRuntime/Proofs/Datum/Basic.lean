import LispRuntime.Proofs.Datum.Leaf
import Mathlib.Data.List.Sort

/-! A datum is what is left of a value when it no longer matters how the value
is represented, where it is, and what metadata it has. A sequence is its
elements, a set its elements in ascending order, and a map its entries in
ascending order, each a sequence of a key and a value. Two values are to be
equal when they stand for one datum, they are ordered as their data are, and a
hash is a function of the datum alone. -/

namespace LispRuntime

inductive Datum where
  | leaf (value : Leaf)
  | sequence (items : List Datum)
  | map (entries : List Datum)
  | set (items : List Datum)
deriving Repr, Inhabited

namespace Datum

/-- An entry of a map. -/
def entry (key value : Datum) : Datum := sequence [key, value]

/-- What a datum is made of. -/
def items : Datum → List Datum
  | leaf _ => []
  | sequence items | map items | set items => items

/-- Ranks order data of different types. -/
def rank : Datum → Nat
  | leaf value => value.rank
  | sequence _ => 7
  | map _ => 8
  | set _ => 9

/-- What is compared before the items are: the rank, then what a leaf is or how
large a map or a set is. -/
def head : Datum → OrderKey
  | leaf value => value.key
  | sequence _ => [[7]]
  | map entries => [[8], [entries.length]]
  | set items => [[9], [items.length]]

mutual
/-- A property holds of every datum if it holds of a datum whenever it holds of
its items. -/
theorem induct {Property : Datum → Prop}
    (step : ∀ datum, (∀ item ∈ datum.items, Property item) → Property datum) :
    ∀ datum, Property datum
  | leaf value => step (leaf value) (fun _ member => nomatch member)
  | sequence items => step (sequence items) (inductItems step items)
  | map entries => step (map entries) (inductItems step entries)
  | set items => step (set items) (inductItems step items)

theorem inductItems {Property : Datum → Prop}
    (step : ∀ datum, (∀ item ∈ datum.items, Property item) → Property datum) :
    ∀ items : List Datum, ∀ item ∈ items, Property item
  | [], _, member => nomatch member
  | first :: rest, item, member =>
      (List.mem_cons.mp member).elim (fun equal => equal ▸ induct step first)
        (inductItems step rest item)
end

/-- Data of one kind, and leaves of one type. -/
inductive SameKind : Datum → Datum → Prop
  | leaves {left right : Leaf} (ranks : left.rank = right.rank) :
      SameKind (leaf left) (leaf right)
  | sequences (left right : List Datum) : SameKind (sequence left) (sequence right)
  | maps (left right : List Datum) : SameKind (map left) (map right)
  | sets (left right : List Datum) : SameKind (set left) (set right)

theorem sameKind_of_rank_eq {left right : Datum} (ranks : left.rank = right.rank) :
    SameKind left right := by
  cases left <;> cases right
  case leaf.leaf => exact .leaves ranks
  case sequence.sequence => exact .sequences _ _
  case map.map => exact .maps _ _
  case set.set => exact .sets _ _
  case leaf.sequence value _ | leaf.map value _ | leaf.set value _
      | sequence.leaf value | map.leaf value | set.leaf value =>
    have := value.rank_lt_or_gt
    simp only [rank] at ranks
    omega
  all_goals cases ranks

theorem head_eq (datum : Datum) : ∃ rest, datum.head = [(datum.rank : Int)] :: rest := by
  cases datum <;> exact ⟨_, rfl⟩

theorem rank_eq_of_head {left right : Datum} (heads : left.head = right.head) :
    left.rank = right.rank := by
  rcases left.head_eq with ⟨leftRest, leftHead⟩
  rcases right.head_eq with ⟨rightRest, rightHead⟩
  rw [leftHead, rightHead] at heads
  simpa using (List.cons.inj heads).1

/-- Data with equal heads are of one kind, so that their items tell them apart. -/
theorem eq_of_head_of_items {left right : Datum} (heads : left.head = right.head)
    (items : left.items = right.items) : left = right := by
  cases sameKind_of_rank_eq (rank_eq_of_head heads) with
  | leaves => exact congrArg leaf (Leaf.key_injective heads)
  | sequences => exact congrArg sequence items
  | maps => exact congrArg map items
  | sets => exact congrArg set items

/-! ## The order -/

mutual
protected def compare : Datum → Datum → Ordering
  | leaf left, leaf right => left.compare right
  | sequence left, sequence right => compareItems left right
  | map left, map right =>
      (Ord.compare left.length right.length).then (compareItems left right)
  | set left, set right =>
      (Ord.compare left.length right.length).then (compareItems left right)
  | left, right => Ord.compare left.rank right.rank

/-- The first difference decides, and then the length. -/
def compareItems : List Datum → List Datum → Ordering
  | [], [] => .eq
  | [], _ :: _ => .lt
  | _ :: _, [] => .gt
  | left :: leftRest, right :: rightRest =>
      (left.compare right).then (compareItems leftRest rightRest)
end

theorem compare_of_rank_ne {left right : Datum} (different : left.rank ≠ right.rank) :
    left.compare right = Ord.compare left.rank right.rank := by
  cases left <;> cases right <;> simp only [Datum.compare]
  case leaf.leaf => exact Leaf.compare_of_rank_ne different
  all_goals exact absurd rfl different

theorem head_compare_of_rank_ne {left right : Datum} (different : left.rank ≠ right.rank) :
    Ord.compare left.head right.head = Ord.compare left.rank right.rank := by
  rcases left.head_eq with ⟨leftRest, leftHead⟩
  rcases right.head_eq with ⟨rightRest, rightHead⟩
  rw [leftHead, rightHead]
  simp only [List.compare_cons_cons, OrderKey.compare_cast]
  rcases Nat.lt_or_gt_of_ne different with less | greater
  · rw [Nat.compare_eq_lt.mpr less]
    rfl
  · rw [Nat.compare_eq_gt.mpr greater]
    rfl

/-- Heads decide, and then items. -/
theorem compare_eq (left right : Datum) :
    left.compare right =
      (Ord.compare left.head right.head).then (compareItems left.items right.items) := by
  by_cases ranks : left.rank = right.rank
  · cases sameKind_of_rank_eq ranks with
    | leaves => simp [Datum.compare, Leaf.compare, head, items, compareItems]
    | sequences => simp [Datum.compare, head, items]
    | maps | sets =>
        simp [Datum.compare, head, items, List.compare_cons_cons, OrderKey.compare_cast]
  · rw [compare_of_rank_ne ranks, head_compare_of_rank_ne ranks]
    rcases Nat.lt_or_gt_of_ne ranks with less | greater
    · rw [Nat.compare_eq_lt.mpr less]
      rfl
    · rw [Nat.compare_eq_gt.mpr greater]
      rfl

private theorem compareItems_swap {left : List Datum}
    (swap : ∀ item ∈ left, ∀ other, item.compare other = (other.compare item).swap)
    (right : List Datum) : compareItems left right = (compareItems right left).swap := by
  induction left generalizing right with
  | nil => cases right <;> rfl
  | cons head tail induction =>
      cases right with
      | nil => rfl
      | cons other rest =>
          rw [compareItems, compareItems, Ordering.swap_then,
            swap head (List.mem_cons_self ..) other,
            induction (fun item member => swap item (List.mem_cons_of_mem _ member)) rest]

theorem compare_swap (left right : Datum) :
    left.compare right = (right.compare left).swap := by
  induction left using induct generalizing right with
  | step left induction =>
      rw [compare_eq left, compare_eq right, Ordering.swap_then,
        Std.OrientedOrd.eq_swap (a := left.head), compareItems_swap induction]

private theorem eq_of_compareItems {left : List Datum}
    (equal : ∀ item ∈ left, ∀ other, item.compare other = .eq → item = other)
    (right : List Datum) (same : compareItems left right = .eq) : left = right := by
  induction left generalizing right with
  | nil =>
      cases right with
      | nil => rfl
      | cons => cases same
  | cons head tail induction =>
      cases right with
      | nil => cases same
      | cons other rest =>
          rw [compareItems, Ordering.then_eq_eq] at same
          rw [equal head (List.mem_cons_self ..) other same.1,
            induction (fun item member => equal item (List.mem_cons_of_mem _ member)) rest
              same.2]

theorem eq_of_compare (left right : Datum) (same : left.compare right = .eq) :
    left = right := by
  induction left using induct generalizing right with
  | step left induction =>
      rw [compare_eq, Ordering.then_eq_eq] at same
      exact eq_of_head_of_items (Std.LawfulEqOrd.eq_of_compare same.1)
        (eq_of_compareItems induction _ same.2)

private theorem compareItems_lt_trans {first : List Datum}
    (trans : ∀ item ∈ first, ∀ second third,
      item.compare second = .lt → second.compare third = .lt → item.compare third = .lt)
    (second third : List Datum) (less : compareItems first second = .lt)
    (lessAgain : compareItems second third = .lt) : compareItems first third = .lt := by
  induction first generalizing second third with
  | nil =>
      cases third with
      | nil => cases second <;> cases lessAgain
      | cons => rfl
  | cons head tail induction =>
      cases second with
      | nil => cases less
      | cons other rest =>
          cases third with
          | nil => cases lessAgain
          | cons last final =>
              rw [compareItems, Ordering.then_eq_lt] at less lessAgain ⊢
              rcases less with headLess | ⟨headSame, tailLess⟩
              · rcases lessAgain with otherLess | ⟨otherSame, _⟩
                · exact .inl (trans head (List.mem_cons_self ..) _ _ headLess otherLess)
                · exact .inl (eq_of_compare _ _ otherSame ▸ headLess)
              · rw [eq_of_compare _ _ headSame]
                rcases lessAgain with otherLess | ⟨otherSame, restLess⟩
                · exact .inl otherLess
                · exact .inr ⟨otherSame, induction
                    (fun item member => trans item (List.mem_cons_of_mem _ member))
                    rest final tailLess restLess⟩

theorem compare_lt_trans (first second third : Datum) (less : first.compare second = .lt)
    (lessAgain : second.compare third = .lt) : first.compare third = .lt := by
  induction first using induct generalizing second third with
  | step first induction =>
      rw [compare_eq, Ordering.then_eq_lt] at less lessAgain ⊢
      rcases less with headLess | ⟨headSame, itemsLess⟩
      · rcases lessAgain with otherLess | ⟨otherSame, _⟩
        · exact .inl (Std.TransCmp.lt_trans headLess otherLess)
        · exact .inl (Std.LawfulEqOrd.eq_of_compare otherSame ▸ headLess)
      · rw [Std.LawfulEqOrd.eq_of_compare headSame]
        rcases lessAgain with otherLess | ⟨otherSame, itemsLessAgain⟩
        · exact .inl otherLess
        · exact .inr ⟨otherSame,
            compareItems_lt_trans induction _ _ itemsLess itemsLessAgain⟩

theorem compare_self (datum : Datum) : datum.compare datum = .eq := by
  have swap := compare_swap datum datum
  cases same : datum.compare datum <;> rw [same] at swap <;> first | rfl | cases swap

instance : Std.TransCmp Datum.compare where
  eq_swap {left right} := compare_swap left right
  isLE_trans {first second third} less lessAgain := by
    rcases Ordering.isLE_iff_eq_lt_or_eq_eq.mp less with less | same
    · rcases Ordering.isLE_iff_eq_lt_or_eq_eq.mp lessAgain with lessAgain | same
      · rw [compare_lt_trans _ _ _ less lessAgain]
        rfl
      · rw [← eq_of_compare _ _ same, less]
        rfl
    · rwa [eq_of_compare _ _ same]

instance : Std.LawfulEqCmp Datum.compare where
  compare_self {datum} := compare_self datum
  eq_of_compare {left right} same := eq_of_compare left right same

instance : DecidableEq Datum := fun left right =>
  decidable_of_iff (left.compare right = .eq) Std.LawfulEqCmp.compare_eq_iff_eq

instance : LinearOrder Datum where
  le left right := (left.compare right).isLE
  lt left right := left.compare right = .lt
  compare := Datum.compare
  le_refl datum := by
    rw [compare_self]
    rfl
  le_trans _ _ _ := Std.TransCmp.isLE_trans
  le_antisymm _ _ le ge :=
    Std.LawfulEqCmp.eq_of_compare (Std.OrientedCmp.isLE_antisymm le ge)
  le_total left right := by
    rw [compare_swap right left]
    cases left.compare right <;> simp
  lt_iff_le_not_ge left right := by
    rw [compare_swap right left]
    cases left.compare right <;> simp
  toDecidableLE left right := inferInstanceAs (Decidable ((left.compare right).isLE = true))
  toDecidableLT left right := inferInstanceAs (Decidable (left.compare right = .lt))
  toDecidableEq := inferInstance
  compare_eq_compareOfLessAndEq left right := by
    change left.compare right =
      if left.compare right = .lt then .lt else if left = right then .eq else .gt
    split
    case isTrue less => exact less
    case isFalse notLess =>
      split
      case isTrue same => rw [same, compare_self]
      case isFalse different =>
        cases order : left.compare right with
        | lt => exact absurd order notLess
        | eq => exact absurd (eq_of_compare _ _ order) different
        | gt => rfl

theorem lt_iff_compare {left right : Datum} : left < right ↔ left.compare right = .lt :=
  Iff.rfl

/-! ## The hash -/

mutual
protected def hash : Datum → UInt32
  | leaf value => value.hash
  | sequence items => Hash.ordered (hashAll items)
  | map entries => Hash.unordered (hashAll entries)
  | set items => Hash.unordered (hashAll items)

def hashAll : List Datum → List UInt32
  | [] => []
  | item :: rest => item.hash :: hashAll rest
end

theorem hashAll_eq_map (items : List Datum) : hashAll items = items.map Datum.hash := by
  induction items with
  | nil => rfl
  | cons item rest induction => rw [hashAll, induction, List.map_cons]

theorem hash_entry (key value : Datum) :
    (entry key value).hash = Hash.entry key.hash value.hash := rfl

/-! ## Size -/

mutual
/-- More than any item costs, and more than there are items. -/
def cost : Datum → Nat
  | leaf _ => 1
  | sequence items | map items | set items => costAll items + 2

def costAll : List Datum → Nat
  | [] => 0
  | item :: rest => item.cost + 1 + costAll rest
end

theorem cost_pos (datum : Datum) : 0 < datum.cost := by
  cases datum <;> simp [cost]

theorem costAll_eq_sum (items : List Datum) :
    costAll items = (items.map fun item => item.cost + 1).sum := by
  induction items with
  | nil => rfl
  | cons item rest induction => rw [costAll, induction, List.map_cons, List.sum_cons]

theorem length_le_costAll (items : List Datum) : items.length ≤ costAll items := by
  induction items with
  | nil => exact Nat.le_refl 0
  | cons item rest induction =>
      rw [costAll, List.length_cons]
      omega

theorem cost_lt_costAll {item : Datum} {items : List Datum} (member : item ∈ items) :
    item.cost < costAll items := by
  induction items with
  | nil => cases member
  | cons first rest induction =>
      rw [costAll]
      rcases List.mem_cons.mp member with equal | member
      · subst equal
        omega
      · have := induction member
        omega

theorem costAll_perm {left right : List Datum} (perm : left.Perm right) :
    costAll left = costAll right := by
  rw [costAll_eq_sum, costAll_eq_sum]
  exact (perm.map _).sum_nat

/-! ## Arranged items -/

/-- In ascending order. -/
def arrange (items : List Datum) : List Datum := items.insertionSort (· ≤ ·)

theorem arrange_perm (items : List Datum) : (arrange items).Perm items :=
  List.perm_insertionSort _ items

theorem arrange_sorted (items : List Datum) : (arrange items).Pairwise (· ≤ ·) :=
  List.pairwise_insertionSort _ items

theorem arrange_eq_iff_perm {left right : List Datum} :
    arrange left = arrange right ↔ left.Perm right := by
  constructor
  · intro equal
    exact (arrange_perm left).symm.trans (equal ▸ arrange_perm right)
  · intro perm
    exact ((arrange_perm left).trans (perm.trans (arrange_perm right).symm)).eq_of_pairwise'
      (arrange_sorted left) (arrange_sorted right)

theorem arrange_eq_of_perm_of_sorted {items sorted : List Datum} (perm : sorted.Perm items)
    (ascending : sorted.Pairwise (· ≤ ·)) : arrange items = sorted :=
  ((arrange_perm items).trans perm.symm).eq_of_pairwise' (arrange_sorted items) ascending

theorem costAll_arrange (items : List Datum) : costAll (arrange items) = costAll items :=
  costAll_perm (arrange_perm items)

theorem cost_map_arrange (entries : List Datum) :
    (map (arrange entries)).cost = costAll entries + 2 := by
  rw [cost, costAll_arrange]

theorem cost_set_arrange (items : List Datum) :
    (set (arrange items)).cost = costAll items + 2 := by
  rw [cost, costAll_arrange]

/-- Keys and values cost less than the entries that they make. -/
theorem cost_lt_costAll_entries {keys values : List Datum}
    (lengths : keys.length = values.length) {datum : Datum}
    (member : datum ∈ keys ∨ datum ∈ values) :
    datum.cost < costAll (List.zipWith entry keys values) := by
  induction keys generalizing values with
  | nil =>
      cases values with
      | nil => simp at member
      | cons => cases lengths
  | cons key keys induction =>
      cases values with
      | nil => cases lengths
      | cons value values =>
          have rest := induction (Nat.succ.inj lengths)
          simp only [List.zipWith_cons_cons, costAll, entry, cost]
          simp only [List.mem_cons] at member
          rcases member with (rfl | member) | (rfl | member)
          · omega
          · have := rest (.inl member)
            omega
          · omega
          · have := rest (.inr member)
            omega

/-- The items of a set of these elements, or of a map of these entries, in any
order hash alike. -/
theorem unordered_perm {left right : List UInt32} (perm : left.Perm right) :
    Hash.unordered left = Hash.unordered right := by
  have commutes : ∀ (tally : Hash.Tally) (first second : UInt32),
      (tally.pushUnordered first).pushUnordered second =
        (tally.pushUnordered second).pushUnordered first := by
    intro tally first second
    simp [Hash.Tally.pushUnordered, UInt32.add_assoc, UInt32.add_comm first second]
  rw [Hash.unordered, Hash.unordered]
  exact congrArg Hash.Tally.close
    (perm.foldl_eq' (fun first _ second _ tally => commutes tally first second) _)

theorem hash_map_arrange (entries : List Datum) :
    (map (arrange entries)).hash = Hash.unordered (entries.map Datum.hash) := by
  rw [Datum.hash, hashAll_eq_map]
  exact unordered_perm ((arrange_perm entries).map _)

theorem hash_set_arrange (items : List Datum) :
    (set (arrange items)).hash = Hash.unordered (items.map Datum.hash) := by
  rw [Datum.hash, hashAll_eq_map]
  exact unordered_perm ((arrange_perm items).map _)

end Datum

end LispRuntime
