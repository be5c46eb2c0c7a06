import LispRuntime.Proofs.Sight.Laws

/-! Whether values that have been found equal hash alike. Whatever fails in them, and whatever has
been realized before, they do as long as no array map remembers a wrong hash. If one does, then a
hash map with its entries is equal to it and hashes differently. -/

namespace LispRuntime

/-- If the values are equal once, they have one hash from here on. -/
def HashesAgree {machine : Machine} {foresight : Foresight machine} (view : foresight.View)
    (left right : Value) : Prop :=
  view.Once (left.equal right) true →
    ∃ hash, view.Always left.hash hash ∧ view.Always right.hash hash

/-- Maps are known because they are visible. -/
def Sight.IsLegible (sight : Sight) : Prop :=
  ∀ handle datum, sight.memory (.map handle) = some datum →
    ∃ entries metadata, sight.Sees (.arrayMap handle entries metadata) datum

section

variable {machine : Machine} {foresight : Foresight machine} {view : foresight.View}
  {left right : Value} {leftDatum rightDatum : Datum}

theorem hashesAgree_of_remembersRight (remembers : view.1.toMoment.RemembersRight)
    (seenLeft : view.1.Sees left leftDatum) (seenRight : view.1.Sees right rightDatum)
    (enough : leftDatum.cost + rightDatum.cost ≤ machine.limit) : HashesAgree view left right := by
  intro once
  have positive := leftDatum.cost_pos
  have same := Foresight.View.eq_of_equal (remembers (machine.limit - 1)) (by omega) seenLeft
    (by omega) seenRight (by omega) once
  subst same
  exact ⟨leftDatum.hash, Foresight.View.hash_always (remembers _) (by omega) seenLeft,
    Foresight.View.hash_always (remembers _) (by omega) seenRight⟩

end

section

variable {machine : Machine} {foresight : Foresight machine} {sight : Sight} {handle : Nat}
  {entries : List (Value × Value)} {metadata : Option Value} {datum : Datum}

/-- A hash map of the same entries looks the same. -/
theorem Sight.sees_hashMap (seen : sight.Sees (.arrayMap handle entries metadata) datum) :
    ∃ hashed, hashed.map Prod.snd = entries ∧
      (sight.place datum).Sees (.hashMap sight.world.addresses hashed none) datum := by
  cases seen with
  | leaf known => cases known
  | sequence kind => cases kind
  | set contents => cases contents
  | @map _ _ keys values contents seenKeys seenValues lawful =>
      cases contents
      have lengths : entries.length = keys.length := by
        rw [← seenKeys.forall₂.length_eq, List.length_map]
      rcases Value.exists_hashed lengths with ⟨hashed, rfl, hashes⟩
      have le := sight.le_place (.map (Datum.arrange (List.zipWith Datum.entry keys values)))
      refine ⟨hashed, rfl, .map rfl (Sight.seesAll_later le seenKeys)
        (Sight.seesAll_later le seenValues) ⟨hashes, lawful.2⟩ ?_⟩
      rintro address ⟨⟩
      exact sight.place_memory _

/-- They are equal, whatever fails in them, but one remembers its hash and the other does not. -/
theorem eq_of_hashesAgree {view : foresight.View} {address : Nat} {hashed : List Value.HashedEntry}
    (remembers : view.RemembersWithin (datum.cost - 1))
    (remembered : view.1.world.maps.remembered handle ≠ 0) (enough : datum.cost ≤ machine.limit)
    (seen : view.1.Sees (.hashMap address hashed none) datum)
    (agrees : HashesAgree view (.arrayMap handle (hashed.map Prod.snd) metadata)
      (.hashMap address hashed none)) :
    view.1.world.maps.remembered handle = datum.hash := by
  have positive := datum.cost_pos.trans_le enough
  have here : view.outlook.RemembersWithin (datum.cost - 1) ⟨view, le_refl view⟩ := remembers
  have equal : view.Ends
      ((Value.arrayMap handle (hashed.map Prod.snd) metadata).equal (.hashMap address hashed none))
      fun answer _ => answer = true :=
    Foresight.View.ends_of_outlook
      (Run.Ends.looking rfl (view.outlook.equalCopy_ends here rfl rfl seen enough))
  have hashMap : view.Ends (Value.arrayMap handle (hashed.map Prod.snd) metadata).hash
      fun hash _ => hash = view.1.world.maps.remembered handle :=
    Run.Ends.looking rfl
      ⟨_, view, Value.hashWithin_run_remembered remembered positive, le_refl view, rfl⟩
  have hashCopy : view.Ends (Value.hashMap address hashed none).hash
      fun hash _ => hash = datum.hash :=
    Foresight.View.ends_of_outlook (Run.Ends.looking rfl
      (view.outlook.hashWithin_own_ends (by simp [Value.address?]) here enough seen))
  rcases agrees equal.once with ⟨hash, alwaysMap, alwaysCopy⟩
  exact (alwaysMap.eq_of_once hashMap.once).trans (alwaysCopy.eq_of_once hashCopy.once).symm

end

/-- Values that have been found equal hash alike, now and later, exactly if no known map remembers
a wrong hash now. -/
theorem hashesAgree_iff {sight : Sight} (legible : sight.IsLegible)
    (foreseen : ∀ least, ∃ (machine : Machine) (foresight : Foresight machine),
      least ≤ machine.limit ∧ foresight.Kept sight) :
    sight.toMoment.RemembersRight ↔
      ∀ later, sight ≤ later → ∀ left right, later.IsVisible left → later.IsVisible right →
        ∃ enough, ∀ (machine : Machine) (foresight : Foresight machine)
          (kept : foresight.Kept later), enough ≤ machine.limit →
          HashesAgree (⟨later, kept⟩ : foresight.View) left right := by
  constructor
  · rintro remembers later le left right ⟨leftDatum, seenLeft⟩ ⟨rightDatum, seenRight⟩
    exact ⟨_, fun machine foresight kept enough => hashesAgree_of_remembersRight
      (fun bound => le.moment.remembers bound (remembers bound)) seenLeft seenRight enough⟩
  · intro agree
    refine Moment.remembersRight_of_least fun handle datum known remembers remembered => ?_
    rcases legible handle datum known with ⟨entries, metadata, seen⟩
    rcases Sight.sees_hashMap seen with ⟨hashed, rfl, seenCopy⟩
    have le := sight.le_place datum
    rcases agree _ le _ _ ⟨datum, Sight.sees_later le seen⟩ ⟨datum, seenCopy⟩ with ⟨enough, agrees⟩
    rcases foreseen (enough + datum.cost) with ⟨machine, foresight, limit, kept⟩
    let view : foresight.View :=
      ⟨sight.place datum, foresight.reaches kept _ (sight.toMoment.le_place datum) rfl⟩
    have remembersThere : view.RemembersWithin (datum.cost - 1) :=
      le.moment.remembers _ remembers
    exact eq_of_hashesAgree remembersThere remembered (by omega) seenCopy
      (agrees machine foresight view.2 (by omega))

/-! For example, the map that remembers a hash, and whose lazy seq has been realized since. -/

def recalling (hash : UInt32) : Sight where
  toMoment := Value.remembering hash
  forecast :=
    { cells
        | 0 => some ⟨true, [.leaf (.integer 1)]⟩
        | _ => none
      isTelling := False
      failing _ := none }
  fits cell prospect known := by
    rcases cell with _ | cell
    · cases known
      refine ⟨_, rfl, .realized rfl (.list (.cons (.leaf rfl ?_) .nil))⟩
      rintro _ ⟨⟩
    · cases known

private theorem recalling_isLegible (hash : UInt32) : (recalling hash).IsLegible := by
  intro handle datum known
  rcases handle with _ | handle
  · cases known
    have one : (recalling hash).Sees (.integer 1) (.leaf (.integer 1)) := .leaf rfl nofun
    have shows : (recalling hash).Shows (.lazySeq ⟨0⟩) true [.leaf (.integer 1)] :=
      @Shows.lazySeq _ _ ⟨0⟩ ⟨true, _⟩ rfl
    refine ⟨[(.integer 1, .lazySeq ⟨0⟩)], none, ?_⟩
    change (recalling hash).Sees _ (.map (Datum.arrange
      (List.zipWith Datum.entry [.leaf (.integer 1)] [.sequence [.leaf (.integer 1)]])))
    refine .map rfl (.cons one .nil) (.cons ?_ .nil) ⟨rfl, List.nodup_singleton _⟩ ?_
    · refine .sequence rfl shows ?_ fun telling => telling.elim
      rintro _ ⟨⟩
      rfl
    · rintro _ ⟨⟩
      rfl
  · cases known

private theorem recalling_kept (hash : UInt32) (limit : Nat) :
    (failingForesight limit).Kept (recalling hash) := by
  intro cell prospect body known pending
  rcases cell with _ | cell
  · cases pending
  · cases known

private theorem recalling_foreseen (hash : UInt32) (least : Nat) :
    ∃ (machine : Machine) (foresight : Foresight machine),
      least ≤ machine.limit ∧ foresight.Kept (recalling hash) :=
  ⟨_, failingForesight least, Nat.le_succ least, recalling_kept hash least⟩

/-- With the hash that the map has now, equal values hash alike; with the one from then, some do
not. -/
theorem hashesAgree_recalling :
    (∀ later, recalling 1856397414 ≤ later → ∀ left right, later.IsVisible left →
      later.IsVisible right → ∃ enough, ∀ (machine : Machine) (foresight : Foresight machine)
        (kept : foresight.Kept later), enough ≤ machine.limit →
        HashesAgree (⟨later, kept⟩ : foresight.View) left right) ∧
    ¬∀ later, recalling 1111401505 ≤ later → ∀ left right, later.IsVisible left →
      later.IsVisible right → ∃ enough, ∀ (machine : Machine) (foresight : Foresight machine)
        (kept : foresight.Kept later), enough ≤ machine.limit →
        HashesAgree (⟨later, kept⟩ : foresight.View) left right :=
  ⟨(hashesAgree_iff (recalling_isLegible _) (recalling_foreseen _)).mp Value.remembering_right,
    fun agree => Value.remembering_wrong
      ((hashesAgree_iff (recalling_isLegible _) (recalling_foreseen _)).mpr agree)⟩

end LispRuntime
