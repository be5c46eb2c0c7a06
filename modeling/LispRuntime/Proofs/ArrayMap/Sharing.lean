import LispRuntime.ArrayMap.Pool
import LispRuntime.Proofs.World.Running
import Mathlib.Data.List.Basic

/-! What a live handle denotes stands at the front of its block; whatever is
behind that may belong to longer maps on the same block, or to nobody. A write
through one handle changes the block only when no other live handle reads it,
so every other live handle keeps its block, its length and its pairs. -/

namespace LispRuntime

namespace ArrayMap.Pool

variable {α : Type}

/-- A live handle denotes these pairs; this is what lies behind them. -/
structure Stored (pool : Pool α) (id : Nat) (handle : Handle) (pairs : List (α × α))
    (spare : Block α) : Prop where
  found : pool.handle? id = some handle
  live : handle.isRetired = false
  block : pool.blocks.get? handle.block = some (pairs.map some ++ spare)
  size : handle.pairs = pairs.length
  fits : pairs.length + spare.length ≤ maxPairs

/-- Every live handle denotes something. -/
def Sound (pool : Pool α) : Prop :=
  ∀ id handle, pool.handle? id = some handle → handle.isRetired = false →
    ∃ pairs spare, pool.Stored id handle pairs spare

theorem sound_empty : (empty : Pool α).Sound := by
  intro id handle found
  simp [handle?, empty, Store.empty, Store.get?] at found

namespace Stored

variable {pool : Pool α} {id : Nat} {handle : Handle} {pairs : List (α × α)}
  {spare : Block α}

theorem blockOf_eq (stored : pool.Stored id handle pairs spare) :
    pool.blockOf handle = pairs.map some ++ spare := by
  rw [blockOf, stored.block, Option.getD_some]

theorem take_blockOf (stored : pool.Stored id handle pairs spare) :
    (pool.blockOf handle).take handle.pairs = pairs.map some := by
  rw [stored.blockOf_eq, stored.size, List.take_left' (List.length_map _)]

theorem drop_blockOf (stored : pool.Stored id handle pairs spare) :
    (pool.blockOf handle).drop handle.pairs = spare := by
  rw [stored.blockOf_eq, stored.size, List.drop_left' (List.length_map _)]

theorem entries_eq (stored : pool.Stored id handle pairs spare) :
    pool.entries id = pairs := by
  rw [entries, stored.found]
  simp only [stored.take_blockOf, List.filterMap_map]
  exact List.filterMap_some

theorem capacity_eq (stored : pool.Stored id handle pairs spare) :
    pool.capacity id = pairs.length + spare.length := by
  rw [capacity, stored.found]
  simp [stored.blockOf_eq]

end Stored

/-- Nothing that another live handle denotes has changed, nor how it is stored. -/
structure ChangedOnlyAt (before after : Pool α) (id : Nat) : Prop where
  handle : ∀ other, other ≠ id → after.handle? other = before.handle? other
  stored : ∀ other handle pairs spare, other ≠ id →
    before.Stored other handle pairs spare → after.Stored other handle pairs spare

namespace ChangedOnlyAt

variable {before middle after : Pool α} {id : Nat}

theorem refl (pool : Pool α) (id : Nat) : ChangedOnlyAt pool pool id :=
  ⟨fun _ _ => rfl, fun _ _ _ _ _ stored => stored⟩

theorem trans (first : ChangedOnlyAt before middle id) (second : ChangedOnlyAt middle after id) :
    ChangedOnlyAt before after id where
  handle other different := (second.handle other different).trans (first.handle other different)
  stored _ _ _ _ different stored :=
    second.stored _ _ _ _ different (first.stored _ _ _ _ different stored)

theorem sound (change : ChangedOnlyAt before after id) (sound : before.Sound)
    (changed : ∀ handle, after.handle? id = some handle → handle.isRetired = false →
      ∃ pairs spare, after.Stored id handle pairs spare) : after.Sound := by
  intro other handle found live
  by_cases same : other = id
  · subst same
    exact changed handle found live
  · rw [change.handle other same] at found
    rcases sound other handle found live with ⟨pairs, spare, stored⟩
    exact ⟨pairs, spare, change.stored _ _ _ _ same stored⟩

theorem sound_of_stored (change : ChangedOnlyAt before after id) (sound : before.Sound)
    {handle : Handle} {pairs : List (α × α)} {spare : Block α}
    (stored : after.Stored id handle pairs spare) : after.Sound :=
  change.sound sound fun other found _ => by
    cases Option.some.inj (stored.found.symm.trans found)
    exact ⟨pairs, spare, stored⟩

end ChangedOnlyAt

/-! ## Steps of which the operations are made -/

theorem handle?_setHandle_of_ne (pool : Pool α) (handle : Handle) {id other : Nat}
    (different : other ≠ id) : (pool.setHandle id handle).handle? other = pool.handle? other :=
  Store.get?_set_of_ne _ _ different

theorem handle?_setHandle_self {pool : Pool α} {id : Nat} {old : Handle} (handle : Handle)
    (found : pool.handle? id = some old) : (pool.setHandle id handle).handle? id = some handle :=
  Store.get?_set_self _ found

/-- Another handle's record may change, as long as the blocks stay. -/
theorem changedOnlyAt_setHandle (pool : Pool α) (id : Nat) (handle : Handle) :
    ChangedOnlyAt pool (pool.setHandle id handle) id where
  handle _ different := handle?_setHandle_of_ne pool handle different
  stored _ _ _ _ different stored :=
    { stored with found := (handle?_setHandle_of_ne pool handle different).trans stored.found }

/-- A new block is read by nobody. -/
theorem changedOnlyAt_addBlock (pool : Pool α) (block : Block α) (id : Nat) :
    ChangedOnlyAt pool (pool.addBlock block).2 id where
  handle _ _ := rfl
  stored _ _ _ _ _ stored :=
    { stored with
      block := (Store.get?_push_of_lt _ _ (Store.lt_next_of_get? stored.block)).trans
        stored.block }

theorem get?_addBlock (pool : Pool α) (block : Block α) :
    (pool.addBlock block).2.blocks.get? (pool.addBlock block).1 = some block :=
  Store.get?_push_next _ _

/-- A new handle leaves all others alone. -/
theorem changedOnlyAt_addHandle (pool : Pool α) (handle : Handle) :
    ChangedOnlyAt pool (pool.addHandle handle).2 (pool.addHandle handle).1 := by
  have old : ∀ other, other ≠ pool.handles.next →
      (pool.addHandle handle).2.handle? other = pool.handle? other := by
    intro other different
    exact (Store.get?_push _ _ _).trans (if_neg different)
  exact ⟨old, fun other _ _ _ different stored =>
    { stored with found := (old other different).trans stored.found }⟩

theorem handle?_addHandle (pool : Pool α) (handle : Handle) :
    (pool.addHandle handle).2.handle? (pool.addHandle handle).1 = some handle :=
  Store.get?_push_next _ _

theorem ne_of_isExclusive {pool : Pool α} {id other : Nat} {handle reader : Handle}
    (exclusive : pool.isExclusive id handle = true) (different : other ≠ id)
    (found : pool.handle? other = some reader) (live : reader.isRetired = false) :
    reader.block ≠ handle.block := by
  intro same
  have member : (reader, other) ∈ pool.handles.toList.zipIdx := by
    apply List.mem_zipIdx_iff_getElem?.mpr
    simpa [handle?, Store.get?, Store.toList] using found
  have reads : isOtherReader id handle.block (reader, other) = true := by
    simp [isOtherReader, different, live, same]
  rw [isExclusive, Bool.not_eq_true'] at exclusive
  exact absurd (List.any_eq_true.mpr ⟨_, member, reads⟩) (by simp [exclusive])

/-- A block may be written when nobody else reads it. -/
theorem changedOnlyAt_setBlock {pool : Pool α} {id : Nat} {handle : Handle}
    (block : Block α) (exclusive : pool.isExclusive id handle = true) :
    ChangedOnlyAt pool { pool with blocks := pool.blocks.set handle.block block } id where
  handle _ _ := rfl
  stored _ _ _ _ different stored :=
    { stored with
      block := (Store.get?_set_of_ne _ _
        (ne_of_isExclusive exclusive different stored.found stored.live)).trans stored.block }

/-! ## Operations -/

section Operations

variable {pool : Pool α} {id : Nat} {handle : Handle} {pairs : List (α × α)}
  {spare : Block α}

theorem create_spec (pool : Pool α) :
    (∃ handle, pool.create.2.Stored pool.create.1 handle [] [] ∧ handle.hash = 0) ∧
      ChangedOnlyAt pool pool.create.2 pool.create.1 := by
  constructor
  · exact ⟨⟨pool.blocks.next, 0, 0, false⟩,
      ⟨handle?_addHandle _ _, rfl, get?_addBlock pool [], rfl, Nat.zero_le _⟩, rfl⟩
  · exact (changedOnlyAt_addBlock pool [] _).trans (changedOnlyAt_addHandle _ _)

theorem share_spec (stored : pool.Stored id handle pairs spare) :
    (pool.share id).2.Stored (pool.share id).1 handle pairs spare ∧
      ChangedOnlyAt pool (pool.share id).2 (pool.share id).1 := by
  have unchanged : { handle with isRetired := false } = handle := by
    rw [← stored.live]
  simp only [share, stored.found, unchanged]
  exact ⟨{ stored with found := handle?_addHandle pool handle },
    changedOnlyAt_addHandle pool handle⟩

theorem copyExact_spec (stored : pool.Stored id handle pairs spare) :
    (∃ copy, (pool.copyExact id).2.Stored (pool.copyExact id).1 copy pairs [] ∧
        copy.hash = handle.hash) ∧
      ChangedOnlyAt pool (pool.copyExact id).2 (pool.copyExact id).1 := by
  simp only [copyExact, stored.found, stored.take_blockOf]
  constructor
  · refine ⟨{ handle with block := pool.blocks.next, isRetired := false }, ?_, rfl⟩
    exact
      { found := handle?_addHandle _ _
        live := rfl
        block := by
          rw [List.append_nil]
          exact get?_addBlock pool _
        size := stored.size
        fits := Nat.le_trans (Nat.le_add_right _ _) stored.fits }
  · exact (changedOnlyAt_addBlock pool _ _).trans (changedOnlyAt_addHandle _ _)

theorem moveTo_spec (found : pool.handle? id = some handle) (pairs : List (α × α))
    (spare : Block α) (fits : pairs.length + spare.length ≤ maxPairs) :
    (∃ moved, (pool.moveTo id (pairs.map some ++ spare) pairs.length).Stored id moved
        pairs spare ∧ moved.hash = 0) ∧
      ChangedOnlyAt pool (pool.moveTo id (pairs.map some ++ spare) pairs.length) id := by
  constructor
  · refine ⟨⟨pool.blocks.next, pairs.length, 0, false⟩, ?_, rfl⟩
    exact ⟨handle?_setHandle_self _ found, rfl, get?_addBlock pool _, rfl, fits⟩
  · exact (changedOnlyAt_addBlock pool _ id).trans (changedOnlyAt_setHandle _ id _)

/-- In place or elsewhere, the handle then denotes what was written. -/
theorem write_spec {old : List (α × α)} {oldSpare : Block α}
    (stored : pool.Stored id handle old oldSpare) (pairs : List (α × α)) (spare : Block α)
    (fits : pairs.length + spare.length ≤ maxPairs) :
    (∃ written, (pool.write id handle (pairs.map some ++ spare) pairs.length).Stored id
        written pairs spare ∧ written.hash = 0) ∧
      ChangedOnlyAt pool (pool.write id handle (pairs.map some ++ spare) pairs.length) id := by
  rw [write]
  split
  case isTrue exclusive =>
    constructor
    · refine ⟨⟨handle.block, pairs.length, 0, false⟩, ?_, rfl⟩
      exact ⟨handle?_setHandle_self _ stored.found, rfl,
        Store.get?_set_self _ stored.block, rfl, fits⟩
    · exact (changedOnlyAt_setBlock _ exclusive).trans (changedOnlyAt_setHandle _ id _)
  case isFalse => exact moveTo_spec stored.found pairs spare fits

private theorem set_spare (pairs : List (α × α)) (pair : α × α) (place : Option (α × α))
    (rest : Block α) :
    (pairs.map some ++ place :: rest).set pairs.length (some pair) =
      (pairs ++ [pair]).map some ++ rest := by
  rw [List.set_append_right _ _ (by simp)]
  simp

/-- A ninth pair is refused, and any other is added at the end. -/
theorem append_spec (stored : pool.Stored id handle pairs spare) (key value : α) :
    if pairs.length < maxPairs then
      ∃ after, pool.append id key value = .ok after ∧
        (∃ written rest, after.Stored id written (pairs ++ [(key, value)]) rest ∧
          written.hash = 0) ∧
        ChangedOnlyAt pool after id
    else pool.append id key value = .error (.mapOverflow (maxPairs + 1)) := by
  have fits := stored.fits
  have copied : (pool.blockOf handle).take pairs.length ++ [some (key, value)] =
      (pairs ++ [(key, value)]).map some ++ [] := by
    rw [← stored.size, stored.take_blockOf]
    simp
  rw [stored.blockOf_eq] at copied
  simp only [append, stored.found, stored.size, copied, stored.blockOf_eq]
  split
  case isTrue room =>
    by_cases inPlace : pairs.length + 1 ≤ (pairs.map some ++ spare).length ∧
        pool.isExclusive id handle
    · rw [if_pos inPlace]
      rcases spare with _ | ⟨place, rest⟩
      · exact absurd inPlace.1 (by simp)
      · have written := write_spec stored (pairs ++ [(key, value)]) rest
          (by simp at fits ⊢; omega)
        rw [set_spare]
        rw [List.length_append] at written
        exact ⟨_, rfl, ⟨_, _, written.1.choose_spec⟩, written.2⟩
    · have moved := moveTo_spec stored.found (pairs ++ [(key, value)]) []
        (by simp; omega)
      rw [if_neg inPlace, if_neg (by omega)]
      rw [List.length_append] at moved
      exact ⟨_, rfl, ⟨_, _, moved.1.choose_spec⟩, moved.2⟩
  case isFalse full =>
    have exactly : pairs.length = maxPairs := by omega
    have noSpare : spare.length = 0 := by omega
    have noPlace : ¬pairs.length + 1 ≤ (pairs.map some ++ spare).length := by
      rw [List.length_append, List.length_map, noSpare]
      omega
    rw [if_neg (fun inPlace => noPlace inPlace.1), if_pos (by omega), exactly]

/-- The value of the pair at a place is replaced. -/
def withValue (pairs : List (α × α)) (place : Nat) (value : α) : List (α × α) :=
  pairs.modify place fun pair => (pair.1, value)

theorem length_withValue (pairs : List (α × α)) (place : Nat) (value : α) :
    (withValue pairs place value).length = pairs.length :=
  List.length_modify ..

private theorem modify_front (spare : Block α) {place : Nat}
    (inside : place < pairs.length) (value : α) :
    (pairs.map some ++ spare).modify place (fun pair => pair.map fun pair => (pair.1, value)) =
      (withValue pairs place value).map some ++ spare := by
  induction pairs generalizing place with
  | nil => cases inside
  | cons pair rest induction =>
      cases place with
      | zero => rfl
      | succ place =>
          have inRest : place < rest.length := Nat.lt_of_succ_lt_succ inside
          simp only [withValue, List.map_cons, List.cons_append, List.modify_succ_cons]
          exact congrArg (some pair :: ·) (induction inRest)

theorem assignAt_spec (stored : pool.Stored id handle pairs spare) {place : Nat}
    (inside : place < pairs.length) (value : α) :
    (∃ written, (pool.assignAt id place value).Stored id written
        (withValue pairs place value) spare ∧ written.hash = 0) ∧
      ChangedOnlyAt pool (pool.assignAt id place value) id := by
  have block := modify_front spare inside value
  rw [← stored.blockOf_eq] at block
  simp only [assignAt, stored.found, block, stored.size]
  rw [← length_withValue pairs place value]
  exact write_spec stored _ _ (by rw [length_withValue]; exact stored.fits)

theorem removeAt_spec (stored : pool.Stored id handle pairs spare) {place : Nat}
    (inside : place < pairs.length) :
    (∃ written, (pool.removeAt id place).Stored id written (pairs.eraseIdx place)
        (none :: spare) ∧ written.hash = 0) ∧
      ChangedOnlyAt pool (pool.removeAt id place) id := by
  have length : (pairs.eraseIdx place).length = pairs.length - 1 :=
    List.length_eraseIdx_of_lt inside
  have block : (pool.blockOf handle).take place ++
      ((pool.blockOf handle).take handle.pairs).drop (place + 1) ++ [none] ++
        (pool.blockOf handle).drop handle.pairs =
      (pairs.eraseIdx place).map some ++ none :: spare := by
    rw [stored.take_blockOf, stored.drop_blockOf, stored.blockOf_eq,
      List.take_append_of_le_length (by simp; omega), List.eraseIdx_eq_take_drop_succ]
    simp
  simp only [removeAt, stored.found]
  rw [block, stored.size, ← length]
  have fits := stored.fits
  exact write_spec stored _ _ (by simp; omega)

theorem reserve_spec (stored : pool.Stored id handle pairs spare) (count : Nat) :
    if count ≤ maxPairs then
      ∃ after, pool.reserve id count = .ok after ∧
        (∃ reserved room, after.Stored id reserved pairs room ∧
          reserved.hash = handle.hash ∧ count ≤ pairs.length + room.length) ∧
        ChangedOnlyAt pool after id
    else pool.reserve id count = .error (.mapReserve count) := by
  simp only [reserve, stored.found]
  split
  case isFalse tooMany => rw [if_pos (by omega)]
  case isTrue few =>
    rw [if_neg (by omega)]
    split
    case isTrue room =>
      rw [stored.blockOf_eq] at room
      exact ⟨pool, rfl, ⟨handle, spare, stored, rfl, by simpa using room⟩, .refl pool id⟩
    case isFalse small =>
      rw [stored.blockOf_eq] at small
      simp only [List.length_append, List.length_map] at small
      refine ⟨_, rfl, ⟨{ handle with block := pool.blocks.next },
        List.replicate (count - pairs.length) none, ?_, rfl, by simp; omega⟩,
        (changedOnlyAt_addBlock pool _ id).trans (changedOnlyAt_setHandle _ id _)⟩
      exact
        { found := handle?_setHandle_self _ stored.found
          live := stored.live
          block := by
            rw [stored.take_blockOf, List.length_map]
            exact get?_addBlock pool _
          size := stored.size
          fits := by simp; omega }

theorem memoize_spec (stored : pool.Stored id handle pairs spare) (hash : UInt32) :
    (pool.memoize id hash).Stored id { handle with hash := hash } pairs spare ∧
      ChangedOnlyAt pool (pool.memoize id hash) id := by
  simp only [memoize, stored.found]
  exact ⟨{ stored with found := handle?_setHandle_self _ stored.found },
    changedOnlyAt_setHandle pool id _⟩

theorem retire_spec (pool : Pool α) (id : Nat) :
    (∀ handle, (pool.retire id).handle? id = some handle → handle.isRetired = true) ∧
      ChangedOnlyAt pool (pool.retire id) id := by
  unfold retire
  split
  case h_1 handle found =>
    refine ⟨?_, changedOnlyAt_setHandle pool id _⟩
    intro retired foundRetired
    rw [handle?_setHandle_self _ found] at foundRetired
    cases foundRetired
    rfl
  case h_2 missing =>
    refine ⟨?_, .refl pool id⟩
    intro handle found
    rw [missing] at found
    cases found

end Operations

end ArrayMap.Pool

end LispRuntime
