import LispRuntime.Proofs.Collection.Updates
import LispRuntime.Proofs.Transient.Quiet

/-! Maps from vars. To tell vars apart nothing in the world is looked at, so that such a
map can be made whatever has happened before. -/

namespace LispRuntime

open ArrayMap (Achieves)

/-- Vars can be read without a memory. -/
def Moment.unread (world : World) (sound : world.maps.Sound) : Moment where
  memory _ := none
  world := world
  heap_taken _ _ := nofun
  maps_sound := sound
  map_held _ _ := nofun

namespace Value

/-- Only vars are told apart. -/
def varDatum : Value → Datum
  | .var cell => .leaf (.reference .var cell.index)
  | _ => .leaf .nil

theorem eq_of_varDatum_eq {value : Value} {var : Ref .var}
    (same : value.varDatum = (Value.var var).varDatum) : value = .var var := by
  cases value <;> simp_all [varDatum, Ref.index_inj]

end Value

namespace Reader

/-- A reader of vars. -/
def ofVars (machine : Machine) (enough : 2 ≤ machine.limit) (world : World)
    (sound : world.maps.Sound) : Reader where
  machine := machine
  start := .unread world sound
  datumOf := Value.varDatum
  bound := 0
  remembers _ _ := nofun
  enough := enough

end Reader

/-- Entries that stand for the same as pairs of vars and values are these pairs. -/
theorem perm_of_varDatum {entries pairs : List (Value × Value)}
    (vars : ∀ pair ∈ pairs, ∃ var, pair.1 = .var var)
    (distinct : (entries.map fun entry => entry.1.varDatum).Nodup)
    (same : (entries.map fun entry => (entry.1.varDatum, entry.2)).Perm
      (pairs.map fun pair => (pair.1.varDatum, pair.2))) : entries.Perm pairs := by
  have within : entries ⊆ pairs := by
    intro entry member
    have listed := same.subset (List.mem_map_of_mem member)
    rcases List.mem_map.mp listed with ⟨pair, inside, equal⟩
    rcases vars pair inside with ⟨var, isVar⟩
    rcases Prod.mk.inj equal with ⟨key, value⟩
    have sameKey : entry.1 = pair.1 := by
      rw [isVar] at key ⊢
      exact Value.eq_of_varDatum_eq key.symm
    exact Prod.ext sameKey value.symm ▸ inside
  have length := same.length_eq
  rw [List.length_map, List.length_map] at length
  exact (List.subperm_of_subset (distinct.of_map _) within).perm_of_length_le
    (Nat.le_of_eq length.symm)

/-- What a map from vars is made of, it has, and nothing else. -/
theorem ofPairs_vars (machine : Machine) (enough : 2 ≤ machine.limit) {world : World}
    (sound : world.maps.Sound) {bindings : List (Ref .var × Value)}
    (distinct : (bindings.map Prod.fst).Nodup) :
    ∃ map entries after,
      (Value.ofPairs (bindings.map fun binding => (.var binding.1, binding.2))).run machine world =
        some (.ok map, after) ∧ world.Keeps after ∧ after.maps.Sound ∧
      map.mapEntries? = some entries ∧
      entries.Perm (bindings.map fun binding => (.var binding.1, binding.2)) := by
  generalize isPairs : (bindings.map fun binding => (Value.var binding.1, binding.2)) = pairs
  let reader := Reader.ofVars machine.silent enough world sound
  have vars : ∀ pair ∈ pairs, ∃ var, pair.1 = .var var := by
    intro pair member
    rw [← isPairs] at member
    rcases List.mem_map.mp member with ⟨binding, -, rfl⟩
    exact ⟨binding.1, rfl⟩
  have keys : ∀ pair ∈ pairs, reader.setting.IsKey pair.1 := by
    intro pair member
    rcases vars pair member with ⟨var, isVar⟩
    rw [isVar]
    exact ⟨.leaf rfl nofun, Nat.le_refl _⟩
  have isTable : (reader.addAll ∅ pairs).IsTable (reader.table pairs) := by
    apply Reader.isTable_addAll .empty
    have apart : Function.Injective fun var : Ref .var => (Value.var var).varDatum :=
      fun left right same => by cases Value.eq_of_varDatum_eq same; rfl
    have data := distinct.map apart
    rw [List.map_map] at data
    rw [List.nil_append, Reader.keys_table, ← isPairs, List.map_map]
    exact data
  have achieves : Achieves reader.setting reader.start none (Value.ofPairs pairs) _ :=
    Reader.ofPairs_achieves (le_refl _) keys
  rcases achieves with ⟨_, after, ran, -, -, map, rfl, holds⟩
  rcases (Made.ofPairs pairs).quiet machine world _ _ ran with ⟨ranAnywhere, keeps⟩
  rcases holds.contents with ⟨entries, contents, -, made, -⟩
  rw [MapState.writeAll_map, ← MapState.writeAll_map .hash,
    Reader.writeAll_additions (by decide : MapKind.hash ≠ .array)] at made
  refine ⟨map, entries, after.world, ranAnywhere, keeps, after.maps_sound, contents, ?_⟩
  have distinctKeys := made.nodup
  rw [Reader.keys_table] at distinctKeys
  exact perm_of_varDatum vars distinctKeys (List.Perm.trans made isTable.symm)

end LispRuntime
