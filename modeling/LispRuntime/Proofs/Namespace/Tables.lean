import LispRuntime.Namespace.Basic
import Mathlib.Data.List.Nodup

/-! Tables by symbol: what is found in one after each way to change it. -/

namespace LispRuntime.Space

variable {β : Type} {table : List (Symbol × β)} {symbol key : Symbol} {value : β}

theorem findSymbol_cons (symbol : Symbol) (entry : Symbol × β) (rest : List (Symbol × β)) :
    findSymbol symbol (entry :: rest) =
      if symbol = entry.1 then some entry.2 else findSymbol symbol rest := by
  by_cases same : symbol = entry.1
  · simp [findSymbol, same]
  · simp [findSymbol, same, Ne.symm same]

theorem findSymbol_insertSymbol (symbol key : Symbol) (value : β) (table : List (Symbol × β)) :
    findSymbol symbol (insertSymbol key value table) =
      if symbol = key then some value else findSymbol symbol table := by
  induction table with
  | nil => exact findSymbol_cons symbol (key, value) []
  | cons entry rest induction =>
      rcases entry with ⟨other, old⟩
      rw [insertSymbol]
      by_cases here : other = key
      · subst here
        rw [if_pos (beq_self_eq_true _), findSymbol_cons, findSymbol_cons]
        split <;> rfl
      · rw [if_neg (here ∘ beq_iff_eq.mp), findSymbol_cons, findSymbol_cons, induction]
        by_cases same : symbol = other
        · subst same
          simp [here]
        · simp [same]

theorem findSymbol_eraseSymbol (symbol key : Symbol) (table : List (Symbol × β)) :
    findSymbol symbol (eraseSymbol key table) =
      if symbol = key then none else findSymbol symbol table := by
  induction table with
  | nil => simp [eraseSymbol, findSymbol]
  | cons entry rest induction =>
      unfold eraseSymbol at induction ⊢
      rw [List.filter_cons]
      by_cases here : entry.1 = key
      · rw [if_neg (by simp [here]), induction, findSymbol_cons, here]
        split <;> rfl
      · rw [if_pos (by simp [here]), findSymbol_cons, findSymbol_cons, induction]
        by_cases same : symbol = entry.1
        · subst same
          simp [here]
        · simp [same]

theorem mem_of_findSymbol (found : findSymbol symbol table = some value) :
    (symbol, value) ∈ table := by
  rcases Option.map_eq_some_iff.mp found with ⟨⟨other, stored⟩, first, rfl⟩
  have same : other = symbol := by simpa using List.find?_some first
  exact same ▸ List.mem_of_find?_eq_some first

theorem findSymbol_eq_none (absent : symbol ∉ table.map Prod.fst) :
    findSymbol symbol table = none := by
  cases found : findSymbol symbol table with
  | none => rfl
  | some value => exact absurd (List.mem_map.mpr ⟨_, mem_of_findSymbol found, rfl⟩) absent

theorem mem_of_mem_insertSymbol {entry : Symbol × β}
    (member : entry ∈ insertSymbol key value table) : entry = (key, value) ∨ entry ∈ table := by
  induction table with
  | nil => exact .inl (List.mem_singleton.mp member)
  | cons first rest induction =>
      rcases first with ⟨other, old⟩
      rw [insertSymbol] at member
      split at member
      · exact (List.mem_cons.mp member).imp_right (List.mem_cons_of_mem _)
      · rcases List.mem_cons.mp member with rfl | inside
        · exact .inr (List.mem_cons_self ..)
        · exact (induction inside).imp_right (List.mem_cons_of_mem _)

theorem mem_of_mem_eraseSymbol {entry : Symbol × β} (member : entry ∈ eraseSymbol key table) :
    entry ∈ table :=
  List.mem_of_mem_filter member

/-! ## Tables in which no symbol stands twice -/

abbrev Distinct (table : List (Symbol × β)) : Prop := (table.map Prod.fst).Nodup

theorem Distinct.findSymbol_of_mem (distinct : Distinct table) (member : (symbol, value) ∈ table) :
    findSymbol symbol table = some value := by
  induction table with
  | nil => cases member
  | cons entry rest induction =>
      rcases List.nodup_cons.mp distinct with ⟨absent, restDistinct⟩
      rw [findSymbol_cons]
      rcases List.mem_cons.mp member with rfl | inside
      · exact if_pos rfl
      · have different : symbol ≠ entry.1 := by
          rintro rfl
          exact absent (List.mem_map.mpr ⟨_, inside, rfl⟩)
        rw [if_neg different, induction restDistinct inside]

theorem Distinct.insertSymbol (distinct : Distinct table) (key : Symbol) (value : β) :
    Distinct (insertSymbol key value table) := by
  induction table with
  | nil => exact List.nodup_singleton key
  | cons entry rest induction =>
      rcases entry with ⟨other, old⟩
      rcases List.nodup_cons.mp distinct with ⟨absent, restDistinct⟩
      rw [Space.insertSymbol]
      by_cases here : other = key
      · subst here
        rw [if_pos (beq_self_eq_true _)]
        exact distinct
      · rw [if_neg (here ∘ beq_iff_eq.mp)]
        refine List.nodup_cons.mpr ⟨fun member => ?_, induction restDistinct⟩
        rcases List.mem_map.mp member with ⟨entry, inside, same⟩
        rcases mem_of_mem_insertSymbol inside with rfl | old
        · exact here same.symm
        · exact absent (List.mem_map.mpr ⟨entry, old, same⟩)

theorem Distinct.eraseSymbol (distinct : Distinct table) (key : Symbol) :
    Distinct (eraseSymbol key table) :=
  distinct.sublist (List.filter_sublist.map _)

/-! ## Several entries -/

/-- The entries are put in one after the other. -/
def insertEach (entries table : List (Symbol × β)) : List (Symbol × β) :=
  entries.foldl (fun table entry => insertSymbol entry.1 entry.2 table) table

theorem findSymbol_insertEach {entries : List (Symbol × β)} (distinct : Distinct entries)
    (symbol : Symbol) (table : List (Symbol × β)) :
    findSymbol symbol (insertEach entries table) =
      (findSymbol symbol entries).or (findSymbol symbol table) := by
  induction entries generalizing table with
  | nil => rfl
  | cons entry rest induction =>
      rcases List.nodup_cons.mp distinct with ⟨absent, restDistinct⟩
      have onward := induction restDistinct (insertSymbol entry.1 entry.2 table)
      rw [findSymbol_insertSymbol] at onward
      rw [findSymbol_cons]
      refine onward.trans ?_
      by_cases same : symbol = entry.1
      · subst same
        rw [if_pos rfl, if_pos rfl, findSymbol_eq_none absent]
        rfl
      · rw [if_neg same, if_neg same]

end LispRuntime.Space
