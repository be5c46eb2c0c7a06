import LispRuntime.Proofs.Dispatch.Preference

/-! What one pass over a method table comes to. It meets the candidates, the methods whose
tag the sought one is a kind of, in the order of the table, and keeps one of them at a time.
A candidate that dominates the one that is kept takes its place, whether or not it is itself
dominated; any other must be dominated by the one that is kept, or the pass ends in a tie. -/

namespace LispRuntime.Dispatch.Tables

variable {α μ : Type} {tables : Tables α μ} {preferences : TagTable α (TagSet α)}
  {hierarchy : Hierarchy α} {sought : Tag α} {best next last : Tag α × μ}

/-- The methods that match, in the order of the table. -/
def candidates (hierarchy : Hierarchy α) (sought : Tag α) (methods : TagTable α μ) :
    TagTable α μ :=
  methods.filter fun entry => hierarchy.isa sought entry.1

/-- One entry of a method table is above another. -/
abbrev Above (preferences : TagTable α (TagSet α)) (hierarchy : Hierarchy α)
    (upper lower : Tag α × μ) : Prop :=
  Dominates preferences hierarchy upper.1 lower.1

/-- Meeting some candidates with one of them kept, the pass ends with a last one. -/
inductive Keeps (above : Tag α × μ → Tag α × μ → Prop) :
    Tag α × μ → List (Tag α × μ) → Tag α × μ → Prop
  | done {best : Tag α × μ} : Keeps above best [] best
  | replaced {best next last : Tag α × μ} {rest : List (Tag α × μ)} : above next best →
      Keeps above next rest last → Keeps above best (next :: rest) last
  | stayed {best next last : Tag α × μ} {rest : List (Tag α × μ)} : ¬above next best →
      above best next → Keeps above best rest last → Keeps above best (next :: rest) last

/-- The pass over all candidates ends with a winner. -/
inductive Wins (above : Tag α × μ → Tag α × μ → Prop) :
    List (Tag α × μ) → Tag α × μ → Prop
  | intro {first last : Tag α × μ} {rest : List (Tag α × μ)} : Keeps above first rest last →
      Wins above (first :: rest) last

variable {above : Tag α × μ → Tag α × μ → Prop} {rest : List (Tag α × μ)}

theorem keeps_replaced_iff (isAbove : above next best) :
    Keeps above best (next :: rest) last ↔ Keeps above next rest last := by
  constructor
  · intro keeps
    cases keeps with
    | replaced _ keeps => exact keeps
    | stayed notAbove _ _ => exact absurd isAbove notAbove
  · exact .replaced isAbove

theorem keeps_stayed_iff (notAbove : ¬above next best) (isAbove : above best next) :
    Keeps above best (next :: rest) last ↔ Keeps above best rest last := by
  constructor
  · intro keeps
    cases keeps with
    | replaced isAbove _ => exact absurd isAbove notAbove
    | stayed _ _ keeps => exact keeps
  · exact .stayed notAbove isAbove

theorem not_keeps_of_tied (notAbove : ¬above next best) (notBelow : ¬above best next) :
    ¬Keeps above best (next :: rest) last := by
  intro keeps
  cases keeps with
  | replaced isAbove _ => exact notAbove isAbove
  | stayed _ isAbove _ => exact notBelow isAbove

theorem Keeps.unique {other : Tag α × μ} (keeps : Keeps above best rest last)
    (again : Keeps above best rest other) : last = other := by
  induction keeps with
  | done =>
      cases again
      rfl
  | replaced isAbove _ induction => exact induction ((keeps_replaced_iff isAbove).mp again)
  | stayed notAbove isAbove _ induction =>
      exact induction ((keeps_stayed_iff notAbove isAbove).mp again)

theorem wins_cons_iff {first : Tag α × μ} :
    Wins above (first :: rest) last ↔ Keeps above first rest last :=
  ⟨fun | .intro keeps => keeps, .intro⟩

theorem Wins.unique {entries : List (Tag α × μ)} {other : Tag α × μ}
    (wins : Wins above entries last) (again : Wins above entries other) : last = other := by
  cases wins with
  | intro keeps => exact keeps.unique (wins_cons_iff.mp again)

/-! ## One candidate -/

theorem candidates_cons_of_isa (isCandidate : hierarchy.isa sought next.1 = true) :
    candidates hierarchy sought (next :: rest) = next :: candidates hierarchy sought rest :=
  List.filter_cons_of_pos isCandidate

theorem candidates_cons_of_not (notCandidate : ¬hierarchy.isa sought next.1 = true) :
    candidates hierarchy sought (next :: rest) = candidates hierarchy sought rest :=
  List.filter_cons_of_neg notCandidate

theorem bestMatch_of_not {kept : Option (Tag α × μ)}
    (notCandidate : ¬hierarchy.isa sought next.1 = true) :
    tables.bestMatch hierarchy sought (next :: rest) kept =
      tables.bestMatch hierarchy sought rest kept := by
  rw [bestMatch, if_neg notCandidate]

theorem bestMatch_first (sound : hierarchy.Sound)
    (isCandidate : hierarchy.isa sought next.1 = true) :
    tables.bestMatch hierarchy sought (next :: rest) none =
      tables.bestMatch hierarchy sought rest (some next) := by
  have itself : tables.dominates hierarchy next.1 next.1 = some true :=
    dominates_of sound (dominates_self rfl)
  rw [bestMatch, if_pos isCandidate]
  simp [itself]

theorem bestMatch_replaced (sound : hierarchy.Sound)
    (isCandidate : hierarchy.isa sought next.1 = true)
    (isAbove : Above tables.preferences hierarchy next best) :
    tables.bestMatch hierarchy sought (next :: rest) (some best) =
      tables.bestMatch hierarchy sought rest (some next) := by
  have itself : tables.dominates hierarchy next.1 next.1 = some true :=
    dominates_of sound (dominates_self rfl)
  rw [bestMatch, if_pos isCandidate]
  simp [dominates_of sound isAbove, itself]

theorem bestMatch_stayed (sound : hierarchy.Sound)
    (isCandidate : hierarchy.isa sought next.1 = true)
    (notAbove : ¬Above tables.preferences hierarchy next best)
    (isAbove : Above tables.preferences hierarchy best next) :
    tables.bestMatch hierarchy sought (next :: rest) (some best) =
      tables.bestMatch hierarchy sought rest (some best) := by
  rw [bestMatch, if_pos isCandidate]
  simp [dominates_of_not sound notAbove, dominates_of sound isAbove]

theorem bestMatch_tied (sound : hierarchy.Sound)
    (isCandidate : hierarchy.isa sought next.1 = true)
    (notAbove : ¬Above tables.preferences hierarchy next best)
    (notBelow : ¬Above tables.preferences hierarchy best next) :
    tables.bestMatch hierarchy sought (next :: rest) (some best) =
      some (.error ⟨best.1, next.1⟩) := by
  rw [bestMatch, if_pos isCandidate]
  simp [dominates_of_not sound notAbove, dominates_of_not sound notBelow]

/-! ## The whole pass -/

/-- From a candidate that is kept the pass ends with one of them, or in a tie. -/
theorem bestMatch_some (tables : Tables α μ) (sound : hierarchy.Sound) (sought : Tag α)
    (methods : TagTable α μ) (best : Tag α × μ) :
    (∃ last, Keeps (Above tables.preferences hierarchy) best
        (candidates hierarchy sought methods) last ∧
      tables.bestMatch hierarchy sought methods (some best) = some (.ok (some last.2))) ∨
    ((∀ last, ¬Keeps (Above tables.preferences hierarchy) best
        (candidates hierarchy sought methods) last) ∧
      ∃ tie, tables.bestMatch hierarchy sought methods (some best) = some (.error tie)) := by
  induction methods generalizing best with
  | nil => exact .inl ⟨best, .done, rfl⟩
  | cons next rest induction =>
      by_cases isCandidate : hierarchy.isa sought next.1 = true
      case neg =>
        rw [candidates_cons_of_not isCandidate, bestMatch_of_not isCandidate]
        exact induction best
      rw [candidates_cons_of_isa isCandidate]
      by_cases above : Above tables.preferences hierarchy next best
      · simp only [keeps_replaced_iff above, bestMatch_replaced sound isCandidate above]
        exact induction next
      by_cases below : Above tables.preferences hierarchy best next
      · simp only [keeps_stayed_iff above below,
          bestMatch_stayed sound isCandidate above below]
        exact induction best
      · exact .inr ⟨fun last => not_keeps_of_tied above below, _,
          bestMatch_tied sound isCandidate above below⟩

/-- Nothing matches, or there is a winner, or there is a tie. -/
theorem bestMatch_cases (tables : Tables α μ) (sound : hierarchy.Sound) (sought : Tag α)
    (methods : TagTable α μ) :
    (candidates hierarchy sought methods = [] ∧
      tables.bestMatch hierarchy sought methods none = some (.ok none)) ∨
    (∃ last, Wins (Above tables.preferences hierarchy)
        (candidates hierarchy sought methods) last ∧
      tables.bestMatch hierarchy sought methods none = some (.ok (some last.2))) ∨
    (candidates hierarchy sought methods ≠ [] ∧
      (∀ last, ¬Wins (Above tables.preferences hierarchy)
        (candidates hierarchy sought methods) last) ∧
      ∃ tie, tables.bestMatch hierarchy sought methods none = some (.error tie)) := by
  induction methods with
  | nil => exact .inl ⟨rfl, rfl⟩
  | cons next rest induction =>
      by_cases isCandidate : hierarchy.isa sought next.1 = true
      · simp only [candidates_cons_of_isa isCandidate, bestMatch_first sound isCandidate,
          wins_cons_iff]
        refine .inr ((bestMatch_some tables sound sought rest next).imp_right ?_)
        exact fun ⟨never, tie⟩ => ⟨List.cons_ne_nil _ _, never, tie⟩
      · rw [candidates_cons_of_not isCandidate, bestMatch_of_not isCandidate]
        exact induction

end LispRuntime.Dispatch.Tables
