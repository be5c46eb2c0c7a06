import LispRuntime.Proofs.Dispatch.Resolution

/-! The cache of a multimethod. Tables work an answer out by their methods and preferences
alone, and an entry of the cache is right when it is what they would work out for its key.
Right entries stay right while nothing changes, and whatever changes either empties the
cache or leaves it to a version that the hierarchy is past. -/

namespace LispRuntime

namespace TagTable

variable {α β : Type} {table : TagTable α β} {tag : Tag α} {value : β}

/-- What is found is there, under a key with the label that was looked for. -/
theorem exists_of_lookup (found : TagTable.lookup table tag = some value) :
    ∃ key, (key, value) ∈ table ∧ tag.label = key.label := by
  rcases Option.map_eq_some_iff.mp found with ⟨⟨key, stored⟩, first, rfl⟩
  have same : tag.sameAs key = true := by simpa using List.find?_some first
  exact ⟨key, List.mem_of_find?_eq_some first, Tag.sameAs_iff.mp same⟩

theorem insert_of_lookup_eq_none (absent : TagTable.lookup table tag = none) (value : β) :
    TagTable.insert table tag value = table ++ [(tag, value)] := by
  induction table with
  | nil => rfl
  | cons entry rest induction =>
      rcases entry with ⟨key, stored⟩
      rw [lookup_cons] at absent
      split at absent
      case isTrue => cases absent
      case isFalse different =>
        rw [TagTable.insert, if_neg (different ∘ Tag.sameAs_iff.mp), induction absent]
        rfl

end TagTable

namespace Dispatch.Tables

variable {α μ : Type} {tables left right : Tables α μ} {hierarchy : Hierarchy α}
  {version older : Nat} {default sought : Tag α}

/-! ## What the answer depends on -/

/-- The answer that is worked out for a tag, without a look at the cache. -/
def uncached (tables : Tables α μ) (hierarchy : Hierarchy α) (default sought : Tag α) :
    Option (Except (Tie α) (Option μ)) :=
  (tables.findMethod hierarchy sought).map fun found => found.map (tables.orDefault default)

/-- The tables differ in their caches at most. -/
structure SameRules (left right : Tables α μ) : Prop where
  methods : left.methods = right.methods
  preferences : left.preferences = right.preferences

namespace SameRules

theorem refl (tables : Tables α μ) : SameRules tables tables := ⟨rfl, rfl⟩

theorem trans {middle : Tables α μ} (same : SameRules left middle)
    (sameAgain : SameRules middle right) : SameRules left right :=
  ⟨same.methods.trans sameAgain.methods, same.preferences.trans sameAgain.preferences⟩

theorem sync (tables : Tables α μ) (version : Nat) : SameRules (tables.sync version) tables :=
  ⟨methods_sync tables version, preferences_sync tables version⟩

theorem prefers_eq (same : SameRules left right) (hierarchy : Hierarchy α) (fuel : Nat)
    (preferred other : Tag α) :
    left.prefers hierarchy fuel preferred other = right.prefers hierarchy fuel preferred other := by
  have direct : left.directlyPrefers = right.directlyPrefers := by
    funext preferred other
    rw [directlyPrefers, directlyPrefers, same.preferences]
  induction fuel generalizing preferred other with
  | zero => rfl
  | succ fuel induction => simp only [prefers, direct, induction]

theorem dominates_eq (same : SameRules left right) (hierarchy : Hierarchy α)
    (upper lower : Tag α) :
    left.dominates hierarchy upper lower = right.dominates hierarchy upper lower := by
  rw [dominates, dominates, same.prefers_eq]

theorem bestMatch_eq (same : SameRules left right) (hierarchy : Hierarchy α) (sought : Tag α)
    (methods : TagTable α μ) (best : Option (Tag α × μ)) :
    left.bestMatch hierarchy sought methods best =
      right.bestMatch hierarchy sought methods best := by
  induction methods generalizing best with
  | nil => rfl
  | cons entry rest induction => simp only [bestMatch, same.dominates_eq, induction]

theorem uncached_eq (same : SameRules left right) (hierarchy : Hierarchy α)
    (default sought : Tag α) :
    left.uncached hierarchy default sought = right.uncached hierarchy default sought := by
  have fallback : left.orDefault default = right.orDefault default := by
    funext found
    cases found with
    | some => rfl
    | none => exact congrArg (TagTable.lookup · default) same.methods
  rw [uncached, uncached, fallback, findMethod, findMethod, same.methods, same.bestMatch_eq]

end SameRules

/-- Tags that equal tables hold for one, and that are kinds of the same tags, have one
answer. -/
theorem uncached_congr (tables : Tables α μ) (default : Tag α) {first second : Tag α}
    (label : first.label = second.label)
    (kinds : ∀ key, hierarchy.isa first key = hierarchy.isa second key) :
    tables.uncached hierarchy default first = tables.uncached hierarchy default second := by
  have best : ∀ methods best, tables.bestMatch hierarchy first methods best =
      tables.bestMatch hierarchy second methods best := by
    intro methods
    induction methods with
    | nil => exact fun _ => rfl
    | cons entry rest induction =>
        intro best
        simp only [bestMatch, kinds, induction]
  rw [uncached, uncached, findMethod, findMethod, TagTable.lookup_congr _ label, best]

/-- There always is an answer. -/
theorem uncached_isSome (tables : Tables α μ) (sound : hierarchy.Sound)
    (default sought : Tag α) : (tables.uncached hierarchy default sought).isSome := by
  rw [uncached, Option.isSome_map, findMethod]
  split
  case h_1 => rfl
  case h_2 =>
    rcases bestMatch_cases tables sound sought tables.methods with
      ⟨-, ran⟩ | ⟨last, -, ran⟩ | ⟨-, -, tie, ran⟩ <;> rw [ran] <;> rfl

/-! ## Asking -/

/-- Methods are put into the cache; a tie is not, nor that there is no method. -/
def remember (tables : Tables α μ) (sought : Tag α) :
    Except (Tie α) (Option μ) → Tables α μ
  | .ok (some method) => { tables with cache := tables.cache.insert sought method }
  | .ok none | .error _ => tables

theorem resolve_of_cached {method : μ}
    (known : (tables.sync version).cache.lookup sought = some method) :
    tables.resolve hierarchy version default sought =
      some (.ok (some method), tables.sync version) := by
  simp only [resolve, known]

theorem resolve_of_not_cached (unknown : (tables.sync version).cache.lookup sought = none) :
    tables.resolve hierarchy version default sought =
      (tables.uncached hierarchy default sought).map fun answer =>
        (answer, (tables.sync version).remember sought answer) := by
  rw [← (SameRules.sync tables version).uncached_eq]
  simp only [resolve, unknown, uncached, Option.map_map]
  rcases (tables.sync version).findMethod hierarchy sought with _ | (tie | found)
  · rfl
  · rfl
  · simp only [Option.bind_eq_bind, Option.bind_some, Option.map_some, Function.comp_apply]
    cases chosen : (tables.sync version).orDefault default found <;>
      simp [Except.map, chosen, remember]

theorem SameRules.remember (tables : Tables α μ) (sought : Tag α)
    (answer : Except (Tie α) (Option μ)) : SameRules (tables.remember sought answer) tables := by
  unfold Tables.remember
  split <;> exact ⟨rfl, rfl⟩

theorem resolve_sync (tables : Tables α μ) (hierarchy : Hierarchy α) (version : Nat)
    (default sought : Tag α) :
    (tables.sync version).resolve hierarchy version default sought =
      tables.resolve hierarchy version default sought := by
  have still : (tables.sync version).sync version = tables.sync version := by
    unfold Tables.sync
    split <;> simp
  simp only [resolve, still]

theorem mem_of_mem_sync {entry : Tag α × μ} (member : entry ∈ (tables.sync version).cache) :
    entry ∈ tables.cache := by
  unfold Tables.sync at member
  split at member
  · exact member
  · cases member

/-- What is asked for is all that can be new in the cache. -/
theorem mem_cache_resolve {answer : Except (Tie α) (Option μ)} {after : Tables α μ}
    {entry : Tag α × μ}
    (ran : tables.resolve hierarchy version default sought = some (answer, after))
    (member : entry ∈ after.cache) : entry ∈ tables.cache ∨ entry.1 = sought := by
  cases known : (tables.sync version).cache.lookup sought with
  | some method =>
      cases ran.symm.trans (resolve_of_cached known)
      exact .inl (mem_of_mem_sync member)
  | none =>
      rw [resolve_of_not_cached known] at ran
      rcases Option.map_eq_some_iff.mp ran with ⟨worked, -, pair⟩
      cases pair
      unfold Tables.remember at member
      split at member
      case h_1 =>
        rw [TagTable.insert_of_lookup_eq_none known] at member
        rcases List.mem_append.mp member with old | new
        · exact .inl (mem_of_mem_sync old)
        · exact .inr (congrArg Prod.fst (List.mem_singleton.mp new))
      case h_2 | h_3 => exact .inl (mem_of_mem_sync member)

theorem prefer_eq_some {preferred other : Tag α} {after : Tables α μ}
    (ran : tables.prefer hierarchy preferred other = some (some after)) :
    after = Tables.forget { tables with
      preferences := tables.preferences.insert preferred
        (TagSet.insert ((tables.preferences.lookup preferred).getD []) other) } := by
  rcases Option.bind_eq_some_iff.mp ran with ⟨isRefused, -, rest⟩
  cases isRefused with
  | true => cases rest
  | false =>
      cases rest
      rfl

/-- Asking changes nothing but the cache. -/
theorem SameRules.resolve {answer : Except (Tie α) (Option μ)} {after : Tables α μ}
    (ran : tables.resolve hierarchy version default sought = some (answer, after)) :
    SameRules after tables := by
  cases known : (tables.sync version).cache.lookup sought with
  | some method =>
      cases ran.symm.trans (resolve_of_cached known)
      exact .sync tables version
  | none =>
      rw [resolve_of_not_cached known] at ran
      rcases Option.map_eq_some_iff.mp ran with ⟨worked, -, pair⟩
      cases pair
      exact (SameRules.remember _ sought answer).trans (.sync tables version)

/-! ## Right entries -/

/-- The cache belongs to no version that is still to come, and if it belongs to this one
its entries are right. -/
structure Fresh (tables : Tables α μ) (hierarchy : Hierarchy α) (version : Nat)
    (default : Tag α) : Prop where
  reached : tables.cachedVersion ≤ version
  right : tables.cachedVersion = version → ∀ entry ∈ tables.cache,
    tables.uncached hierarchy default entry.1 = some (.ok (some entry.2))

namespace Fresh

theorem of_forgotten (hierarchy : Hierarchy α) (default : Tag α)
    (reached : tables.cachedVersion ≤ version) :
    tables.forget.Fresh hierarchy version default :=
  ⟨reached, fun _ => nofun⟩

theorem empty (hierarchy : Hierarchy α) (version : Nat) (default : Tag α) :
    (empty : Tables α μ).Fresh hierarchy version default :=
  ⟨Nat.zero_le _, fun _ => nofun⟩

/-- A later version makes the whole cache out of date. -/
theorem outdated (fresh : tables.Fresh hierarchy version default) {later : Nat}
    (lt : version < later) (changed : Hierarchy α) : tables.Fresh changed later default where
  reached := Nat.le_of_lt (Nat.lt_of_le_of_lt fresh.reached lt)
  right same := absurd (same ▸ fresh.reached) (Nat.not_le_of_lt lt)

theorem sync (fresh : tables.Fresh hierarchy version default) (le : older ≤ version) :
    (tables.sync older).Fresh hierarchy version default := by
  unfold Tables.sync
  split
  case isTrue => exact fresh
  case isFalse => exact ⟨le, fun _ => nofun⟩

theorem remember (fresh : tables.Fresh hierarchy version default)
    (unknown : tables.cache.lookup sought = none) {answer : Except (Tie α) (Option μ)}
    (worked : tables.uncached hierarchy default sought = some answer) :
    (tables.remember sought answer).Fresh hierarchy version default := by
  have same := SameRules.remember tables sought answer
  unfold Tables.remember at same ⊢
  split at same
  case h_1 method =>
    refine ⟨fresh.reached, fun isCurrent entry member => ?_⟩
    rw [same.uncached_eq]
    rw [TagTable.insert_of_lookup_eq_none unknown] at member
    rcases List.mem_append.mp member with old | new
    · exact fresh.right isCurrent entry old
    · rw [List.mem_singleton.mp new]
      exact worked
  case h_2 | h_3 => exact fresh

/-- Asking keeps the cache right, even with a version that was read some time ago. -/
theorem resolve (fresh : tables.Fresh hierarchy version default) (le : older ≤ version)
    {answer : Except (Tie α) (Option μ)} {after : Tables α μ}
    (ran : tables.resolve hierarchy older default sought = some (answer, after)) :
    after.Fresh hierarchy version default := by
  cases known : (tables.sync older).cache.lookup sought with
  | some method =>
      cases ran.symm.trans (resolve_of_cached known)
      exact fresh.sync le
  | none =>
      rw [resolve_of_not_cached known] at ran
      rcases Option.map_eq_some_iff.mp ran with ⟨worked, isAnswer, pair⟩
      cases pair
      apply (fresh.sync le).remember known
      rw [(SameRules.sync tables older).uncached_eq, isAnswer]

theorem removeMethod (fresh : tables.Fresh hierarchy version default) (tag : Tag α) :
    (tables.removeMethod tag).2.Fresh hierarchy version default := by
  unfold Tables.removeMethod
  split
  · exact .of_forgotten hierarchy default fresh.reached
  · exact fresh

theorem prefer (fresh : tables.Fresh hierarchy version default) {preferred other : Tag α}
    {after : Tables α μ}
    (ran : tables.prefer hierarchy preferred other = some (some after)) :
    after.Fresh hierarchy version default := by
  rw [prefer_eq_some ran]
  exact .of_forgotten hierarchy default fresh.reached

end Fresh

/-- What is answered by a cache that is right is what would be worked out for a tag with the
same label: the one that is in the cache, or else the one that was asked for. -/
theorem Fresh.resolve_eq (fresh : tables.Fresh hierarchy version default)
    (sound : hierarchy.Sound) (sought : Tag α) :
    ∃ asked answer after, tables.resolve hierarchy version default sought = some (answer, after) ∧
      (asked = sought ∨ ∃ method, (asked, method) ∈ tables.cache) ∧
      asked.label = sought.label ∧
      tables.uncached hierarchy default asked = some answer := by
  cases known : (tables.sync version).cache.lookup sought with
  | some method =>
      rcases TagTable.exists_of_lookup known with ⟨key, member, label⟩
      refine ⟨key, .ok (some method), _, resolve_of_cached known, ?_, label.symm, ?_⟩
      all_goals
        unfold Tables.sync at member
        split at member
      · exact .inr ⟨method, member⟩
      · cases member
      · exact fresh.right ‹_› (key, method) member
      · cases member
  | none =>
      rcases Option.isSome_iff_exists.mp (tables.uncached_isSome sound default sought) with
        ⟨answer, worked⟩
      exact ⟨sought, answer, _, by rw [resolve_of_not_cached known, worked]; rfl, .inl rfl, rfl,
        worked⟩

/-- Without a cache the answer is worked out. -/
theorem resolve_forget (tables : Tables α μ) (hierarchy : Hierarchy α) (version : Nat)
    (default sought : Tag α) :
    (tables.forget.resolve hierarchy version default sought).map Prod.fst =
      tables.uncached hierarchy default sought := by
  have unknown : (tables.forget.sync version).cache.lookup sought = none := by
    unfold Tables.sync
    split <;> rfl
  have same : SameRules tables.forget tables := ⟨rfl, rfl⟩
  rw [resolve_of_not_cached unknown, Option.map_map, same.uncached_eq]
  exact Option.map_id'

end Dispatch.Tables

end LispRuntime
