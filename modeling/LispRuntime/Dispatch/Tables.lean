import LispRuntime.Hierarchy.Basic

/-! The tables of a multimethod: its methods, its preferences, and a cache of
answers that were already worked out for a version of the hierarchy. -/

namespace LispRuntime.Dispatch

structure Tables (α μ : Type) where
  methods : TagTable α μ
  /-- For a tag, the tags that it is preferred over. -/
  preferences : TagTable α (TagSet α)
  cache : TagTable α μ
  /-- The version of the hierarchy that the cache belongs to. -/
  cachedVersion : Nat

namespace Tables

variable {α μ : Type}

def empty : Tables α μ := ⟨[], [], [], 0⟩

instance : Inhabited (Tables α μ) := ⟨empty⟩

def forget (tables : Tables α μ) : Tables α μ := { tables with cache := [] }

def directlyPrefers (tables : Tables α μ) (preferred other : Tag α) : Bool :=
  TagSet.has ((tables.preferences.lookup preferred).getD []) other

/-! Some questions climb the links of the hierarchy. Their fuel bounds how far,
and `none` says that it did not suffice. -/

/-- The first answer that is not no. -/
def anyOf {β : Type} (test : β → Option Bool) : List β → Option Bool
  | [] => some false
  | element :: rest => do
      if ← test element then return true
      anyOf test rest

/-- Preferred directly, or over a parent of the other, or through a parent of
one's own. -/
def prefers (tables : Tables α μ) (hierarchy : Hierarchy α) :
    Nat → Tag α → Tag α → Option Bool
  | 0, _, _ => none
  | fuel + 1, preferred, other => do
      if tables.directlyPrefers preferred other then return true
      if ← anyOf (fun parent => tables.prefers hierarchy fuel preferred parent)
          (hierarchy.parentsOf other) then return true
      anyOf (fun parent => tables.prefers hierarchy fuel parent other)
        (hierarchy.parentsOf preferred)

/-- Enough fuel for climbing on both sides. -/
def climbingFuel (hierarchy : Hierarchy α) : Nat := 2 * hierarchy.size + 1

def dominates (tables : Tables α μ) (hierarchy : Hierarchy α)
    (upper lower : Tag α) : Option Bool := do
  if ← tables.prefers hierarchy (climbingFuel hierarchy) upper lower then
    return true
  return hierarchy.isa upper lower

/-! ## Choosing a method -/

/-- Two methods that both match, neither above the other. -/
structure Tie (α : Type) where
  first : Tag α
  second : Tag α

/-- Goes through a method table and keeps the best match so far. A match that
dominates the best one takes its place; one that is left beside it undominated
is a tie. -/
def bestMatch (tables : Tables α μ) (hierarchy : Hierarchy α) (sought : Tag α) :
    TagTable α μ → Option (Tag α × μ) → Option (Except (Tie α) (Option μ))
  | [], best => some (.ok (best.map Prod.snd))
  | (key, method) :: rest, best =>
      if hierarchy.isa sought key then do
        let current ←
          match best with
          | none => some (key, method)
          | some (bestKey, bestMethod) =>
              (tables.dominates hierarchy key bestKey).map fun above =>
                if above then (key, method) else (bestKey, bestMethod)
        if ← tables.dominates hierarchy current.1 key then
          tables.bestMatch hierarchy sought rest (some current)
        else some (.error ⟨current.1, key⟩)
      else tables.bestMatch hierarchy sought rest best

/-- The method of exactly this tag, or else the best match. -/
def findMethod (tables : Tables α μ) (hierarchy : Hierarchy α) (sought : Tag α) :
    Option (Except (Tie α) (Option μ)) :=
  match tables.methods.lookup sought with
  | some method => some (.ok (some method))
  | none => tables.bestMatch hierarchy sought tables.methods none

/-- What was found, or else the method of the default tag. -/
def orDefault (tables : Tables α μ) (default : Tag α) (found : Option μ) : Option μ :=
  match found with
  | some method => some method
  | none => tables.methods.lookup default

/-- Empties a cache that belongs to another version of the hierarchy. -/
def sync (tables : Tables α μ) (version : Nat) : Tables α μ :=
  if tables.cachedVersion = version then tables
  else { tables with cache := [], cachedVersion := version }

/-- The method for a tag, by the cache if it has one, together with the tables
after the question. Only methods that were found are cached. -/
def resolve (tables : Tables α μ) (hierarchy : Hierarchy α) (version : Nat)
    (default sought : Tag α) :
    Option (Except (Tie α) (Option μ) × Tables α μ) :=
  let tables := tables.sync version
  match tables.cache.lookup sought with
  | some method => some (.ok (some method), tables)
  | none => do
      match ← tables.findMethod hierarchy sought with
      | .error tie => return (.error tie, tables)
      | .ok found =>
          match tables.orDefault default found with
          | some method =>
              return (.ok (some method),
                { tables with cache := tables.cache.insert sought method })
          | none => return (.ok none, tables)

/-! ## Changes -/

def addMethod (tables : Tables α μ) (tag : Tag α) (method : μ) : Tables α μ :=
  { tables with methods := tables.methods.insert tag method }.forget

/-- Whether there was a method, and the tables without it. -/
def removeMethod (tables : Tables α μ) (tag : Tag α) : Bool × Tables α μ :=
  match tables.methods.lookup tag with
  | some _ => (true, { tables with methods := tables.methods.erase tag }.forget)
  | none => (false, tables)

def removeAll (tables : Tables α μ) : Tables α μ :=
  { tables with methods := [], preferences := [] }.forget

/-- Prefers one tag over another, unless the other is preferred already; then
the answer is `none` inside. -/
def prefer (tables : Tables α μ) (hierarchy : Hierarchy α)
    (preferred other : Tag α) : Option (Option (Tables α μ)) := do
  if ← tables.prefers hierarchy (climbingFuel hierarchy) other preferred then
    return none
  let below := (tables.preferences.lookup preferred).getD []
  return some
    { tables with
      preferences := tables.preferences.insert preferred (TagSet.insert below other) }.forget

end Tables

end LispRuntime.Dispatch
