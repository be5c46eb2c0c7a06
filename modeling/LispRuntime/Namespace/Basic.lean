import LispRuntime.Cell.Var

/-! Namespaces. A namespace interns vars of its own and may refer to vars of
others; a symbol is mapped to one var at a time. Aliases are short names for
other namespaces. -/

namespace LispRuntime.Space

abbrev Cell := Ref .space

/-! ## Tables by symbol -/

def findSymbol {β : Type} (symbol : Symbol) (table : List (Symbol × β)) : Option β :=
  (table.find? fun entry => entry.1 == symbol).map Prod.snd

def insertSymbol {β : Type} (symbol : Symbol) (value : β) :
    List (Symbol × β) → List (Symbol × β)
  | [] => [(symbol, value)]
  | (other, old) :: rest =>
      if other == symbol then (symbol, value) :: rest
      else (other, old) :: insertSymbol symbol value rest

def eraseSymbol {β : Type} (symbol : Symbol) (table : List (Symbol × β)) :
    List (Symbol × β) :=
  table.filter fun entry => !(entry.1 == symbol)

/-! ## Namespaces and their vars -/

def create (name : Symbol) : Run Cell := do
  let world ← get
  set { world with spaces := world.spaces.push ⟨name, [], []⟩ }
  return ⟨world.spaces.next⟩

def name (cell : Cell) : Run Symbol := do return (← Run.spaceAt cell).name

def change (cell : Cell) (change : SpaceCell → SpaceCell) : Run Unit :=
  Run.update fun world => { world with spaces := world.spaces.modify cell.index change }

/-- Was this var interned here? -/
def owns (cell : Cell) (var : Ref .var) : Run Bool := do
  return (← Run.varAt var).home == cell

/-- The var that a symbol is mapped to, interned or referred. -/
def lookup (cell : Cell) (symbol : Symbol) : Run (Option (Ref .var)) := do
  return findSymbol symbol (← Run.spaceAt cell).mappings

/-- The var interned here under a symbol. -/
def findVar (cell : Cell) (symbol : Symbol) : Run (Option (Ref .var)) := do
  match ← lookup cell symbol with
  | some var => return if ← owns cell var then some var else none
  | none => return none

def mapTo (cell : Cell) (symbol : Symbol) (var : Ref .var) : Run Unit :=
  change cell fun space =>
    { space with mappings := insertSymbol symbol var space.mappings }

def newVar (cell : Cell) (symbol : Symbol) : Run (Ref .var) := do
  let homeName ← name cell
  let world ← get
  set { world with
    vars := world.vars.push ⟨cell, homeName, symbol, none, false, none⟩ }
  return ⟨world.vars.next⟩

/-- The var of a symbol, made if there is none. A var of another namespace that
was referred under the symbol gives way to a new one. -/
def intern (cell : Cell) (symbol : Symbol) : Attempt (Ref .var) := do
  if symbol.isQualified then
    throw (.evaluation ("Can't intern namespace-qualified symbol: " ++ symbol.text))
  match ← findVar cell symbol with
  | some var => return var
  | none =>
      let var ← newVar cell symbol
      mapTo cell symbol var
      return var

def internValue (cell : Cell) (symbol : Symbol) (value : Value) : Attempt (Ref .var) := do
  let var ← intern cell symbol
  Var.bindRoot var value
  return var

def internDynamic (cell : Cell) (symbol : Symbol) (value : Value) :
    Attempt (Ref .var) := do
  let var ← internValue cell symbol value
  Var.setDynamic var true
  return var

/-- Maps a symbol to a var of another namespace. A var of one's own under the
symbol is not given up. -/
def refer (cell : Cell) (symbol : Symbol) (var : Ref .var) : Attempt Unit := do
  match ← findVar cell symbol with
  | some existing =>
      if existing != var then
        throw (.referConflict symbol (← Run.varAt existing).text (← name cell))
  | none => pure ()
  mapTo cell symbol var

/-- Whether there was a mapping to remove. -/
def unmap (cell : Cell) (symbol : Symbol) : Run Bool := do
  let isMapped := (← lookup cell symbol).isSome
  change cell fun space => { space with mappings := eraseSymbol symbol space.mappings }
  return isMapped

/-! ## Lists of mappings -/

abbrev Mapping := Symbol × Ref .var

def mappings (cell : Cell) : Run (List Mapping) := do
  return (← Run.spaceAt cell).mappings

/-- Mappings to vars that pass a test. -/
def selectVars (test : Ref .var → Run Bool) : List Mapping → Run (List Mapping)
  | [] => return []
  | (symbol, var) :: rest => do
      if ← test var then return (symbol, var) :: (← selectVars test rest)
      else selectVars test rest

def interns (cell : Cell) : Run (List Mapping) := do
  selectVars (owns cell) (← mappings cell)

def refers (cell : Cell) : Run (List Mapping) := do
  selectVars (fun var => return !(← owns cell var)) (← mappings cell)

def publics (cell : Cell) : Run (List Mapping) := do
  selectVars Var.isPublic (← interns cell)

def referEach (cell : Cell) : List Mapping → Attempt Unit
  | [] => return ()
  | (symbol, var) :: rest => do
      refer cell symbol var
      referEach cell rest

/-- Refers every public var of another namespace, up to the first conflict. -/
def referAll (cell source : Cell) : Attempt Unit := do
  referEach cell (← publics source)

/-! ## Aliases -/

def findAlias (cell : Cell) (symbol : Symbol) : Run (Option Cell) := do
  return findSymbol symbol (← Run.spaceAt cell).aliases

/-- An alias is never moved to another namespace. -/
def addAlias (cell : Cell) (symbol : Symbol) (target : Cell) : Attempt Unit := do
  match ← findAlias cell symbol with
  | some existing =>
      if existing != target then
        throw (.aliasConflict symbol (← name cell) (← name existing))
  | none =>
      change cell fun space =>
        { space with aliases := insertSymbol symbol target space.aliases }

def removeAlias (cell : Cell) (symbol : Symbol) : Run Bool := do
  let isAlias := (← findAlias cell symbol).isSome
  change cell fun space => { space with aliases := eraseSymbol symbol space.aliases }
  return isAlias

def aliases (cell : Cell) : Run (List (Symbol × Cell)) := do
  return (← Run.spaceAt cell).aliases

/-- The var a symbol stands for here. A qualifier is the name of this namespace
or an alias, and leads to vars that are interned there. -/
def resolve (cell : Cell) (symbol : Symbol) : Run (Option (Ref .var)) := do
  match symbol.qualifierSymbol with
  | none => lookup cell symbol
  | some qualifier =>
      if qualifier = (← name cell) then findVar cell symbol.unqualified
      else
        match ← findAlias cell qualifier with
        | some target => findVar target symbol.unqualified
        | none => return none

end LispRuntime.Space
