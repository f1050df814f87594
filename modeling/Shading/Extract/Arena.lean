import Shading.Extract.Index

/-!
# The arena of declarations

The tables behind a declaration index, one for each category.  They are filled item by
item: a declaration is numbered by the length of its table before it is put in, and under
this number it is put into the map of its names.  Functions and structs have a map each and
all other categories share one, so that a name is found without a walk over a table.  What
the declarations refer to is filled in when all of them are known.
-/

namespace Shading

/-- What is put in under names, for each name in the order in which it was put in. -/
abbrev NameMap (α : Type) := List (String × List α)

namespace NameMap

variable {α : Type}

/-- Everything under the name, in source order; a name without entries has none. -/
def get (m : NameMap α) (name : String) : List α := (m.lookup name).getD []

/-- Puts a value under a name, behind the others of the name. -/
def add : NameMap α → String → α → NameMap α
  | [], name, a => [(name, [a])]
  | (other, as) :: rest, name, a =>
    if name = other then (other, as ++ [a]) :: rest else (other, as) :: add rest name a

end NameMap

/-- A declaration in its table. -/
structure Row where
  name : String
  item : Nat
  entry : Option Nat
  span : Span
  uses : Dependencies

namespace Row

/-- The site of a row of the table of a category. -/
def site (r : Row) (category : Category) : Site := ⟨category, r.name, r.item, r.entry, r.span⟩

/-- A row as the declaration of its key. -/
def declaration (r : Row) (key : Key) : Declaration :=
  ⟨key, r.name, r.item, r.entry, r.span, r.uses⟩

end Row

/-- One table for each kind of declaration, with the names of those that are looked up by name. -/
structure Arena where
  functions : List Row
  structs : List Row
  globals : List Row
  inputs : List Row
  outputs : List Row
  externals : List Row
  consts : List Row
  options : List Row
  /-- The numbers of the functions that are entries. -/
  entryPoints : List (Nat × EntryPoint)
  /-- The items that every stage keeps. -/
  passthrough : List Nat
  functionsByName : NameMap Nat
  structsByName : NameMap Nat
  valuesByName : NameMap Key

namespace Arena

/-- The arena before any declaration is added. -/
def empty : Arena := ⟨[], [], [], [], [], [], [], [], [], [], [], [], []⟩

/-- The table of a category. -/
def table (a : Arena) : Category → List Row
  | .function => a.functions
  | .struct => a.structs
  | .global => a.globals
  | .input => a.inputs
  | .output => a.outputs
  | .external => a.externals
  | .const => a.consts
  | .option => a.options

/-- Puts rows in place of the table of a category. -/
def setTable (a : Arena) (category : Category) (rows : List Row) : Arena :=
  match category with
  | .function => { a with functions := rows }
  | .struct => { a with structs := rows }
  | .global => { a with globals := rows }
  | .input => { a with inputs := rows }
  | .output => { a with outputs := rows }
  | .external => { a with externals := rows }
  | .const => { a with consts := rows }
  | .option => { a with options := rows }

/-- The key of the next declaration of a category. -/
def nextKey (a : Arena) (category : Category) : Key := ⟨category, (a.table category).length⟩

/-- Puts a key into the map that its category belongs to. -/
def addName (a : Arena) (name : String) (key : Key) : Arena :=
  match key.category with
  | .function => { a with functionsByName := a.functionsByName.add name key.number }
  | .struct => { a with structsByName := a.structsByName.add name key.number }
  | _ => { a with valuesByName := a.valuesByName.add name key }

/-- Puts a row behind the others of its table, after its name. -/
def declare (a : Arena) (category : Category) (row : Row) : Arena :=
  (a.addName row.name (a.nextKey category)).setTable category (a.table category ++ [row])

/-- Puts in the entries of a block one after another. -/
def declareEntries {α : Type} (a : Arena) (category : Category) (item : Nat)
    (name : α → String) (span : α → Span) (entries : List α) : Arena :=
  entries.zipIdx.foldl (fun a (e, i) =>
    a.declare category ⟨name e, item, some i, span e, .empty⟩) a

/-- Notes an entry function before it is put in. -/
def noteEntry (a : Arena) (f : Signature) : Arena :=
  match f.entry with
  | some entry => { a with entryPoints := a.entryPoints ++ [(a.functions.length, entry)] }
  | none => a

/-- Puts in the declarations of an item. -/
def register (a : Arena) (item : Nat) : Stmt → Except ExtractError Arena
  | .function s f _ => .ok ((a.noteEntry f).declare .function ⟨f.name, item, none, s, .empty⟩)
  | .struct s d => .ok (a.declare .struct ⟨d.name, item, none, s, .empty⟩)
  | .var s d => .ok (a.declare .global ⟨d.name, item, none, s, .empty⟩)
  | .inputs _ vs => .ok (a.declareEntries .input item (·.name) (·.span) vs)
  | .outputs _ vs => .ok (a.declareEntries .output item (·.name) (·.span) vs)
  | .externals _ vs => .ok (a.declareEntries .external item (·.name) (·.span) vs)
  | .consts _ ds => .ok (a.declareEntries .const item (·.name) (·.span) ds)
  | .options _ ds => .ok (a.declareEntries .option item (·.name) (·.span) ds)
  | .library _ _ => .ok { a with passthrough := a.passthrough ++ [item] }
  | .optional s _ _ _ => .error (.unspecialized s)
  | _ => .ok a

/-- Every key, table by table. -/
def keys (a : Arena) : List Key :=
  Category.all.flatMap fun c => (List.range (a.table c).length).map (Key.mk c)

/-- The declaration with the key. -/
def get? (a : Arena) (key : Key) : Option Declaration :=
  (a.table key.category)[key.number]?.map (·.declaration key)

/-- Fills in what the declaration of a key refers to. -/
def collect (items : List Stmt) (externals : List String) (a : Arena) (key : Key) : Arena :=
  a.setTable key.category <| (a.table key.category).modify key.number fun row =>
    { row with uses := DeclarationIndex.usesOf items externals (row.site key.category) }

/-- The arena of flat items, none of which may be an optional block. -/
def build (items : List Stmt) : Except ExtractError Arena := do
  let a ← items.zipIdx.foldlM (fun a (s, i) => a.register i s) empty
  return a.keys.foldl (collect items (a.externals.map (·.name))) a

/-- The numbers of the functions with the name. -/
def functionsNamed (a : Arena) (name : String) : List Nat := a.functionsByName.get name

/-- The numbers of the structs with the name. -/
def structsNamed (a : Arena) (name : String) : List Nat := a.structsByName.get name

/-- The keys of the values with the name, of whatever kind they are. -/
def valuesNamed (a : Arena) (name : String) : List Key := a.valuesByName.get name

end Arena

end Shading
