import Shading.Extract.Dependencies
import Shading.Extract.Error

/-!
# The declarations of a file

Every declaration at file level, block declarations entry by entry, in source order.  A
key counts the declarations of one category.
-/

namespace Shading

/-- The categories of declarations, in the order that keys are listed in. -/
inductive Category where
  | function | struct | global | input | output | external | const | option
deriving DecidableEq

namespace Category

/-- Every category, in the order that `keys` goes through them. -/
def all : List Category :=
  [.function, .struct, .global, .input, .output, .external, .const, .option]

/-- Functions and structs have names of their own; all else is a value. -/
def isValue : Category → Bool
  | .function | .struct => false
  | _ => true

end Category

/-- A declaration by its category and its number in it. -/
structure Key where
  category : Category
  number : Nat
deriving DecidableEq

/-- A declaration as it stands in the file. -/
structure Site where
  category : Category
  name : String
  /-- The position of the owning item. -/
  item : Nat
  /-- The position in a block. -/
  entry : Option Nat
  span : Span

/-- A declaration of a tree: its key, the item it stands in and, in a block, its place there. -/
structure Declaration where
  key : Key
  name : String
  item : Nat
  entry : Option Nat
  span : Span
  uses : Dependencies

/-- The declarations of a tree, its entries and the items that every stage keeps. -/
structure DeclarationIndex where
  /-- All declarations in source order. -/
  declarations : List Declaration
  /-- The numbers of the functions that are entries. -/
  entryPoints : List (Nat × EntryPoint)
  /-- The items that every stage keeps. -/
  passthrough : List Nat

namespace DeclarationIndex

/-- The index of no items. -/
def empty : DeclarationIndex := ⟨[], [], []⟩

/-- The entries of a block. -/
def blockSites {α : Type} (category : Category) (item : Nat) (name : α → String)
    (span : α → Span) (entries : List α) : List Site :=
  entries.zipIdx.map fun (a, i) => ⟨category, name a, item, some i, span a⟩

/-- The declarations of an item. -/
def sites (item : Nat) : Stmt → List Site
  | .function s f _ => [⟨.function, f.name, item, none, s⟩]
  | .struct s d => [⟨.struct, d.name, item, none, s⟩]
  | .var s d => [⟨.global, d.name, item, none, s⟩]
  | .inputs _ vs => blockSites .input item (·.name) (·.span) vs
  | .outputs _ vs => blockSites .output item (·.name) (·.span) vs
  | .externals _ vs => blockSites .external item (·.name) (·.span) vs
  | .consts _ ds => blockSites .const item (·.name) (·.span) ds
  | .options _ ds => blockSites .option item (·.name) (·.span) ds
  | _ => []

/-- The keys of sites in order: each counts those of its category before it. -/
def keysFrom (before : List Category) : List Site → List Key
  | [] => []
  | s :: ss =>
    ⟨s.category, before.count s.category⟩ :: keysFrom (s.category :: before) ss

/-- The sites of all items in source order. -/
def allSites (items : List Stmt) : List Site :=
  items.zipIdx.flatMap fun (s, i) => sites i s

/-- The functions of a file in order. -/
def functions (items : List Stmt) : List Signature :=
  items.filterMap fun
    | .function _ f _ => some f
    | _ => none

/-- The first optional block among the items. -/
def unspecialized? (items : List Stmt) : Option Span :=
  items.findSome? fun
    | .optional s _ _ _ => some s
    | _ => none

/-- What a site refers to. -/
def usesOf (items : List Stmt) (externals : List String) (s : Site) : Dependencies :=
  match items[s.item]? with
  | some item => ((Collector.new externals).declaration item s.entry).found
  | none => Dependencies.empty

/-- The index of flat items, none of which may be an optional block. -/
def build (items : List Stmt) : Except ExtractError DeclarationIndex :=
  match unspecialized? items with
  | some span => .error (.unspecialized span)
  | none =>
    let sites := allSites items
    let externals := (sites.filter (·.category = .external)).map (·.name)
    .ok {
      declarations := (sites.zip (keysFrom [] sites)).map fun (s, k) =>
        ⟨k, s.name, s.item, s.entry, s.span, usesOf items externals s⟩
      entryPoints := (functions items).zipIdx.filterMap fun (f, i) => f.entry.map (i, ·)
      passthrough := items.zipIdx.filterMap fun
        | (.library .., i) => some i
        | _ => none }

/-- Every key, category by category. -/
def keys (index : DeclarationIndex) : List Key :=
  Category.all.flatMap fun c =>
    (index.declarations.filter (·.key.category = c)).map (·.key)

/-- The declaration with the key. -/
def get? (index : DeclarationIndex) (key : Key) : Option Declaration :=
  index.declarations.find? (·.key = key)

/-- The keys of the declarations of a name, in source order. -/
def named (index : DeclarationIndex) (wanted : Category → Bool) (name : String) : List Key :=
  (index.declarations.filter fun d => d.name = name && wanted d.key.category).map (·.key)

/-- The keys of the functions with the name. -/
def functionsNamed (index : DeclarationIndex) (name : String) : List Key :=
  index.named (· = .function) name

/-- The keys of the structs with the name. -/
def structsNamed (index : DeclarationIndex) (name : String) : List Key :=
  index.named (· = .struct) name

/-- The keys of the values with the name, of whatever category. -/
def valuesNamed (index : DeclarationIndex) (name : String) : List Key :=
  index.named Category.isValue name

end DeclarationIndex

end Shading
