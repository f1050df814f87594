import Shading.Syntax.Stmt

/-!
# What a declaration refers to

The functions that it calls, the structs that its types name, and the variables that it
mentions and neither a parameter nor a local variable binds.  A name is kept with the
span of its first use; types have none of their own and take that of the construct they
were last seen in.
-/

namespace Shading

/-- Names and the spans of their first uses, in the order of these. -/
abbrev Uses := List (String × Span)

namespace Uses

/-- Adds a use, unless the name was used before. -/
def note (uses : Uses) (name : String) (span : Span) : Uses :=
  if (uses.lookup name).isSome then uses else uses ++ [(name, span)]

/-- The names that are used, without the places. -/
def names (uses : Uses) : List String := uses.map (·.1)

end Uses

/-- The direct references of a declaration. -/
structure Dependencies where
  functions : Uses
  structs : Uses
  /-- Globals, inputs, outputs, constants and options. -/
  values : Uses
  externals : Uses

namespace Dependencies

/-- The dependencies of nothing. -/
def empty : Dependencies := ⟨[], [], [], []⟩

/-- Whether nothing was found. -/
def isEmpty (d : Dependencies) : Bool :=
  d.functions.isEmpty && d.structs.isEmpty && d.values.isEmpty && d.externals.isEmpty

/-- Every name that is referred to, kind by kind. -/
def names (d : Dependencies) : List String :=
  d.functions.names ++ d.structs.names ++ d.values.names ++ d.externals.names

end Dependencies

/-- A collection in progress. -/
structure Collector where
  found : Dependencies
  /-- Local names, one list per open scope, the innermost first. -/
  scopes : List (List String)
  /-- The names of externals. -/
  externals : List String
  /-- The span that a use of a type is given. -/
  typeSpan : Span

namespace Collector

/-- A walk that has found nothing yet, outside of any scope. -/
def new (externals : List String) : Collector := ⟨Dependencies.empty, [], externals, Span.dummy⟩

/-- Whether some open scope declares the name. -/
def isLocal (c : Collector) (name : String) : Bool := c.scopes.any (·.contains name)

/-- Adds a name to the innermost scope; outside of functions there is none. -/
def declare (c : Collector) (name : String) : Collector :=
  match c.scopes with
  | [] => c
  | scope :: rest => { c with scopes := (name :: scope) :: rest }

/-- Enters a scope that declares the names. -/
def pushScope (c : Collector) (names : List String) : Collector :=
  { c with scopes := names :: c.scopes }

/-- Leaves the innermost scope. -/
def popScope (c : Collector) : Collector := { c with scopes := c.scopes.tail }

/-- Blocks open scopes inside of functions only. -/
def inBlock (c : Collector) (work : Collector → Collector) : Collector :=
  match c.scopes with
  | [] => work c
  | _ => (work (c.pushScope [])).popScope

/-- Has the types that follow be noted at this place. -/
def locateTypes (c : Collector) (span : Span) : Collector := { c with typeSpan := span }

/-- Notes a call. -/
def call (c : Collector) (name : String) (span : Span) : Collector :=
  { c with found := { c.found with functions := c.found.functions.note name span } }

/-- Notes a reference, unless a local variable hides the name. -/
def reference (c : Collector) (name : String) (span : Span) : Collector :=
  if c.isLocal name then c
  else if name ∈ c.externals then
    { c with found := { c.found with externals := c.found.externals.note name span } }
  else { c with found := { c.found with values := c.found.values.note name span } }

/-- A type at the last location of types. -/
def type (c : Collector) (t : Ty) : Collector :=
  match t.structName? with
  | some name =>
    { c with found := { c.found with structs := c.found.structs.note name c.typeSpan } }
  | none => c

/-- A type at a place of its own. -/
def typeAt (c : Collector) (t : Ty) (span : Span) : Collector := (c.locateTypes span).type t

mutual

/-- Walks an expression, an operator's target and operands from left to right. -/
def expr (c : Collector) : Expr → Collector
  | .constant _ _ => c
  | .ref s name => c.reference name s
  | .index _ base place => (c.expr base).expr place
  | .field _ base _ | .swizzle _ base _ => c.expr base
  | .assign _ _ target value => (c.expr target).expr value
  | .unary _ _ operand => c.expr operand
  | .binary _ _ left right => (c.expr left).expr right
  | .call s name args => (c.call name s).exprs args
  | .builtin _ _ args => c.exprs args
  | .cast s target args => (c.typeAt target s).exprs args
  | .ternary _ q t f => ((c.expr q).expr t).expr f

def exprs (c : Collector) : List Expr → Collector
  | [] => c
  | e :: es => (c.expr e).exprs es

end

def optionExpr (c : Collector) : Option Expr → Collector
  | none => c
  | some e => c.expr e

/-- The parameters and the result of a function, before its body. -/
def signature (c : Collector) (f : Signature) : Collector :=
  (f.parameters.foldl (fun c p => c.typeAt p.type p.span) c).type f.returnType

mutual

/-- Walks a statement. Only a block, a `for` loop and a function open a scope. -/
def stmt (c : Collector) (s : Stmt) : Collector :=
  let c := c.locateTypes s.span
  match s with
  | .branch _ arms otherwise => (c.arms arms).optionStmt otherwise
  | .forLoop _ init condition step body =>
    c.inBlock fun c => (((c.optionStmt init).optionExpr condition).optionExpr step).stmt body
  | .whileLoop _ condition body | .doWhile _ body condition => (c.expr condition).stmt body
  | .var _ d => ((c.type d.type).optionExpr d.initializer).declare d.name
  | .struct _ d => d.fields.foldl (fun c f => c.type f.type) c
  | .inputs _ vs | .outputs _ vs => vs.foldl (fun c v => c.type v.type) c
  | .externals _ vs => vs.foldl (fun c v => c.type v.type) c
  | .options _ ds => ds.foldl (fun c d => (c.type d.type).optionExpr d.default) c
  | .consts _ ds => ds.foldl (fun c d => (c.type d.type).expr d.value) c
  | .function _ f body =>
    (((c.signature f).pushScope (f.parameters.map (·.name))).stmts body).popScope
  | .expr _ e => c.expr e
  | .ret _ value => c.optionExpr value
  | .leaveLoop _ | .nextRound _ | .discard _ | .library _ _ => c
  | .block _ items => c.inBlock fun c => c.stmts items
  | .optional _ condition body otherwise => ((c.expr condition).stmt body).optionStmt otherwise

/-- Walks statements one after another, in one scope. -/
def stmts (c : Collector) : List Stmt → Collector
  | [] => c
  | s :: ss => (c.stmt s).stmts ss

def arms (c : Collector) : List (Expr × Stmt) → Collector
  | [] => c
  | (e, s) :: rest => ((c.expr e).stmt s).arms rest

def optionStmt (c : Collector) : Option Stmt → Collector
  | none => c
  | some s => c.stmt s

end

/-- The references of a declaration: of one entry, if the declaration is a block. -/
def declaration (c : Collector) (s : Stmt) (entry : Option Nat) : Collector :=
  match s, entry with
  | .inputs _ vs, some i | .outputs _ vs, some i =>
    match vs[i]? with
    | some v => c.typeAt v.type v.span
    | none => c
  | .externals _ vs, some i =>
    match vs[i]? with
    | some v => c.typeAt v.type v.span
    | none => c
  | .options _ ds, some i =>
    match ds[i]? with
    | some d => (c.typeAt d.type d.span).optionExpr d.default
    | none => c
  | .consts _ ds, some i =>
    match ds[i]? with
    | some d => (c.typeAt d.type d.span).expr d.value
    | none => c
  | s, _ => c.stmt s

end Collector

end Shading
