import Shading.Print.Expr
import Shading.Print.Writer

/-!
# Statements as text

Four spaces per level, an opening brace on the line of its header, and a body that is no
block on a line of its own, one level deeper.
-/

namespace Shading

namespace Dialect

/-- Writes an expression on the current line. -/
def expr (d : Dialect) (e : Expr) (w : Writer) : Except CodegenError Writer := do
  return w.push (← e.text d)

/-- Writes an expression, if there is one, after a lead. -/
def exprAfter (d : Dialect) (lead : String) (e : Option Expr) (w : Writer) :
    Except CodegenError Writer :=
  match e with
  | some e => d.expr e (w.push lead)
  | none => return w

/-- A variable declaration without its semicolon. -/
def variableDeclaration (d : Dialect) (v : VariableDeclaration) (w : Writer) :
    Except CodegenError Writer :=
  let w := if v.isConst then w.push "const " else w
  d.exprAfter " = " v.initializer (w.push (d.declarator v.type v.name))

end Dialect

/-- The members of a struct declaration. -/
def StructDeclaration.fieldLines (s : StructDeclaration) : List String :=
  s.fields.map fun f => f.name ++ ": " ++ f.type.text ++ ";"

/-- The attribute that a slot is written as. -/
def Slot.text : Slot → String
  | .location n => "location(" ++ toString n ++ ")"
  | .builtin b => "builtin(" ++ b.name ++ ")"

/-- An entry of an input or output block. -/
def InterfaceVariable.line (v : InterfaceVariable) : String :=
  "[" ++ v.slot.text ++ "] " ++ v.type.text ++ " " ++ v.name ++ ";"

/-- An entry of a block of external variables. -/
def ExternalVariable.line (v : ExternalVariable) : String :=
  "[set(" ++ toString v.set ++ "), binding(" ++ toString v.binding ++ ")" ++
    (if v.storage then ", storage" else "") ++ "] " ++ v.type.text ++ " " ++ v.name ++ ";"

/-- The attributes that make a function an entry. -/
def EntryPoint.line (e : EntryPoint) : String :=
  match e.workgroup with
  | some g =>
    "[entry(" ++ e.stage.name ++ "), workgroup(" ++ toString g.x ++ ", " ++ toString g.y ++ ", " ++
      toString g.z ++ ")]"
  | none => "[entry(" ++ e.stage.name ++ ")]"

/-- The result type, the name and the parameters of a function. -/
def Signature.header (f : Signature) : String :=
  f.returnType.text ++ " " ++ f.name ++
    parenthesizedList (f.parameters.map fun p => p.type.text ++ " " ++ p.name) ++ " "

namespace Dialect

/-- Declarations between braces, each a line, under a header line. -/
def bracedLines (header : String) (lines : List String) (w : Writer) : Writer :=
  ((w.line (header ++ " \x7b")).nested lines).push "\x7d"

/-- The entries of an option block, a line each. -/
def optionEntries (d : Dialect) :
    List OptionDeclaration → Writer → Except CodegenError Writer
  | [], w => return w
  | o :: os, w => do
    let w ← d.exprAfter " = " o.default (w.push (o.type.text ++ " " ++ o.name))
    d.optionEntries os (w.line ";")

/-- The entries of a block of constants, a line each. -/
def constEntries (d : Dialect) :
    List ConstDeclaration → Writer → Except CodegenError Writer
  | [], w => return w
  | c :: cs, w => do
    let w ← d.expr c.value (w.push (c.type.text ++ " " ++ c.name ++ " = "))
    d.constEntries cs (w.line ";")

/-- Succeeds on the items that the dialect has. -/
def admits (d : Dialect) (s : Stmt) : Except CodegenError Unit :=
  match d.refusal s with
  | some e => .error e
  | none => .ok ()

/-- Between a header and its body: a block stays on the line of the header, any other
statement starts a line of its own. -/
def openBody (body : Stmt) (w : Writer) : Writer :=
  match body with
  | .block .. => w.append " "
  | _ => w.close.indent

/-- After a body: a block leaves its closing brace's line open. -/
def closeBody (body : Stmt) (w : Writer) : Writer :=
  match body with
  | .block .. => w
  | _ => w.close.dedent

mutual

/-- Writes a statement and leaves its last line open. -/
def openStmt (d : Dialect) : Stmt → Writer → Except CodegenError Writer
  | .branch _ arms otherwise, w => do
    let w ← d.arms "if (" arms w
    d.alternative otherwise w
  | .forLoop _ init condition step body, w => do
    let w ← d.clause init (w.push "for (")
    let w ← d.exprAfter " " condition (w.push ";")
    let w ← d.exprAfter " " step (w.push ";")
    return closeBody body (← d.openStmt body (openBody body (w.push ")")))
  | .whileLoop _ condition body, w => do
    let w ← d.expr condition (w.push "while (")
    return closeBody body (← d.openStmt body (openBody body (w.push ")")))
  | .doWhile _ body condition, w => do
    let w ← d.openStmt body (openBody body (w.push "do"))
    let w ← d.expr condition ((closeBody body w).follow "while (")
    return w.push ");"
  | .var _ v, w => return (← d.variableDeclaration v w).push ";"
  | .expr _ e, w => return (← d.expr e w).push ";"
  | .leaveLoop _, w => return w.push "break;"
  | .nextRound _, w => return w.push "continue;"
  | .discard _, w => return w.push "discard;"
  | .ret _ value, w =>
    match value with
    | none => return w.push "return;"
    | some e => return (← d.expr e (w.push "return ")).push ";"
  | .block _ items, w => do
    let w ← d.stmts items (w.push "\x7b").close.indent
    return w.dedent.push "\x7d"
  | .struct p s, w => do
    d.admits (.struct p s)
    return bracedLines ("struct " ++ s.name) s.fieldLines w
  | .inputs p vs, w => do
    d.admits (.inputs p vs)
    return bracedLines "input" (vs.map InterfaceVariable.line) w
  | .outputs p vs, w => do
    d.admits (.outputs p vs)
    return bracedLines "output" (vs.map InterfaceVariable.line) w
  | .externals p vs, w => do
    d.admits (.externals p vs)
    return bracedLines "external" (vs.map ExternalVariable.line) w
  | .options p os, w => do
    d.admits (.options p os)
    let w ← d.optionEntries os (w.line "option \x7b").indent
    return w.dedent.push "\x7d"
  | .consts p cs, w => do
    d.admits (.consts p cs)
    let w ← d.constEntries cs (w.line "const \x7b").indent
    return w.dedent.push "\x7d"
  | .function p f items, w => do
    d.admits (.function p f items)
    let w :=
      match f.entry with
      | some entry => w.line entry.line
      | none => w
    let w ← d.stmts items ((w.push f.header).push "\x7b").close.indent
    return w.dedent.push "\x7d"
  | .optional p condition body otherwise, w => do
    d.admits (.optional p condition body otherwise)
    let w ← d.expr condition (w.follow "optional (")
    let w ← d.openStmt body (openBody body (w.push ")"))
    d.optionalAlternative otherwise (closeBody body w)
  | .library p path, w => do
    d.admits (.library p path)
    return w.push ("include " ++ dotted path ++ ";")

/-- Writes statements, each of which ends its line. -/
def stmts (d : Dialect) : List Stmt → Writer → Except CodegenError Writer
  | [], w => return w
  | s :: ss, w => do
    let w ← d.openStmt s w
    d.stmts ss w.close

/-- The arms of a branch; each but the first follows the brace before it. -/
def arms (d : Dialect) (lead : String) :
    List (Expr × Stmt) → Writer → Except CodegenError Writer
  | [], w => return w
  | (c, s) :: rest, w => do
    let w ← d.expr c (w.follow lead)
    let w ← d.openStmt s (openBody s (w.push ")"))
    d.arms "else if (" rest (closeBody s w)

/-- The last alternative of a branch. -/
def alternative (d : Dialect) : Option Stmt → Writer → Except CodegenError Writer
  | none, w => return w
  | some s, w => do
    let w := w.follow "else"
    return closeBody s (← d.openStmt s (openBody s w))

/-- The alternative of an optional block; another one follows on the same line. -/
def optionalAlternative (d : Dialect) : Option Stmt → Writer → Except CodegenError Writer
  | none, w => return w
  | some s, w =>
    let w := w.follow "else"
    match s with
    | .optional .. => d.openStmt s w
    | _ => return closeBody s (← d.openStmt s (openBody s w))

/-- The first clause of a `for`, without its semicolon. -/
def clause (d : Dialect) : Option Stmt → Writer → Except CodegenError Writer
  | none, w => return w
  | some s, w =>
    match s with
    | .var _ v => d.variableDeclaration v w
    | .expr _ e => d.expr e w
    | s => return (← d.openStmt s w).close

end

/-- Writes a statement and ends its line. -/
def stmt (d : Dialect) (s : Stmt) (w : Writer) : Except CodegenError Writer := do
  return (← d.openStmt s w).close

end Dialect

end Shading
