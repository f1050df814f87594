import Shading.Syntax.Stmt

/-!
# Places in a tree

A path names a statement by child numbers from the root: an item of a block or of a
function body, an arm of a branch or after them its alternative, the initializer and
the body of a loop, the two bodies of an optional block.
-/

namespace Shading

namespace Stmt

/-- The child with a number. -/
def child? : Stmt → Nat → Option Stmt
  | .branch _ arms otherwise, n =>
    if n = arms.length then otherwise else arms[n]?.map (·.2)
  | .forLoop _ init _ _ body, n =>
    match n with
    | 0 => init
    | 1 => some body
    | _ => none
  | .whileLoop _ _ body, 0 | .doWhile _ body _, 0 => some body
  | .function _ _ body, n => body[n]?
  | .block _ items, n => items[n]?
  | .optional _ _ body otherwise, n =>
    match n with
    | 0 => some body
    | 1 => otherwise
    | _ => none
  | _, _ => none

/-- The same statement with another child in place of an existing one. -/
def setChild : Stmt → Nat → Stmt → Stmt
  | .branch s arms otherwise, n, c =>
    if n = arms.length then .branch s arms (otherwise.map fun _ => c)
    else .branch s (arms.modify n fun arm => (arm.1, c)) otherwise
  | .forLoop s init condition step body, n, c =>
    match n with
    | 0 => .forLoop s (init.map fun _ => c) condition step body
    | 1 => .forLoop s init condition step c
    | _ => .forLoop s init condition step body
  | .whileLoop s condition _, 0, c => .whileLoop s condition c
  | .doWhile s _ condition, 0, c => .doWhile s c condition
  | .function s f body, n, c => .function s f (body.set n c)
  | .block s items, n, c => .block s (items.set n c)
  | .optional s condition body otherwise, n, c =>
    match n with
    | 0 => .optional s condition c otherwise
    | 1 => .optional s condition body (otherwise.map fun _ => c)
    | _ => .optional s condition body otherwise
  | s, _, _ => s

/-- The statement at a path. -/
def at? (s : Stmt) : List Nat → Option Stmt
  | [] => some s
  | n :: path => (s.child? n).bind (·.at? path)

/-- The tree with another statement at a path that exists. -/
def replaceAt? (s : Stmt) (path : List Nat) (new : Stmt) : Option Stmt :=
  match path with
  | [] => some new
  | n :: path => do
    let c ← s.child? n
    return s.setChild n (← c.replaceAt? path new)

end Stmt

end Shading
