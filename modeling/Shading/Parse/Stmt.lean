import Shading.Parse.Expr
import Shading.Syntax.Stmt

/-!
# Reading statements
-/

namespace Shading

namespace Parse

/-- An expression in parentheses. -/
def condition (names : Names) (fuel : Nat) : Parse Expr := do
  expect .lparen
  let e ← expression names fuel
  expect .rparen
  return e

/-- The rest of a variable declaration after its name. -/
def finishVariable (names : Names) (fuel : Nat) (start : Span) (isConst : Bool) (type : Ty)
    (name : String) : Parse Stmt := do
  let initializer ←
    if ← eat .eq then
      let e ← expression names fuel
      pure (some e)
    else pure none
  expect .semicolon
  return .var (← spanFrom start) ⟨name, type, isConst, initializer⟩

/-- A variable declaration, `const` or not, up to its semicolon. -/
def variableDeclaration (names : Names) (fuel : Nat) : Parse Stmt := do
  let start ← look
  let isConst ← eatKeyword .const
  let t ← type names
  let (name, _) ← identifier
  finishVariable names fuel start.span isConst t name

/-- An optional expression: none if the closing symbol stands there. -/
def expressionUnless (names : Names) (fuel : Nat) (close : Symbol) : Parse (Option Expr) := do
  if (← kind) = .symbol close then return none
  else return some (← expression names fuel)

/-- Statements between braces. -/
def braced (item : Parse Stmt) (fuel : Nat) : Parse (List Stmt) := do
  expect .lbrace
  let items ← upTo (.symbol .rbrace) item (fuel + 1)
  expect .rbrace
  return items

/-- One arm of a branch after its `if`. -/
def arm (names : Names) (inner : Parse Stmt) (fuel : Nat) : Parse (Expr × Stmt) := do
  let c ← condition names fuel
  let s ← inner
  return (c, s)

/-- The arms and the last alternative after the first arm. -/
def moreArms (names : Names) (inner : Parse Stmt) (fuel : Nat) :
    Nat → Parse (List (Expr × Stmt) × Option Stmt)
  | 0 => spent
  | n + 1 => do
    if ← eatKeyword .else then
      if ← eatKeyword .if then
        let a ← arm names inner fuel
        let (arms, otherwise) ← moreArms names inner fuel n
        return (a :: arms, otherwise)
      else return ([], some (← inner))
    else return ([], none)

/-- The first clause of a `for` and its semicolon. -/
def forInit (names : Names) (fuel : Nat) : Parse (Option Stmt) := do
  if ← eat .semicolon then return none
  else if (← kind) = .keyword .const ∨ (← atDeclaration names) = true then
    return some (← variableDeclaration names fuel)
  else
    let start ← look
    let e ← expression names fuel
    expect .semicolon
    return some (.expr (← spanFrom start.span) e)

/-- A loop with its three clauses. -/
def forLoop (names : Names) (inner : Parse Stmt) (fuel : Nat) : Parse Stmt := do
  let start ← look
  take
  expect .lparen
  let init ← forInit names fuel
  let test ← expressionUnless names fuel .semicolon
  expect .semicolon
  let step ← expressionUnless names fuel .rparen
  expect .rparen
  let body ← inner
  return .forLoop (← spanFrom start.span) init test step body

/-- The body of an optional block. -/
def optionalBody (items : Parse (List Stmt)) : Parse Stmt := do
  let start ← look
  let items ← items
  return .block (← spanFrom start.span) items

/-- An optional block; its alternative may be another one. -/
def optional (names : Names) (items : Parse (List Stmt)) (fuel : Nat) : Nat → Parse Stmt
  | 0 => spent
  | n + 1 => do
    let start ← look
    expectKeyword .optional
    let c ← condition names fuel
    let body ← optionalBody items
    let otherwise ←
      if ← eatKeyword .else then
        if (← kind) = .keyword .optional then
          let s ← optional names items fuel n
          pure (some s)
        else
          let s ← optionalBody items
          pure (some s)
      else pure none
    return .optional (← spanFrom start.span) c body otherwise

/-- A statement; `fuel` bounds the nesting and the length of every list. -/
def statement (names : Names) : Nat → Parse Stmt
  | 0 => spent
  | fuel + 1 => do
    let inner := statement names fuel
    let start ← look
    let finish (make : Span → Stmt) : Parse Stmt := do return make (← spanFrom start.span)
    match start.kind with
    | .symbol .lbrace => do
      let items ← braced inner fuel
      finish (.block · items)
    | .keyword .if => do
      take
      let first ← arm names inner fuel
      let (rest, otherwise) ← moreArms names inner fuel (fuel + 1)
      finish (.branch · (first :: rest) otherwise)
    | .keyword .for => forLoop names inner fuel
    | .keyword .while => do
      take
      let c ← condition names fuel
      let body ← inner
      finish (.whileLoop · c body)
    | .keyword .do => do
      take
      let body ← inner
      expectKeyword .while
      let c ← condition names fuel
      expect .semicolon
      finish (.doWhile · body c)
    | .keyword .break => do
      take
      expect .semicolon
      finish .leaveLoop
    | .keyword .continue => do
      take
      expect .semicolon
      finish .nextRound
    | .keyword .discard => do
      take
      expect .semicolon
      finish .discard
    | .keyword .return => do
      take
      let value ← expressionUnless names fuel .semicolon
      expect .semicolon
      finish (.ret · value)
    | .keyword .optional => optional names (braced inner fuel) fuel fuel
    | .keyword .const => variableDeclaration names fuel
    | _ => do
      if ← atDeclaration names then variableDeclaration names fuel
      else
        let e ← expression names fuel
        expect .semicolon
        finish (.expr · e)

end Parse

end Shading
