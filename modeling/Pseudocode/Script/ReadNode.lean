import Pseudocode.Script.ReadExpr

/-!
# Reading statements

Statements of one line end with the line or with a semicolon. The others
have a head, which ends with a colon, and a block: either statements on
the same line or indented lines. As in `ReadExpr`, the first argument of
the functions bounds the number of nested steps.
-/

namespace Pseudocode.Script

open Read

def loopLimit : Nat := 20

/-- The operator that a sign of an assignment adds with. -/
def augmentOp? (t : Text) : Option BinaryOp :=
  if t.getLast? = some '=' then BinaryOp.ofText? t.dropLast else none

/-- The next token is the sign of an assignment with an operator. -/
def nextAugment? : Read (Option BinaryOp) := do
  match ← token? with
  | some (.op t) => return augmentOp? t
  | _ => return none

/-- An expression as a target; the routine binds its names. -/
def asTarget (e : Expr) : Read Expr := do
  if !e.isTarget then fail
  require (!e.isSpread && e.spreadsOnce)
  e.targetNames.forM bindName
  return e

def asValue (e : Expr) : Read Expr := do
  require (!e.isSpread)
  return e

def readValue (fuel : Nat) : Read Expr := do
  if ← acceptWord "yield" then readYield fuel else readTuple fuel

/-- Reads the targets and the value of an assignment, after a first
target and its sign. -/
def readAssignment : Nat → List Expr → Read Action
  | 0, _ => fail
  | fuel + 1, targets => do
    let e ← readValue fuel
    if ← acceptOp "=" then
      let target ← asTarget e
      readAssignment fuel (targets ++ [target])
    else
      let e ← asValue e
      return .assign targets e

def readExprAction (fuel : Nat) : Read Action := do
  let e ← readValue fuel
  if ← nextOp "=" then
    let target ← asTarget e
    advance
    readAssignment fuel [target]
  else if ← nextOp ":" then
    if !e.isPlace then fail
    let target ← asTarget e
    advance
    let note ← readExpr fuel
    let value ← if ← acceptOp "=" then some <$> readValue fuel else pure none
    return .annotate target note value
  else match ← nextAugment? with
    | some op =>
      if !e.isPlace then fail
      let target ← asTarget e
      advance
      let value ← readValue fuel
      return .augment op target (← asValue value)
    | none => return .evaluate (← asValue e)

def readOptional (fuel : Nat) : Read (Option Expr) := do
  if ← next Token.startsExpr then
    let e ← readTuple fuel
    some <$> asValue e
  else return none

def readDelete (fuel : Nat) : Read Action := do
  let e ← readTuple fuel
  if !(← next fun t => t == .newline || t.isOp ";") then fail
  let targets := match e.bare with
    | .tuple items => items
    | _ => [e]
  if !targets.all Expr.isDeletable then fail
  targets.forM fun target => target.targetNames.forM bindName
  return .delete targets

def readAction (fuel : Nat) : Read Action := do
  if ← acceptWord "pass" then return .pass
  else if ← acceptWord "break" then
    require ((← get).routine.loops > 0)
    return .leaveLoop
  else if ← acceptWord "continue" then
    require ((← get).routine.loops > 0)
    return .nextRound
  else if ← acceptWord "return" then
    require (← get).routine.isRoutine
    let line ← lineHere
    let value ← readOptional fuel
    if value.isSome then
      modify fun s =>
        { s with routine := { s.routine with results := s.routine.results ++ [line] } }
    return .leaveScope value
  else if ← acceptWord "del" then readDelete fuel
  else if ← acceptWord "assert" then
    let test ← readExpr fuel
    let message ← if ← acceptOp "," then some <$> readExpr fuel else pure none
    return .assert test message
  else if ← acceptWord "raise" then
    if ← next Token.startsExpr then
      let e ← readExpr fuel
      let cause ← if ← acceptWord "from" then some <$> readExpr fuel else pure none
      return .raise (some e) cause
    else return .raise none none
  else readExprAction fuel

/-- Reads the statements of a line up to its end. -/
def readActions : Nat → Read (List Node)
  | 0 => fail
  | fuel + 1 => do
    let line ← lineHere
    let a ← readAction fuel
    let node := Node.action line a
    if ← accept (· == .newline) then return [node]
    else
      expectOp ";"
      if ← accept (· == .newline) then return [node]
      else return node :: (← readActions fuel)

def inLoop {α : Type} (read : Read α) : Read α := do
  let loops := (← get).routine.loops
  modify fun s => { s with routine := { s.routine with loops := loops + 1 } }
  let a ← read
  modify fun s => { s with routine := { s.routine with loops } }
  return a

def startLine : Read Nat := do
  let line ← lineHere
  modify fun s => { s with line }
  return line

mutual

/-- Reads a statement, or the statements of a line. -/
def readNodes : Nat → Read (List Node)
  | 0 => fail
  | fuel + 1 => do
    let line ← startLine
    if ← acceptWord "if" then return [← readChoice fuel line]
    else if ← acceptWord "while" then
      require ((← get).routine.loops < loopLimit)
      let test ← readNamed fuel
      expectOp ":"
      let body ← inLoop (readBlock fuel)
      return [.whileLoop line test body (← readOtherwise fuel)]
    else if ← acceptWord "for" then
      require ((← get).routine.loops < loopLimit)
      let target ← readTargets fuel
      target.targetNames.forM bindName
      expectWord "in"
      let source ← asValue (← readTuple fuel)
      expectOp ":"
      let body ← inLoop (readBlock fuel)
      return [.forLoop line target source body (← readOtherwise fuel)]
    else if ← acceptWord "try" then
      expectOp ":"
      let body ← readBlock fuel
      let handlers ← readHandlers fuel
      let otherwise ← if handlers.isEmpty then pure [] else readOtherwise fuel
      if ← acceptWord "finally" then
        expectOp ":"
        return [.guarded line body handlers otherwise (← readBlock fuel)]
      else if handlers.isEmpty then throw (.unexpected (← lineHere))
      else return [.guarded line body handlers otherwise []]
    else if ← acceptWord "def" then return [← readDefine fuel line false]
    else if ← acceptWord "async" then
      expectWord "def"
      return [← readDefine fuel line true]
    else if ← acceptOp "@" then
      let _ ← readNamed fuel
      fail
    else readActions fuel

/-- Reads what follows `if` or `elif`. -/
def readChoice : Nat → Nat → Read Node
  | 0, _ => fail
  | fuel + 1, line => do
    let test ← readNamed fuel
    expectOp ":"
    let body ← readBlock fuel
    let next ← startLine
    if ← acceptWord "elif" then
      return .choice line test body [← readChoice fuel next]
    else return .choice line test body (← readOtherwise fuel)

/-- Reads the second block of a statement, if it has one. -/
def readOtherwise : Nat → Read (List Node)
  | 0 => fail
  | fuel + 1 => do
    if ← acceptWord "else" then
      expectOp ":"
      readBlock fuel
    else return []

/-- Reads what is done about faults. -/
def readHandlers : Nat → Read (List (HandlerOf Node))
  | 0 => fail
  | fuel + 1 => do
    let line ← lineHere
    if ← acceptWord "except" then
      let _ ← startLine
      let kind ← if ← nextOp ":" then pure none else some <$> readExpr fuel
      let name ← if kind.isSome && (← acceptWord "as") then some <$> expectName else pure none
      name.forM bindName
      expectOp ":"
      let body ← readBlock fuel
      return ⟨line, kind, name, body⟩ :: (← readHandlers fuel)
    else return []

def readDefine : Nat → Nat → Bool → Read Node
  | 0, _, _ => fail
  | fuel + 1, line, isAsync => do
    let name ← expectName
    expectOp "("
    let params ← readParams fuel ")" {}
    expectOp ")"
    let result ← if ← acceptOp "->" then some <$> readExpr fuel else pure none
    bindName name
    let names := params.map Param.name
    checkNames names
    expectOp ":"
    let path := (← get).routine.path ++ name
    let (body, inner) ← within
      { path := path ++ ".<locals>.", isRoutine := true, isAsync, locals := names.eraseDups }
      (readBlock fuel)
    if isAsync && inner.yields then
      modify fun s => { s with codeFaults := s.codeFaults ++ inner.results }
    return .define line
      { name, path, isAsync, yields := inner.yields, params, note := result
        locals := inner.locals, body }

/-- Reads a block: the rest of a line, or indented lines. -/
def readBlock : Nat → Read (List Node)
  | 0 => fail
  | fuel + 1 => do
    if ← accept (· == .newline) then
      if ← accept (· == .indent) then readLines fuel
      else match (← get).tokens with
        | [] => throw .exhausted
        | p :: _ => throw (.unexpected p.line)
    else readActions fuel

/-- Reads the lines of a block up to its end. -/
def readLines : Nat → Read (List Node)
  | 0 => fail
  | fuel + 1 => do
    let nodes ← readNodes fuel
    if ← accept (· == .dedent) then return nodes
    else return nodes ++ (← readLines fuel)

end

def readScript : Nat → Read (List Node)
  | 0 => fail
  | fuel + 1 => do
    if (← token?).isNone then return []
    else
      let nodes ← readNodes fuel
      return nodes ++ (← readScript fuel)

end Pseudocode.Script
