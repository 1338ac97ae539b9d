import Pseudocode.Script.Reader
import Pseudocode.Script.Template

/-!
# Reading expressions

From the loosest to the tightest: a choice between two values, `or`,
`and`, `not`, comparisons (which chain), `|`, `^`, `&`, shifts, sums,
products, signs, powers, `await`, and then subscripts, attributes and
calls. The first argument of the functions bounds the number of nested
steps; `exprFuel` is enough for a text.
-/

namespace Pseudocode.Script

open Read

/-- How tightly operators bind, from zero for the loosest. -/
abbrev Level := Nat

def orLevel : Level := 0

def andLevel : Level := 1

def notLevel : Level := 2

def compareLevel : Level := 3

/-- The level of `|`, the loosest operator on values. -/
def bitOrLevel : Level := 4

/-- The level of signs, and of the right operand of a power. -/
def signLevel : Level := 10

/-- The level of an operator on values, powers apart. -/
def BinaryOp.level? : BinaryOp → Option Level
  | .bitOr => some bitOrLevel
  | .bitXor => some 5
  | .bitAnd => some 6
  | .shiftLeft | .shiftRight => some 7
  | .add | .sub => some 8
  | .mul | .div | .floorDiv | .mod | .matMul => some 9
  | .power => none

def nextBinary? : Read (Option (BinaryOp × Level)) := do
  match ← token? with
  | some (.op t) => return do
    let op ← BinaryOp.ofText? t
    return (op, ← op.level?)
  | _ => return none

def nextUnary? : Read (Option UnaryOp) := do
  match ← token? with
  | some (.op t) => return UnaryOp.ofText? t
  | _ => return none

/-- Takes a comparison if one is next. -/
def acceptCompare : Read (Option CompareOp) := do
  match (← get).tokens with
  | ⟨.op t, _, _⟩ :: _ =>
    match CompareOp.ofSign? t with
    | some op =>
      advance
      return some op
    | none => return none
  | ⟨.keyword t, _, _⟩ :: rest =>
    if t = "in" then
      advance
      return some .within
    else if t = "not" then
      if rest.head?.any fun p => p.token.isKeyword "in" then
        advance
        advance
        return some .notWithin
      else return none
    else if t = "is" then
      advance
      if ← acceptWord "not" then return some .notSame else return some .same
    else return none
  | _ => return none

/-- The words that are names to a reader and have a meaning of their own
at the start of some statements. -/
def softKeywords : List Text := List.map String.toList ["_", "case", "match"]

/-- An expression that starts with these tokens may be followed by
another one for which a comma was forgotten. -/
def mayLackComma : List Placed → Bool
  | ⟨.name t, _, _⟩ :: next :: _ =>
    !softKeywords.contains t && match next.token with
      | .str _ | .bytes _ | .template _ _ => false
      | _ => true
  | _ => true

/-- The names of statements that were calls without parentheses once. -/
def isLegacyCall (e : Expr) : Bool :=
  match e.bare with
  | .name t => t = "print" || t = "exec"
  | _ => false

/-- A token that is an expression by itself. -/
def Token.isExpr : Token → Bool
  | .name _ | .int _ | .float _ | .imaginary _ | .str _ | .bytes _ | .template _ _ => true
  | .keyword t => t = "None" || t = "True" || t = "False"
  | _ => false

/-- The line of the last token that was read, `before` being the tokens
at the start. -/
def lastLine (before : List Placed) : Except ReadFault (Expr × ReadState) → Nat
  | .ok (_, after) =>
    let used := before.take (before.length - after.tokens.length)
    ((after.tokens.head? <|> used.getLast?).map Placed.line).getD 0
  | .error (.unexpected line) | .error (.misplaced line) => line
  | .error (.incomplete _ last) => last
  | .error .exhausted => (before.getLast?.map Placed.line).getD 0

/-- Fails with the line of an expression that starts with `start` if
another expression follows directly inside a bracket, which `read`
reads. -/
def checkComma (start : List Placed) (e : Expr) (read : Read Expr) : Read Unit := do
  let s ← get
  match s.tokens with
  | [] => pure ()
  | p :: _ =>
    if p.token.startsExpr && p.depth > 0 && !s.trying && mayLackComma start &&
        !isLegacyCall e then
      let result := read.run { s with trying := true }
      if p.token.isExpr || result.isOk then
        throw (.incomplete ((start.head?.map Placed.line).getD s.line) (lastLine s.tokens result))

/-- An expression that may have been meant to be compared where a `=`
follows it. -/
def Expr.mayEqual (e : Expr) : Bool :=
  match e.bare with
  | .tuple _ | .list _ | .bool _ | .nothing | .collect .. => false
  | _ => true

/-- A routine waits for something. -/
def noteAwait : Read Unit := do
  let r := (← get).routine
  require (r.isRoutine && r.isAsync)

/-- A routine gives a value out. -/
def noteYield (all : Bool) : Read Unit := do
  let r := (← get).routine
  require (r.isRoutine && !(all && r.isAsync))
  modify fun s => { s with routine := { s.routine with yields := true } }

/-- Names of parameters that are in their list twice give a fault. -/
def checkNames (names : List Text) : Read Unit := do
  require (!names.contains "__debug__".toList)
  if names.eraseDups.length ≠ names.length then
    let line ← lineHere
    modify fun s => { s with nameFaults := s.nameFaults ++ [line] }

/-- What is known of a list of parameters while it is read. -/
structure ParamDraft where
  params : List (Param Expr) := []
  slash : Bool := false
  /-- A `*` was read. -/
  star : Bool := false
  /-- After a lone `*` a parameter has to follow. -/
  pending : Bool := false

/-- Only parameters with a first value may follow. -/
def ParamDraft.needsInitial (d : ParamDraft) : Bool :=
  !d.star && d.params.any fun p => p.initial.isSome

def ParamDraft.add (d : ParamDraft) (p : Param Expr) : ParamDraft :=
  { d with params := d.params ++ [p], pending := false }

/-- The parameters so far take their arguments by position only. -/
def ParamDraft.closePositions (d : ParamDraft) : ParamDraft :=
  { d with slash := true, params := d.params.map fun p => { p with kind := .position } }

mutual

def readExpr : Nat → Read Expr
  | 0 => fail
  | fuel + 1 => do
    let start := (← get).tokens
    let line ← lineHere
    if ← acceptWord "lambda" then
      let e ← readLambda fuel
      mark line e
    else
      let e ← readLevel fuel orLevel
      if ← acceptWord "if" then
        let test ← readLevel fuel orLevel
        if !(← nextWord "else") && !(← nextOp ":") then
          throw (.incomplete line (← lineHere))
        expectWord "else"
        let no ← readExpr fuel
        mark line (.choice test e no)
      else
        checkComma start e (readExpr fuel)
        return e

/-- Reads an expression that may be stored in a name. -/
def readNamed : Nat → Read Expr
  | 0 => fail
  | fuel + 1 => do
    let line ← lineHere
    match ← acceptNameBefore ":=" with
    | some name =>
      let e ← readExpr fuel
      bindName name
      mark line (.store name e)
    | none =>
      let e ← readExpr fuel
      if (← nextOp "=") && e.mayEqual then throw (.incomplete line (← lineHere))
      return e

/-- Reads an item of a list or a tuple in brackets. -/
def readItem : Nat → Read Expr
  | 0 => fail
  | fuel + 1 => do
    let line ← lineHere
    if ← acceptOp "*" then
      let start := (← get).tokens
      let e ← readLevel fuel bitOrLevel
      checkComma start e (readExpr fuel)
      mark line (.spread e)
    else readNamed fuel

/-- Reads on after a comma up to a closing bracket. -/
def readItems : Nat → Text → Read (List Expr)
  | 0, _ => fail
  | fuel + 1, close => do
    if ← acceptOp close then return []
    else
      let e ← readItem fuel
      if ← acceptOp "," then return e :: (← readItems fuel close)
      else
        expectOp close
        return [e]

/-- Reads an item of a tuple without brackets. -/
def readStar : Nat → Read Expr
  | 0 => fail
  | fuel + 1 => do
    let line ← lineHere
    if ← acceptOp "*" then
      let e ← readLevel fuel bitOrLevel
      mark line (.spread e)
    else readExpr fuel

/-- Reads on after a comma of a tuple without brackets. -/
def readStars : Nat → Read (List Expr)
  | 0 => fail
  | fuel + 1 => do
    if ← next Token.startsExpr then
      let e ← readStar fuel
      if ← acceptOp "," then return e :: (← readStars fuel) else return [e]
    else return []

/-- Reads an expression that may be a tuple without brackets. -/
def readTuple : Nat → Read Expr
  | 0 => fail
  | fuel + 1 => do
    let line ← lineHere
    let e ← readStar fuel
    if ← acceptOp "," then
      let rest ← readStars fuel
      mark line (.tuple (e :: rest))
    else return e

def readYield : Nat → Read Expr
  | 0 => fail
  | fuel + 1 => do
    let line ← lineHere
    if ← acceptWord "from" then
      noteYield true
      let e ← readExpr fuel
      mark line (.yield (some e))
    else
      noteYield false
      if ← next Token.startsExpr then
        let e ← readTuple fuel
        mark line (.yield (some e))
      else mark line (.yield none)

/-- Reads an expression whose operators bind at a level at least. -/
def readLevel : Nat → Level → Read Expr
  | 0, _ => fail
  | fuel + 1, level => do
    let line ← lineHere
    let e ← readOperand fuel level
    readInfix fuel level line (← mark line e)

/-- Reads an operand: a `not`, a sign, a power or a primary. -/
def readOperand : Nat → Level → Read Expr
  | 0, _ => fail
  | fuel + 1, level => do
    if level ≤ notLevel && (← nextWord "not") then
      advance
      return .not (← readLevel fuel notLevel)
    else match ← nextUnary? with
      | some op =>
        advance
        return .unary op (← readLevel fuel signLevel)
      | none =>
        let e ← readPrimary fuel
        if ← acceptOp "**" then return .binary .power e (← readLevel fuel signLevel)
        else return e

/-- Reads the operators after an operand, as far as the level goes. -/
def readInfix : Nat → Level → Nat → Expr → Read Expr
  | 0, _, _, _ => fail
  | fuel + 1, level, line, e => do
    match ← nextBinary? with
    | some (op, own) =>
      if level ≤ own then
        advance
        let right ← readLevel fuel (own + 1)
        readInfix fuel level line (← mark line (.binary op e right))
      else return e
    | none =>
      if level ≤ compareLevel then
        let chain ← readChain fuel
        let e ← if chain.isEmpty then pure e else mark line (.compare e chain)
        if level ≤ andLevel && (← nextWord "and") then
          advance
          let right ← readLevel fuel notLevel
          readInfix fuel level line (← mark line (.and e right))
        else if level ≤ orLevel && (← nextWord "or") then
          advance
          let right ← readLevel fuel andLevel
          readInfix fuel level line (← mark line (.or e right))
        else return e
      else return e

def readChain : Nat → Read (List (CompareOp × Expr))
  | 0 => fail
  | fuel + 1 => do
    match ← acceptCompare with
    | none => return []
    | some op =>
      let e ← readLevel fuel bitOrLevel
      return (op, e) :: (← readChain fuel)

def readPrimary : Nat → Read Expr
  | 0 => fail
  | fuel + 1 => do
    if ← acceptWord "await" then
      noteAwait
      let line ← lineHere
      let e ← readAtom fuel
      return .await (← readSuffix fuel line e)
    else
      let line ← lineHere
      let e ← readAtom fuel
      readSuffix fuel line e

/-- Reads the subscripts, attributes and calls after an operand. -/
def readSuffix : Nat → Nat → Expr → Read Expr
  | 0, _, _ => fail
  | fuel + 1, line, e => do
    if ← acceptOp "." then
      let name ← expectName
      readSuffix fuel line (← mark line (.attribute e name))
    else if ← acceptOp "[" then
      let first ← readSlice fuel
      let index ← if ← acceptOp "," then
          let rest ← readSlices fuel
          pure (.tuple (first :: rest))
        else do
          expectOp "]"
          pure (if first.isSpread then .tuple [first] else first)
      readSuffix fuel line (← mark line (.item e index))
    else if ← acceptOp "(" then
      let (args, named) ← readArgs fuel [] []
      let names := named.filterMap Prod.fst
      require (names.eraseDups.length = names.length && !names.contains "__debug__".toList)
      readSuffix fuel line (← mark line (.call e args named))
    else return e

/-- Reads one part of a subscript. -/
def readSlice : Nat → Read Expr
  | 0 => fail
  | fuel + 1 => do
    let low ← if ← nextOp ":" then pure none else some <$> readItem fuel
    if low.any Expr.isSpread || !(← acceptOp ":") then
      match low with
      | some e => return e
      | none => fail
    else
      let high ← readBound fuel
      let step ← if ← acceptOp ":" then readBound fuel else pure none
      return .slice low high step

def readBound : Nat → Read (Option Expr)
  | 0 => fail
  | fuel + 1 => do
    if (← nextOp ":") || (← nextOp ",") || (← nextOp "]") then return none
    else some <$> readExpr fuel

/-- Reads the other parts of a subscript, up to its end. -/
def readSlices : Nat → Read (List Expr)
  | 0 => fail
  | fuel + 1 => do
    if ← acceptOp "]" then return []
    else
      let e ← readSlice fuel
      if ← acceptOp "," then return e :: (← readSlices fuel)
      else
        expectOp "]"
        return [e]

/-- Reads the arguments of a call up to its closing parenthesis, after
those by position and by name that are read. -/
def readArgs : Nat → List Expr → List (Option Text × Expr) →
    Read (List Expr × List (Option Text × Expr))
  | 0, _, _ => fail
  | fuel + 1, args, named => do
    if ← acceptOp ")" then return (args, named)
    else if ← acceptOp "**" then
      let e ← readExpr fuel
      readMoreArgs fuel args (named ++ [(none, e)])
    else if ← acceptOp "*" then
      if named.any fun p => p.1.isNone then fail
      let e ← readExpr fuel
      readMoreArgs fuel (args ++ [.spread e]) named
    else match ← acceptNameBefore "=" with
      | some name =>
        let e ← readExpr fuel
        readMoreArgs fuel args (named ++ [(some name, e)])
      | none =>
        if !named.isEmpty then fail
        let line ← lineHere
        let e ← readNamed fuel
        if args.isEmpty && (← nextWord "for") then
          let e ← readCollect fuel line .stream none e
          expectOp ")"
          return ([e], [])
        readMoreArgs fuel (args ++ [e]) named

def readMoreArgs : Nat → List Expr → List (Option Text × Expr) →
    Read (List Expr × List (Option Text × Expr))
  | 0, _, _ => fail
  | fuel + 1, args, named => do
    if ← acceptOp "," then readArgs fuel args named
    else
      expectOp ")"
      return (args, named)

/-- Reads a constant, a name, or what is in brackets. -/
def readAtom : Nat → Read Expr
  | 0 => fail
  | fuel + 1 => do
    let line ← lineHere
    match ← token? with
    | some (.name t) =>
      advance
      mark line (.name t)
    | some (.int n) =>
      advance
      return .int n
    | some (.float x) =>
      advance
      return .float x
    | some (.imaginary x) =>
      advance
      return .imaginary x
    | some (.bytes _) =>
      let t ← readBytes fuel
      return .bytes t
    | some (.str _) | some (.template _ _) =>
      let parts ← readStrings fuel
      match parts with
      | [.str t] => return .str t
      | parts => mark line (.template parts)
    | some (.keyword t) =>
      if t = "True" then
        advance
        return .bool true
      else if t = "False" then
        advance
        return .bool false
      else if t = "None" then
        advance
        return .nothing
      else fail
    | some (.op t) =>
      if t = "..." then
        advance
        return .ellipsis
      else if t = "(" then
        advance
        readParenthesis fuel line
      else if t = "[" then
        advance
        readBracket fuel line
      else if t = "\x7b" then
        advance
        readBrace fuel line
      else fail
    | _ => fail

/-- Reads rows of bytes that stand next to each other, which are one. -/
def readBytes : Nat → Read Text
  | 0 => fail
  | fuel + 1 => do
    match ← token? with
    | some (.bytes t) =>
      advance
      return t ++ (← readBytes fuel)
    | some (.str _) | some (.template _ _) => fail
    | _ => return []

/-- Reads texts that stand next to each other, which are one. -/
def readStrings : Nat → Read (List Expr)
  | 0 => fail
  | fuel + 1 => do
    match ← token? with
    | some (.str t) =>
      advance
      match ← readStrings fuel with
      | .str u :: rest => return .str (t ++ u) :: rest
      | rest => return .str t :: rest
    | some (.template isRaw t) =>
      match TemplatePart.readAll? isRaw t with
      | none => fail
      | some parts =>
        let own ← readParts fuel parts
        advance
        return own ++ (← readStrings fuel)
    | some (.bytes _) => fail
    | _ => return []

def readParts : Nat → List TemplatePart → Read (List Expr)
  | 0, _ => fail
  | _ + 1, [] => return []
  | fuel + 1, .text t :: rest => return .str t :: (← readParts fuel rest)
  | fuel + 1, .hole source spelled conversion format :: rest => do
    let line ← lineHere
    let s ← get
    let tokens := (scan ("(" ++ source ++ ")\n")).1.map fun p => { p with line }
    match (readExpr fuel).run { s with tokens } with
    | .ok (e, after) =>
      if after.tokens.map Placed.token != [.newline] then fail
      set { after with tokens := s.tokens }
      let format ← match format with
        | [] => pure none
        | parts => do
          let parts ← readParts fuel parts
          pure (some (.template parts))
      let e ← mark line (.formatted e conversion format)
      let rest ← readParts fuel rest
      return (if spelled.isEmpty then e :: rest else .str spelled :: e :: rest)
    | .error _ => fail

def readParenthesis : Nat → Nat → Read Expr
  | 0, _ => fail
  | fuel + 1, line => do
    if ← acceptOp ")" then return .tuple []
    else if ← acceptWord "yield" then
      let e ← readYield fuel
      expectOp ")"
      return e
    else
      let e ← readItem fuel
      if !e.isSpread && (← nextWord "for") then
        let e ← readCollect fuel line .stream none e
        expectOp ")"
        return e
      else if ← acceptOp "," then
        let rest ← readItems fuel ")"
        mark line (.tuple (e :: rest))
      else
        if e.isSpread then fail
        expectOp ")"
        return e

def readBracket : Nat → Nat → Read Expr
  | 0, _ => fail
  | fuel + 1, line => do
    if ← acceptOp "]" then return .list []
    else
      let e ← readItem fuel
      if !e.isSpread && (← nextWord "for") then
        let e ← readCollect fuel line .list none e
        expectOp "]"
        return e
      else if ← acceptOp "," then
        let rest ← readItems fuel "]"
        mark line (.list (e :: rest))
      else
        expectOp "]"
        mark line (.list [e])

def readBrace : Nat → Nat → Read Expr
  | 0, _ => fail
  | fuel + 1, line => do
    if (← nextOp "\x7d") || (← nextOp "**") then
      let entries ← readEntries fuel
      mark line (.dict entries)
    else
      let e ← readItem fuel
      if !e.isSpread && (← acceptOp ":") then
        let v ← readExpr fuel
        if ← nextWord "for" then
          let e ← readCollect fuel line .dict (some e) v
          expectOp "\x7d"
          return e
        else if ← acceptOp "," then
          let rest ← readEntries fuel
          mark line (.dict ((some e, v) :: rest))
        else
          expectOp "\x7d"
          mark line (.dict [(some e, v)])
      else if !e.isSpread && (← nextWord "for") then
        let e ← readCollect fuel line .set none e
        expectOp "\x7d"
        return e
      else if ← acceptOp "," then
        let rest ← readItems fuel "\x7d"
        mark line (.set (e :: rest))
      else
        expectOp "\x7d"
        mark line (.set [e])

/-- Reads the entries of a dictionary up to its closing brace. -/
def readEntries : Nat → Read (List (Option Expr × Expr))
  | 0 => fail
  | fuel + 1 => do
    if ← acceptOp "\x7d" then return []
    else
      let entry ← if ← acceptOp "**" then
          let e ← readLevel fuel bitOrLevel
          pure (none, e)
        else do
          let key ← readExpr fuel
          expectOp ":"
          let e ← readExpr fuel
          pure (some key, e)
      if ← acceptOp "," then return entry :: (← readEntries fuel)
      else
        expectOp "\x7d"
        return [entry]

def readCollect : Nat → Nat → Collection → Option Expr → Expr → Read Expr
  | 0, _, _, _, _ => fail
  | fuel + 1, line, kind, key, e => do
    let clauses ← readClauses fuel
    let names := (clauses.flatMap fun c => c.target.targetNames).eraseDups
    mark line (.collect kind key e clauses names)

def readClauses : Nat → Read (List (Clause Expr))
  | 0 => fail
  | fuel + 1 => do
    if ← acceptWord "for" then
      let target ← readTargets fuel
      expectWord "in"
      let source ← readLevel fuel orLevel
      let conditions ← readConditions fuel
      return ⟨target, source, conditions⟩ :: (← readClauses fuel)
    else return []

def readConditions : Nat → Read (List Expr)
  | 0 => fail
  | fuel + 1 => do
    if ← acceptWord "if" then
      let e ← readLevel fuel orLevel
      return e :: (← readConditions fuel)
    else return []

def readTargets : Nat → Read Expr
  | 0 => fail
  | fuel + 1 => do
    let line ← lineHere
    let e ← readTarget fuel
    let e ← if ← acceptOp "," then
        let rest ← readMoreTargets fuel
        mark line (.tuple (e :: rest))
      else do
        require (!e.isSpread)
        pure e
    if !e.isTarget then fail
    require e.spreadsOnce
    return e

def readTarget : Nat → Read Expr
  | 0 => fail
  | fuel + 1 => do
    let line ← lineHere
    if ← acceptOp "*" then
      let e ← readLevel fuel bitOrLevel
      mark line (.spread e)
    else readLevel fuel bitOrLevel

def readMoreTargets : Nat → Read (List Expr)
  | 0 => fail
  | fuel + 1 => do
    if ← next Token.startsExpr then
      let e ← readTarget fuel
      if ← acceptOp "," then return e :: (← readMoreTargets fuel) else return [e]
    else return []

def readLambda : Nat → Read Expr
  | 0 => fail
  | fuel + 1 => do
    let params ← readParams fuel ":" {}
    expectOp ":"
    let path := (← get).routine.path ++ "<lambda>"
    let names := params.map Param.name
    checkNames names
    let line ← lineHere
    let (body, inner) ← within
      { path := path ++ ".<locals>.", isRoutine := true, locals := names } (readExpr fuel)
    -- The body runs where the value is called, but stands here.
    return .lambda path params inner.locals (.located line body)

/-- Reads parameters up to what closes their list, which is left. The
parameters of a routine with a name may have notes. -/
def readParams : Nat → Text → ParamDraft → Read (List (Param Expr))
  | 0, _, _ => fail
  | fuel + 1, close, d => do
    if ← nextOp close then
      if d.pending then fail
      return d.params
    else if ← acceptOp "/" then
      if d.params.isEmpty || d.slash || d.star then fail
      readMoreParams fuel close d.closePositions
    else if ← acceptOp "**" then
      if d.pending then fail
      let name ← expectName
      let note ← readNote fuel close
      let _ ← acceptOp ","
      if !(← nextOp close) then fail
      return (d.add ⟨.otherNames, name, none, note⟩).params
    else if ← acceptOp "*" then
      if d.star then fail
      if ← nextOp "," then readMoreParams fuel close { d with star := true, pending := true }
      else
        let name ← expectName
        let note ← readNote fuel close
        readMoreParams fuel close { d.add ⟨.others, name, none, note⟩ with star := true }
    else
      let name ← expectName
      let note ← readNote fuel close
      let initial ← if ← acceptOp "=" then some <$> readExpr fuel else pure none
      if initial.isNone && d.needsInitial then fail
      let kind := if d.star then ParamKind.named else .plain
      readMoreParams fuel close (d.add ⟨kind, name, initial, note⟩)

def readMoreParams : Nat → Text → ParamDraft → Read (List (Param Expr))
  | 0, _, _ => fail
  | fuel + 1, close, d => do
    if ← acceptOp "," then readParams fuel close d
    else if ← nextOp close then
      if d.pending then fail
      return d.params
    else fail

def readNote : Nat → Text → Read (Option Expr)
  | 0, _ => fail
  | fuel + 1, close => do
    if close = ")" then
      if ← acceptOp ":" then some <$> readExpr fuel else return none
    else return none

end

/-- Enough nested steps for a text. -/
def exprFuel (t : Text) : Nat :=
  40 * t.length + 100

end Pseudocode.Script
