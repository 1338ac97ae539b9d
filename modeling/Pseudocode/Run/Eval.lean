import Pseudocode.Run.Calls

/-!
# Running a script

Statements and expressions are run at a site, which says in which frame
and at which line. A fault is reported at the pseudocode line of the step
that the innermost routine with such a line was at.

The first argument of the mutual functions bounds the depth of the
recursion; `Stop.outOfFuel` says that it was not enough, and a run that
ends in any other way ends so with every larger bound.
-/

namespace Pseudocode.Run

open Text Script

/-- The number of routines that may run inside each other. -/
def depthLimit : Nat := 962

def constantOf : Expr → Value
  | .bool b => .bool b
  | .int n => .int n
  | .float x => .float x
  | .str t => .str t
  | .bytes t => .constant "bytes" ("b" ++ quoted t)
  | .imaginary x =>
    let shown := Number.ofFloat x
    let whole := ".0".toList.isSuffixOf shown
    .constant "complex" ((if whole then shown.dropLast.dropLast else shown) ++ "j")
  | .ellipsis => .constant "ellipsis" "Ellipsis"
  | _ => .nothing

/-- An operator with an assignment: an array is changed in its place. -/
def augmented (op : BinaryOp) (a b : Value) : Eval Value := do
  match op, a with
  | .add, .list address =>
    let items ← valuesOf b
    Eval.change address (.cells ((← Eval.cells address) ++ items.toArray))
    return a
  | op, a => binary op true a b

def spreadValues (v : Value) : Eval (List Value) :=
  tryCatch (valuesOf v) fun _ =>
    throw (.other .type ("Value after * must be an iterable, not " ++ v.typeName))

/-- The only argument of a call, if it is spread. -/
def loneSpread? : List Expr → Option Expr
  | [e] =>
    match e.bare with
    | .spread e => some e
    | _ => none
  | _ => none

/-- The arguments by name that a dictionary stands for. -/
def namedEntries (callee : Text) (v : Value) : Eval (List (Text × Value)) := do
  match v with
  | .dict address =>
    ((← get).entries address).mapM fun
      | (.str name, v) => return (name, v)
      | _ => throw (.other .type "keywords must be strings")
  | v => throw (.spreadNames callee v.typeName)

/-- The first name that stands twice among arguments by name. -/
def repeatedName? : List (Text × Value) → Option Text
  | [] => none
  | (name, _) :: rest =>
    if (rest.lookup name).isSome then some name else repeatedName? rest

/-- The target that takes all parts that the others leave, with the
number of those before it. -/
def spreadAt? (targets : List Expr) : Option Nat :=
  targets.findIdx? fun e =>
    match e.bare with
    | .spread _ => true
    | _ => false

def partsFor (targets : List Expr) (v : Value) : Eval (List Value) :=
  match spreadAt? targets with
  | some front => partsOf v front (targets.length - front - 1) true
  | none => partsOf v targets.length 0 false

/-- A routine without a name. -/
def lambdaRoutine (path : Text) (params : List (Param Expr)) (locals : List Text) (body : Expr) :
    Routine :=
  { name := "<lambda>", path, isAsync := false, yields := false, params, note := none, locals
    body := [.action 0 (.leaveScope (some body))] }

/-- The parameters with first values: those by position, then those by
name. -/
def initialExprs (params : List (Param Expr)) : List (Text × Expr) :=
  let byName := fun (p : Param Expr) => p.kind == .named
  (params.filter (!byName ·) ++ params.filter byName).filterMap fun p =>
    p.initial.map fun e => (p.name, e)

/-- What a collection makes of the entries that it has found, the last
one first. -/
def gathered (kind : Collection) (found : List (Value × Value)) : Eval Value :=
  let values := found.reverse.map Prod.snd
  match kind with
  | .list => Eval.newList values.toArray
  | .set => newSet values
  | .dict => dictOf found.reverse
  | .stream => newStream "generator" values

/-- A call that has begun: nobody can wait for it again. -/
def beginCall (s : Site) (address : Nat) : Exec (Option Call) := do
  match (← get).heap.objects[address]? with
  | some (.call c) =>
    if c.done then fail s .awaitedTwice
    evaluate s (Eval.change address (.call { c with done := true }))
    return some c
  | _ => return none

mutual

def eval (x : Executable) : Nat → Site → Expr → Exec Value
  | 0, _, _ => throw .outOfFuel
  | fuel + 1, s, e => do
    match e with
    | .name t => orFail s ((← get).lookup s.frame t)
    | .located line e => eval x fuel (s.at x line) e
    | .tuple items => do
      let values ← evalItems x fuel s items
      evaluate s (Eval.newTuple values)
    | .list items => do
      let values ← evalItems x fuel s items
      evaluate s (Eval.newList values.toArray)
    | .set items => do
      let values ← evalItems x fuel s items
      evaluate s (newSet values)
    | .dict entries => do
      let entries ← evalEntries x fuel s entries
      evaluate s (dictOf entries)
    | .spread e => eval x fuel s e
    | .attribute e name => do
      let v ← eval x fuel s e
      evaluate s (attributeOf v name)
    | .item e index => do
      let v ← eval x fuel s e
      let i ← eval x fuel s index
      evaluate s (itemOf v i)
    | .slice low high step => do
      let low ← evalOption x fuel s low
      let high ← evalOption x fuel s high
      let step ← evalOption x fuel s step
      evaluate s do return .slice (← Eval.alloc (.cells #[low, high, step]))
    | .call callee args named => do
      let f ← eval x fuel s callee
      let a ← evalArguments x fuel s f args named
      call x fuel s f a
    | .unary op e => do
      let v ← eval x fuel s e
      evaluate s (signed op v)
    | .binary op left right => do
      let a ← eval x fuel s left
      let b ← eval x fuel s right
      evaluate s (binary op false a b)
    | .compare first rest => do
      let v ← eval x fuel s first
      evalChain x fuel s v rest
    | .and left right => do
      let v ← eval x fuel s left
      if ← isTrue v then eval x fuel s right else return v
    | .or left right => do
      let v ← eval x fuel s left
      if ← isTrue v then return v else eval x fuel s right
    | .not e => do
      let v ← eval x fuel s e
      return .bool (!(← isTrue v))
    | .choice test yes no => do
      let v ← eval x fuel s test
      if ← isTrue v then eval x fuel s yes else eval x fuel s no
    | .lambda path params locals body => do
      let initials ← evalInitials x fuel s (initialExprs params)
      newRoutine s (lambdaRoutine path params locals body) initials
    | .store name e => do
      let v ← eval x fuel s e
      storeName s name v
      return v
    | .collect kind key value clauses locals => do
      match clauses with
      | [] => return .nothing
      | c :: rest =>
        let v ← eval x fuel s c.source
        let source ← evaluate s (sourceOf v)
        let scopes := (← get).scopesIn s.frame
        let n ← enterFrame { locals, scopes }
        let found ← collectFrom x fuel (s.callee n) c source rest key value []
        leaveFrame n
        evaluate s (gathered kind found)
    | .await e => do
      let v ← eval x fuel s e
      awaitValue x fuel s v
    | .template parts => do
      let t ← evalParts x fuel s parts
      return .str t
    | .formatted e conversion format => do
      let t ← evalFormatted x fuel s e conversion format
      return .str t
    | e => return constantOf e

def evalOption (x : Executable) : Nat → Site → Option Expr → Exec Value
  | 0, _, _ => throw .outOfFuel
  | fuel + 1, s, some e => eval x fuel s e
  | _ + 1, _, none => return .nothing

/-- The values of several expressions, in order, of which some may be
spread. -/
def evalItems (x : Executable) : Nat → Site → List Expr → Exec (List Value)
  | 0, _, _ => throw .outOfFuel
  | _ + 1, _, [] => return []
  | fuel + 1, s, e :: rest => do
    let v ← eval x fuel s e
    let values ← match e.bare with
      | .spread _ => evaluate s (spreadValues v)
      | _ => pure [v]
    return values ++ (← evalItems x fuel s rest)

def evalEntries (x : Executable) :
    Nat → Site → List (Option Expr × Expr) → Exec (List (Value × Value))
  | 0, _, _ => throw .outOfFuel
  | _ + 1, _, [] => return []
  | fuel + 1, s, (some key, e) :: rest => do
    let k ← eval x fuel s key
    let v ← eval x fuel s e
    return (k, v) :: (← evalEntries x fuel s rest)
  | fuel + 1, s, (none, e) :: rest => do
    let v ← eval x fuel s e
    match v with
    | .dict address =>
      let entries := (← get).heap.entries address
      return entries ++ (← evalEntries x fuel s rest)
    | v => fail s (.other .type (typed v.typeName "object is not a mapping"))

def evalArguments (x : Executable) :
    Nat → Site → Value → List Expr → List (Option Text × Expr) → Exec Arguments
  | 0, _, _, _, _ => throw .outOfFuel
  | fuel + 1, s, callee, args, named => do
    let byPosition ← match loneSpread? args with
      | some e => do
        let v ← eval x fuel s e
        let name := (← get).heap.calleeText callee
        evaluate s (tryCatch (valuesOf v) fun _ => throw (.spreadArguments name v.typeName))
      | none => evalItems x fuel s args
    let byName ← evalNamed x fuel s callee named
    match repeatedName? byName with
    | some name =>
      let callee := (← get).heap.calleeText callee
      fail s (.other .type (callee ++ " got multiple values for keyword argument '" ++ name ++ "'"))
    | none => return ⟨byPosition, byName⟩

def evalNamed (x : Executable) :
    Nat → Site → Value → List (Option Text × Expr) → Exec (List (Text × Value))
  | 0, _, _, _ => throw .outOfFuel
  | _ + 1, _, _, [] => return []
  | fuel + 1, s, callee, (some name, e) :: rest => do
    let v ← eval x fuel s e
    return (name, v) :: (← evalNamed x fuel s callee rest)
  | fuel + 1, s, callee, (none, e) :: rest => do
    let v ← eval x fuel s e
    let text := (← get).heap.calleeText callee
    let entries ← evaluate s (namedEntries text v)
    return entries ++ (← evalNamed x fuel s callee rest)

def evalInitials (x : Executable) :
    Nat → Site → List (Text × Expr) → Exec (List (Text × Value))
  | 0, _, _ => throw .outOfFuel
  | _ + 1, _, [] => return []
  | fuel + 1, s, (name, e) :: rest => do
    let v ← eval x fuel s e
    return (name, v) :: (← evalInitials x fuel s rest)

/-- The value of a chain of comparisons after its first operand. -/
def evalChain (x : Executable) : Nat → Site → Value → List (CompareOp × Expr) → Exec Value
  | 0, _, _, _ => throw .outOfFuel
  | _ + 1, _, _, [] => return .bool true
  | fuel + 1, s, a, (op, e) :: rest => do
    let b ← eval x fuel s e
    let holds ← orFail s ((← get).heap.compareValues op a b)
    if holds then evalChain x fuel s b rest else return .bool false

def evalParts (x : Executable) : Nat → Site → List Expr → Exec Text
  | 0, _, _ => throw .outOfFuel
  | _ + 1, _, [] => return []
  | fuel + 1, s, e :: rest => do
    let v ← eval x fuel s e
    let t ← orFail s ((← get).heap.text v)
    return t ++ (← evalParts x fuel s rest)

/-- The text of a value inside a template. -/
def evalFormatted (x : Executable) :
    Nat → Site → Expr → Conversion → Option Expr → Exec Text
  | 0, _, _, _, _ => throw .outOfFuel
  | fuel + 1, s, e, conversion, format => do
    let v ← eval x fuel s e
    let heap := (← get).heap
    let v ← match conversion with
      | .plain => pure v
      | .text => do pure (.str (← orFail s (heap.text v)))
      | .shown => do pure (.str (← orFail s (heap.shown v)))
      | .ascii => do pure (.str (asciiOnly (← orFail s (heap.shown v))))
    let layout ← evalOption x fuel s format
    orFail s (heap.formatted v (match layout with
      | .str t => t
      | _ => []))

/-- All of some conditions hold. -/
def allHold (x : Executable) : Nat → Site → List Expr → Exec Bool
  | 0, _, _ => throw .outOfFuel
  | _ + 1, _, [] => return true
  | fuel + 1, s, e :: rest => do
    let v ← eval x fuel s e
    if ← isTrue v then allHold x fuel s rest else return false

/-- The entries that the clauses of a collection give, before those found
already. -/
def collect (x : Executable) :
    Nat → Site → List (Clause Expr) → Option Expr → Expr → List (Value × Value) →
      Exec (List (Value × Value))
  | 0, _, _, _, _, _ => throw .outOfFuel
  | fuel + 1, s, [], key, value, found => do
    let k ← evalOption x fuel s key
    let v ← eval x fuel s value
    return (k, v) :: found
  | fuel + 1, s, c :: rest, key, value, found => do
    let v ← eval x fuel s c.source
    let source ← evaluate s (sourceOf v)
    collectFrom x fuel s c source rest key value found

/-- The same, for what is left of the source of the first clause. -/
def collectFrom (x : Executable) :
    Nat → Site → Clause Expr → Source → List (Clause Expr) → Option Expr → Expr →
      List (Value × Value) → Exec (List (Value × Value))
  | 0, _, _, _, _, _, _, _ => throw .outOfFuel
  | fuel + 1, s, c, source, rest, key, value, found => do
    match source.next? (← get).heap with
    | none => return found
    | some (v, source) =>
      store x fuel s c.target v
      if ← allHold x fuel s c.conditions then
        let found ← collect x fuel s rest key value found
        collectFrom x fuel s c source rest key value found
      else collectFrom x fuel s c source rest key value found

def call (x : Executable) : Nat → Site → Value → Arguments → Exec Value
  | 0, _, _, _ => throw .outOfFuel
  | fuel + 1, s, .routine address, a => do
    match (← get).heap.closure? address with
    | none => return .nothing
    | some c =>
      let bound ← evaluate s (bindArguments c.code.path c.code.params c.initials a)
      if c.code.yields then
        return .constant (if c.code.isAsync then "async_generator" else "generator")
          "<generator object>"
      else if c.code.isAsync then
        evaluate s do return .pending (← Eval.alloc (.call { target := c, bound }))
      else runRoutine x fuel s c bound
  | _ + 1, s, callee, a => callOther s callee a

def awaitValue (x : Executable) : Nat → Site → Value → Exec Value
  | 0, _, _ => throw .outOfFuel
  | fuel + 1, s, .pending address => do
    match ← beginCall s address with
    | some c => runRoutine x fuel s c.target c.bound
    | none => return .nothing
  | _ + 1, s, .reading label => do
    let t ← orFail s ((← get).heap.text label)
    let d ← nextInput s t
    evaluate s d.toValue
  | _ + 1, s, v => fail s (.notAwaitable v.typeName)

def runRoutine (x : Executable) : Nat → Site → Closure → List (Text × Value) → Exec Value
  | 0, _, _, _ => throw .outOfFuel
  | fuel + 1, s, c, bound => do
    if s.depth ≥ depthLimit then fail s .tooDeep
    let n ← enterFrame { vars := bound, locals := c.code.locals, scopes := c.scopes }
    let flow ← execBlock x fuel (s.callee n) c.code.body
    leaveFrame n
    match flow with
    | .leftScope v => return v
    | _ => return .nothing

def store (x : Executable) : Nat → Site → Expr → Value → Exec Unit
  | 0, _, _, _ => throw .outOfFuel
  | fuel + 1, s, target, v => do
    match target with
    | .name t => storeName s t v
    | .located line e => store x fuel (s.at x line) e v
    | .spread e => store x fuel s e v
    | .attribute e name => do
      let o ← eval x fuel s e
      evaluate s (storeAttribute o name v)
    | .item e index => do
      let o ← eval x fuel s e
      let i ← eval x fuel s index
      evaluate s (storeItem o i v)
    | .tuple targets | .list targets => do
      let parts ← evaluate s (partsFor targets v)
      storeAll x fuel s (targets.zip parts)
    | _ => return

def storeAll (x : Executable) : Nat → Site → List (Expr × Value) → Exec Unit
  | 0, _, _ => throw .outOfFuel
  | _ + 1, _, [] => return
  | fuel + 1, s, (target, v) :: rest => do
    store x fuel s target v
    storeAll x fuel s rest

def delete (x : Executable) : Nat → Site → List Expr → Exec Unit
  | 0, _, _ => throw .outOfFuel
  | _ + 1, _, [] => return
  | fuel + 1, s, target :: rest => do
    match target with
    | .name t => deleteName s t
    | .located line e => delete x fuel (s.at x line) [e]
    | .attribute e name => do
      let o ← eval x fuel s e
      evaluate s (deleteAttribute o name)
    | .item e index => do
      let o ← eval x fuel s e
      let i ← eval x fuel s index
      evaluate s (deleteItem o i)
    | .tuple targets | .list targets => delete x fuel s targets
    | _ => return
    delete x fuel s rest

def augment (x : Executable) : Nat → Site → BinaryOp → Expr → Expr → Exec Unit
  | 0, _, _, _, _ => throw .outOfFuel
  | fuel + 1, s, op, target, e => do
    match target with
    | .located line target => augment x fuel (s.at x line) op target e
    | .attribute o name => do
      let o ← eval x fuel s o
      let a ← evaluate s (attributeOf o name)
      let b ← eval x fuel s e
      evaluate s do storeAttribute o name (← augmented op a b)
    | .item o index => do
      let o ← eval x fuel s o
      let i ← eval x fuel s index
      let a ← evaluate s (itemOf o i)
      let b ← eval x fuel s e
      evaluate s do storeItem o i (← augmented op a b)
    | target => do
      let a ← eval x fuel s target
      let b ← eval x fuel s e
      let v ← evaluate s (augmented op a b)
      store x fuel s target v

def execAction (x : Executable) : Nat → Site → Action → Exec Flow
  | 0, _, _ => throw .outOfFuel
  | fuel + 1, s, a => do
    match a with
    | .evaluate e => do
      let _ ← eval x fuel s e
      return .next
    | .assign targets e => do
      let v ← eval x fuel s e
      storeAll x fuel s (targets.map fun target => (target, v))
      return .next
    | .annotate target note e => do
      match e with
      | some e =>
        let v ← eval x fuel s e
        store x fuel s target v
      | none => pure ()
      if s.frame = 0 then
        let _ ← eval x fuel s note
      return .next
    | .augment op target e => do
      augment x fuel s op target e
      return .next
    | .delete targets => do
      delete x fuel s targets
      return .next
    | .assert test message => do
      let v ← eval x fuel s test
      if ← isTrue v then return .next
      let m ← evalOption x fuel s message
      let t ← if message.isNone then pure [] else orFail s ((← get).heap.text m)
      fail s (.assertion t)
    | .raise (some e) _ => do
      let v ← eval x fuel s e
      fail s ((← get).heap.raised v)
    | .raise none _ => fail s (.other .runtime "No active exception to reraise")
    | .leaveLoop => return .leftLoop
    | .nextRound => return .nextRound
    | .leaveScope e => do
      let v ← evalOption x fuel s e
      return .leftScope v
    | .pass => return .next

def execBlock (x : Executable) : Nat → Site → List Node → Exec Flow
  | 0, _, _ => throw .outOfFuel
  | _ + 1, _, [] => return .next
  | fuel + 1, s, node :: rest => do
    match ← execNode x fuel s node with
    | .next => execBlock x fuel s rest
    | flow => return flow

def execNode (x : Executable) : Nat → Site → Node → Exec Flow
  | 0, _, _ => throw .outOfFuel
  | fuel + 1, s, node => do
    match node with
    | .action line a => execAction x fuel (s.at x line) a
    | .choice line test body otherwise => do
      let v ← eval x fuel (s.at x line) test
      if ← isTrue v then execBlock x fuel s body else execBlock x fuel s otherwise
    | .whileLoop line test body otherwise =>
      execWhile x fuel (s.at x line) test body otherwise
    | .forLoop line target source body otherwise => do
      let s := s.at x line
      let v ← eval x fuel s source
      let source ← evaluate s (sourceOf v)
      execFor x fuel s target source body otherwise
    | .guarded line body handlers otherwise final => do
      let s := s.at x line
      let result ← attempt (execGuarded x fuel s body handlers otherwise)
      match result with
      | .error .outOfFuel => throw .outOfFuel
      | result =>
        match ← execBlock x fuel s final, result with
        | .next, .ok flow => return flow
        | .next, .error stop => throw stop
        | flow, _ => return flow
    | .define line r => do
      let s := s.at x line
      let initials ← evalInitials x fuel s (initialExprs r.params)
      let notes := r.params.filterMap Param.note ++ r.note.toList
      let _ ← evalItems x fuel s notes
      let f ← newRoutine s r initials
      storeName s r.name f
      return .next

def execWhile (x : Executable) : Nat → Site → Expr → List Node → List Node → Exec Flow
  | 0, _, _, _, _ => throw .outOfFuel
  | fuel + 1, s, test, body, otherwise => do
    let v ← eval x fuel s test
    if ← isTrue v then
      match ← execBlock x fuel s body with
      | .next | .nextRound => execWhile x fuel s test body otherwise
      | .leftLoop => return .next
      | .leftScope v => return .leftScope v
    else execBlock x fuel s otherwise

/-- Runs a loop over what is left of the values of a source. -/
def execFor (x : Executable) : Nat → Site → Expr → Source → List Node → List Node → Exec Flow
  | 0, _, _, _, _, _ => throw .outOfFuel
  | fuel + 1, s, target, source, body, otherwise => do
    match source.next? (← get).heap with
    | none => execBlock x fuel s otherwise
    | some (v, source) =>
      store x fuel s target v
      match ← execBlock x fuel s body with
      | .next | .nextRound => execFor x fuel s target source body otherwise
      | .leftLoop => return .next
      | .leftScope v => return .leftScope v

/-- Runs a block whose faults are dealt with. -/
def execGuarded (x : Executable) :
    Nat → Site → List Node → List (HandlerOf Node) → List Node → Exec Flow
  | 0, _, _, _, _ => throw .outOfFuel
  | fuel + 1, s, body, handlers, otherwise => do
    match ← attempt (execBlock x fuel s body) with
    | .ok .next => execBlock x fuel s otherwise
    | .ok flow => return flow
    | .error stop => handle x fuel s stop handlers

def handle (x : Executable) : Nat → Site → Stop → List (HandlerOf Node) → Exec Flow
  | 0, _, _, _ => throw .outOfFuel
  | _ + 1, _, stop, [] => throw stop
  | fuel + 1, s, stop, h :: rest => do
    let s := s.at x h.line
    let found ← match stop.kind?, h.kind with
      | none, _ => pure false
      | some _, none => pure true
      | some k, some e => do
        let v ← eval x fuel s e
        let heap := (← get).heap
        orFail s (heap.handles k heap.depth v)
    if found then
      match h.name with
      | some name => do
        let v ← evaluate s stop.value
        storeName s name v
        let flow ← execBlock x fuel s h.body
        let _ ← attempt (deleteName s name)
        return flow
      | none => execBlock x fuel s h.body
    else handle x fuel s stop rest

end

end Pseudocode.Run
