import Pseudocode.Number.Reading
import Pseudocode.Run.Attributes
import Pseudocode.Run.Format

/-!
# The routines that every script knows

Each takes its arguments by position, a few also some by name, and none
calls back into the script.
-/

namespace Pseudocode.Run

open Text Script

def binary (op : BinaryOp) (assigning : Bool) (a b : Value) : Eval Value := do
  match op, a, numericArith? op a b, sequenceArith? op a b with
  | .mod, .str t, _, _ =>
    let filled ← Eval.ofExcept ((← get).fillIn t b)
    return .str filled
  | _, _, some result, _ => result
  | _, _, none, some result => result
  | _, _, none, none => throw (operandFault op assigning a b)

def integerOf (v : Value) : Except Fault Int :=
  match v with
  | .str t =>
    match Number.readInt t with
    | .value n => .ok n
    | .tooLong digits => .error (.numeralTooLong digits)
    | .malformed => .error (.badNumeral t)
  | v =>
    match v.numeric? with
    | some (.int n) => .ok n
    | some (.float x) =>
      match Number.exact x with
      | .nan => .error .nanToInteger
      | .infinite _ => .error .infinityToInteger
      | .finite negative m q => .ok (Number.signed negative (Number.cutOff m q))
    | none => .error (.notNumber v.typeName)

def doubleOf (v : Value) : Except Fault Float :=
  match v with
  | .str t =>
    match Number.readFloat? (trim t) with
    | some x => .ok x
    | none => .error (.badDecimal t)
  | v =>
    match v.numeric? with
    | some x => x.toFloat
    | none => .error (.notDecimal v.typeName)

def onlyInteger (v : Value) : Except Fault Int :=
  match v.integer? with
  | some n => .ok n
  | none => .error (.notInteger v.typeName)

def rangeOf : List Value → Except Fault Value
  | [] => .error (.argumentCount "range" 1 3 0)
  | [stop] => do return .range 0 (← onlyInteger stop) 1
  | [start, stop] => do return .range (← onlyInteger start) (← onlyInteger stop) 1
  | [start, stop, step] => do
    let start ← onlyInteger start
    let stop ← onlyInteger stop
    let step ← onlyInteger step
    if step = 0 then throw (.other .value "range() arg 3 must not be zero")
    return .range start stop step
  | args => .error (.argumentCount "range" 1 3 args.length)

def Value.isOf (v : Value) : Builtin → Bool
  | .object => true
  | .int => v.typeName == "int".toList || v.typeName == "bool".toList
  | b => v.typeName == b.name

/-- A value is of one of the types that another value stands for. The
first argument bounds the depth of tuples. -/
def Heap.isInstance (h : Heap) : Nat → Value → Value → Except Fault Bool
  | depth + 1, v, .tuple address =>
    (h.cells address).toList.foldlM (fun found type =>
      if found then .ok true else isInstance h depth v type) false
  | _, v, .builtin b =>
    if b.isType then .ok (v.isOf b) else .error (.other .type
      "isinstance() arg 2 must be a type, a tuple of types, or a union")
  | _, v, .kind k =>
    match v with
    | .fault k' _ => .ok (k'.isA k)
    | _ => .ok false
  | _, v, w =>
    if w.typeName = "type" then .ok ((h.datum w).text? == some ("<class '" ++ v.typeName ++ "'>"))
    else .error (.other .type "isinstance() arg 2 must be a type, a tuple of types, or a union")

def Value.type (v : Value) : Value :=
  match Builtin.every.find? fun b => b.isType && b.name == v.typeName, Kind.ofText? v.typeName with
  | some b, _ => .builtin b
  | none, some k => .kind k
  | none, none => .constant "type" ("<class '" ++ v.typeName ++ "'>")

/-- The first of some values that comes before the others in an order. -/
def Heap.extreme (h : Heap) (op : CompareOp) : Value → List Value → Except Fault Value
  | best, [] => .ok best
  | best, v :: rest => do
    if ← h.order op h.depth v best then h.extreme op v rest else h.extreme op best rest

def extremeOf (op : CompareOp) (name : Text) (args : List Value) : Eval Value := do
  let values ← match args with
    | [] => throw (.argumentCount name 1 2 0)
    | [v] => valuesOf v
    | args => pure args
  match values with
  | [] => throw (.other .value (name ++ "() arg is an empty sequence"))
  | v :: rest => Eval.ofExcept ((← get).extreme op v rest)

/-- A value put where it belongs among sorted ones, after its equals. -/
def Heap.insertSorted (h : Heap) (v : Value) : List Value → Except Fault (List Value)
  | [] => .ok [v]
  | w :: rest => do
    if ← h.order .lt h.depth v w then return v :: w :: rest
    else return w :: (← h.insertSorted v rest)

def Heap.sort (h : Heap) (values : List Value) : Except Fault (List Value) :=
  values.foldlM (fun sorted v => h.insertSorted v sorted) []

def rounded (v : Value) (places : Option Int) : Eval Value :=
  match v.numeric?, places with
  | some (.int n), none => return .int n
  | some (.int n), some p =>
    if p ≥ 0 then return .int n
    else
      let unit := Nat.pow 10 p.natAbs
      return .int (Number.signed (decide (n < 0)) (Number.roundDiv n.natAbs unit * unit))
  | some (.float x), none =>
    match Number.exact x with
    | .nan => throw .nanToInteger
    | .infinite _ => throw .infinityToInteger
    | .finite negative m q => return .int (Number.signed negative (Number.inUnits m q 0))
  | some (.float x), some p =>
    match Number.exact x with
    | .finite negative m q =>
      if p > 400 then return v
      else if p < -400 then return .float (Number.ofMagnitude negative 0)
      else
        let units := Number.inUnits m q p * Nat.pow 10 (-p).toNat
        return .float (Number.nearest negative units (Nat.pow 10 p.toNat))
    | _ => return v
  | none, _ =>
    throw (.other .type ("type " ++ v.typeName ++ " doesn't define __round__ method"))

def sumOf (start : Value) (values : List Value) : Eval Value := do
  match start with
  | .str _ => throw (.other .type "sum() can't sum strings [use ''.join(seq) instead]")
  | _ => values.foldlM (binary .add false) start

def codeOf : Value → Except Fault Value
  | .str [c] => .ok (.int c.toNat)
  | .str t => .error (.other .type ("ord() expected a character, but string of length " ++
      ofNat t.length ++ " found"))
  | v => .error (.other .type ("ord() expected string of length 1, but " ++ v.typeName ++
      " found"))

/-- Values that are handed out once, with the name of their type. -/
def newStream (type : Text) (items : List Value) : Eval Value :=
  return .stream type (← Eval.alloc (.cells items.toArray))

/-- The name of the type of what hands a value out backwards. -/
def reversedType : Value → Text
  | .list _ => "list_reverseiterator"
  | .range .. => "range_iterator"
  | .dict _ => "dict_reversekeyiterator"
  | _ => "reversed"

/-- Several lists of values side by side, up to the shortest. The first
argument bounds the length. -/
def sideBySide : Nat → List (List Value) → List (List Value)
  | 0, _ => []
  | fuel + 1, rows =>
    match rows.mapM List.head? with
    | some column => if rows.isEmpty then [] else column :: sideBySide fuel (rows.map List.tail)
    | none => []

/-- The pairs of two values that make a dictionary. -/
def entriesOf (v : Value) : Eval (List (Value × Value)) := do
  match v with
  | .dict address => return (← get).entries address
  | v =>
    let items ← valuesOf v
    items.mapIdxM fun i item => do
      let parts ← tryCatch (valuesOf item) fun _ =>
        throw (.other .type ("cannot convert dictionary update sequence element #" ++ ofNat i ++
          " to a sequence"))
      match parts with
      | [a, b] => return (a, b)
      | parts =>
        throw (.other .value
          ("dictionary update sequence element #" ++ ofNat i ++ " has length " ++
            ofNat parts.length ++ "; 2 is required"))

/-- A dictionary of entries, the last one of each key counting. -/
def dictOf (entries : List (Value × Value)) : Eval Value := do
  match entries.find? fun p => !p.1.isKey with
  | some p => throw (.notHashable p.1.typeName)
  | none =>
    let h ← get
    Eval.newDict (entries.foldl (fun es p => assign (h.matches · p.1) p.1 p.2 es) [])

def oneArgument (name : Text) (args : List Value) (f : Value → Eval Value) : Eval Value :=
  match args with
  | [v] => f v
  | args => throw (.oneArgument name args.length)

def optionalArgument (name : Text) (args : List Value) (first : Eval Value)
    (f : Value → Eval Value) : Eval Value :=
  match args with
  | [] => first
  | [v] => f v
  | args => throw (.argumentCount name 0 1 args.length)

def Value.isCallable : Value → Bool
  | .routine _ | .builtin _ | .method _ _ | .hostAct _ | .kind _ => true
  | .constant type _ => type == "type".toList || type == "builtin_function_or_method".toList
  | _ => false

def Builtin.apply (b : Builtin) (args : List Value) : Eval Value := do
  let h ← get
  match b with
  | .object =>
    if args.isEmpty then return .plain (← Eval.newMark)
    else throw (.other .type "object() takes no arguments")
  | .bool => optionalArgument b.name args (return .bool false) fun v => return .bool (h.truth v)
  | .int =>
    optionalArgument b.name args (return .int 0) fun v => do
      return .int (← Eval.ofExcept (integerOf v))
  | .float =>
    optionalArgument b.name args (return .float 0.0) fun v => do
      match v with
      | .nan mark => return .nan mark
      | v => Eval.ofFloat (← Eval.ofExcept (doubleOf v))
  | .str =>
    optionalArgument b.name args (return .str []) fun v => do
      return .str (← Eval.ofExcept (h.text v))
  | .list =>
    optionalArgument b.name args (Eval.newList #[]) fun v => do
      Eval.newList (← valuesOf v).toArray
  | .tuple =>
    optionalArgument b.name args (Eval.newTuple []) fun v => do
      match v with
      | .tuple address => return .tuple address
      | v => Eval.newTuple (← valuesOf v)
  | .dict => optionalArgument b.name args (Eval.newDict []) fun v => do dictOf (← entriesOf v)
  | .set => optionalArgument b.name args (newSet []) fun v => do newSet (← valuesOf v)
  | .range => Eval.ofExcept (rangeOf args)
  | .type =>
    match args with
    | [v] => return v.type
    | _ => throw (.other .type "type() takes 1 or 3 arguments")
  | .len => oneArgument b.name args fun v => return .int (← Eval.ofExcept (h.length v))
  | .isinstance =>
    match args with
    | [v, w] => return .bool (← Eval.ofExcept (h.isInstance h.depth v w))
    | args => throw (.argumentCount b.name 2 2 args.length)
  | .getattr =>
    match args with
    | [v, .str name] => attributeOf v name
    | [v, .str name, other] => return (h.attribute? v name).getD other
    | [_, w] | [_, w, _] =>
      throw (.other .type ("attribute name must be string, not '" ++ w.typeName ++ "'"))
    | args => throw (.argumentCount b.name 2 3 args.length)
  | .abs =>
    oneArgument b.name args fun v =>
      match v.numeric? with
      | some (.int n) => return .int n.natAbs
      | some (.float x) => Eval.ofFloat x.abs
      | none => throw (.other .type ("bad operand type for abs(): '" ++ v.typeName ++ "'"))
  | .min => extremeOf .lt b.name args
  | .max => extremeOf .gt b.name args
  | .sum =>
    match args with
    | [v] => sumOf (.int 0) (← valuesOf v)
    | [v, start] => sumOf start (← valuesOf v)
    | [] => throw (.other .type "sum() takes at least 1 positional argument (0 given)")
    | args => throw (.atMost b.name 2 args.length)
  | .round =>
    match args with
    | [v] | [v, .nothing] => rounded v none
    | [v, places] => rounded v (some (← Eval.ofExcept (onlyInteger places)))
    | [] => throw (.lacking b.name "number" 1)
    | args => throw (.atMost b.name 2 args.length)
  | .ord => oneArgument b.name args fun v => Eval.ofExcept (codeOf v)
  | .chr =>
    oneArgument b.name args fun v => do
      let n ← Eval.ofExcept (onlyInteger v)
      if n < 0 || n > 0x10FFFF then throw (.other .value "chr() arg not in range(0x110000)")
      else return .str [Char.ofNat n.toNat]
  | .repr => oneArgument b.name args fun v => return .str (← Eval.ofExcept (h.shown v))
  | .sorted =>
    match args with
    | [v] =>
      let values ← valuesOf v
      Eval.newList (← Eval.ofExcept (h.sort values)).toArray
    | args => throw (.argumentCount b.name 1 1 args.length)
  | .reversed =>
    match args with
    | [v] =>
      let values ← tryCatch (valuesOf v) fun _ =>
        throw (.other .type (typed v.typeName "object is not reversible"))
      newStream (reversedType v) values.reverse
    | args => throw (.argumentCount b.name 1 1 args.length)
  | .enumerate =>
    match args with
    | v :: start =>
      let first ← Eval.ofExcept (onlyInteger (start.head?.getD (.int 0)))
      let values ← valuesOf v
      newStream b.name (← values.mapIdxM fun i w => Eval.newTuple [.int (first + i), w])
    | [] => throw (.other .type "enumerate() missing required argument 'iterable'")
  | .zip => do
    let rows ← args.mapM valuesOf
    newStream b.name (← (sideBySide ((rows.head?.getD []).length) rows).mapM Eval.newTuple)
  | .any => oneArgument b.name args fun v => return .bool ((← valuesOf v).any h.truth)
  | .all => oneArgument b.name args fun v => return .bool ((← valuesOf v).all h.truth)
  | .divmod =>
    match args with
    | [v, w] =>
      if v.numeric?.isNone || w.numeric?.isNone then
        throw (.operands "divmod()" v.typeName w.typeName)
      let quotient ← binary .floorDiv false v w
      Eval.newTuple [quotient, ← binary .mod false v w]
    | args => throw (.argumentCount b.name 2 2 args.length)
  | .pow =>
    match args with
    | [v, w] => binary .power false v w
    | [] => throw (.lacking b.name "base" 1)
    | [_] => throw (.lacking b.name "exp" 2)
    | args => throw (.atMost b.name 3 args.length)
  | .callable => oneArgument b.name args fun v => return .bool v.isCallable
  | .print => return .nothing

end Pseudocode.Run
