import Pseudocode.Run.Compare

/-!
# What the operators do to values

Integers are unbounded; with a double on either side arithmetic is that
of doubles. Division `/` always gives a double, `//` and `%` round down.
Texts, arrays and tuples are joined by `+` and repeated by `*`. The
operators on bits see a negative integer as if it had a one in every
place from some place on.
-/

namespace Pseudocode.Run

open Text Script

def Numeric.toFloat : Numeric → Except Fault Float
  | .int n =>
    match Number.ofInt? n with
    | some x => .ok x
    | none => .error .integerTooLarge
  | .float x => .ok x

/-- The places that two integers need together, with one for the sign. -/
def bitWidth (a b : Int) : Nat :=
  max a.natAbs.log2 b.natAbs.log2 + 2

def onBits (op : Nat → Nat → Nat) (a b : Int) : Int :=
  let size : Int := Nat.pow 2 (bitWidth a b)
  let r : Int := op (a % size).toNat (b % size).toNat
  if 2 * r ≥ size then r - size else r

/-- The largest number of bits of a result. -/
def bitLimit : Nat := Nat.pow 2 28

def intPower (a : Int) (n : Nat) : Except Fault Int :=
  if a.natAbs ≤ 1 || a.natAbs.log2 * n ≤ bitLimit then
    .ok (if a < 0 && n % 2 == 1 then -(Nat.pow a.natAbs n : Int) else Nat.pow a.natAbs n)
  else .error .outOfMemory

def isWhole (x : Float) : Bool :=
  x.floor == x

def floatPower (x y : Float) : Except Fault Float :=
  let r := x.pow y
  if x == 0.0 && y < 0.0 then .error .zeroPower
  else if r.isInf && !x.isInf && !y.isInf then .error .resultTooLarge
  else .ok r

def intArith (op : BinaryOp) (a b : Int) : Except Fault Value :=
  match op with
  | .add => .ok (.int (a + b))
  | .sub => .ok (.int (a - b))
  | .mul => .ok (.int (a * b))
  | .div =>
    if b = 0 then .error .division
    else match Number.quotient? a b with
      | some x => .ok (.float x)
      | none => .error .quotientTooLarge
  | .floorDiv => if b = 0 then .error .integerDivision else .ok (.int (a.fdiv b))
  | .mod => if b = 0 then .error .integerModulo else .ok (.int (a.fmod b))
  | .power =>
    if b < 0 then do
      return .float (← floatPower (← (Numeric.int a).toFloat) (← (Numeric.int b).toFloat))
    else do return .int (← intPower a b.toNat)
  | .shiftLeft =>
    if b < 0 then .error .negativeShift
    else if a = 0 then .ok (.int 0)
    else if b > bitLimit then .error .outOfMemory
    else .ok (.int (a * Nat.pow 2 b.toNat))
  | .shiftRight =>
    if b < 0 then .error .negativeShift
    else .ok (.int (a.fdiv (Nat.pow 2 (min b.toNat (a.natAbs.log2 + 1)))))
  | .bitAnd => .ok (.int (onBits Nat.land a b))
  | .bitOr => .ok (.int (onBits Nat.lor a b))
  | .bitXor => .ok (.int (onBits Nat.xor a b))
  | .matMul => .error (.operands op.text "int" "int")

/-- Arithmetic of doubles; `none` for an operator that doubles do not
have. -/
def floatArith? (op : BinaryOp) (x y : Float) : Option (Except Fault Float) :=
  match op with
  | .add => some (.ok (x + y))
  | .sub => some (.ok (x - y))
  | .mul => some (.ok (x * y))
  | .div => some (if y == 0.0 then .error .floatDivision else .ok (x / y))
  | .floorDiv =>
    some (if y == 0.0 then .error .floatFloorDivision else .ok (Number.floorDiv x y))
  | .mod => some (if y == 0.0 then .error .floatModulo else .ok (Number.floorMod x y))
  | .power => some (floatPower x y)
  | _ => none

/-- The sign of an operator as messages give it, `=` standing after that
of an assignment. -/
def signOf (op : BinaryOp) (assigning : Bool) : Text :=
  if assigning then op.text ++ "="
  else if op = .power then "** or pow()" else op.text

def operandFault (op : BinaryOp) (assigning : Bool) (a b : Value) : Fault :=
  .operands (signOf op assigning) a.typeName b.typeName

def fitsIndex (n : Int) : Bool :=
  -(Nat.pow 2 63 : Int) ≤ n && n < (Nat.pow 2 63 : Int)

/-- The largest array that is made. -/
def sizeLimit : Nat := Nat.pow 2 33

/-- How often something of a size is repeated. -/
def repetitions (size : Nat) (v : Value) : Except Fault Nat :=
  match v.integer? with
  | none => .error (.repetition v.typeName)
  | some n =>
    if !fitsIndex n then .error .lengthSize
    else if size * n.toNat > sizeLimit then .error .outOfMemory
    else .ok n.toNat

/-- A sequence repeated; `none` for what is no sequence. -/
def repeated? (v count : Value) : Option (Eval Value) :=
  match v with
  | .str t => some do
    return .str (List.replicate (← repetitions t.length count) t).flatten
  | .list address => some do
    let cells ← Eval.cells address
    let n ← repetitions cells.size count
    Eval.newList (if h : cells.size = 1 then Array.replicate n cells[0]
      else (Array.replicate n cells).flatten)
  | .tuple address => some do
    let cells ← Eval.cells address
    let n ← repetitions cells.size count
    Eval.newTuple (List.replicate n cells.toList).flatten
  | _ => none

def joined? (a b : Value) : Option (Eval Value) :=
  match a, b with
  | .str t, .str u => some (return .str (t ++ u))
  | .list s, .list t => some do Eval.newList ((← Eval.cells s) ++ (← Eval.cells t))
  | .tuple s, .tuple t => some do
    Eval.newTuple ((← Eval.cells s) ++ (← Eval.cells t)).toList
  | .str _, b | .list _, b | .tuple _, b => some (throw (.concat a.typeName b.typeName))
  | _, _ => none

/-- Two booleans under an operator on bits stay booleans. -/
def boolArith? (op : BinaryOp) (a b : Value) : Option Value :=
  match op, a, b with
  | .bitAnd, .bool x, .bool y => some (.bool (x && y))
  | .bitOr, .bool x, .bool y => some (.bool (x || y))
  | .bitXor, .bool x, .bool y => some (.bool (x != y))
  | _, _, _ => none

/-- An operator on numbers; `none` if it is not one for them. -/
def numericArith? (op : BinaryOp) (a b : Value) : Option (Eval Value) :=
  match boolArith? op a b, a.numeric?, b.numeric? with
  | some v, _, _ => some (return v)
  | none, some (.int m), some (.int n) =>
    if op = .matMul then none else some (Eval.ofExcept (intArith op m n))
  | none, some x, some y =>
    if (floatArith? op 1.0 1.0).isNone then none
    else some do
      let x ← Eval.ofExcept x.toFloat
      let y ← Eval.ofExcept y.toFloat
      match floatArith? op x y with
      | some (.ok z) => Eval.ofFloat z
      | some (.error fault) => throw fault
      | none => throw (operandFault op false a b)
  | none, _, _ => none

/-- An operator on sequences; `none` if it is not one for them. -/
def sequenceArith? (op : BinaryOp) (a b : Value) : Option (Eval Value) :=
  match op with
  | .add => joined? a b
  | .mul => repeated? a b <|> repeated? b a
  | _ => none

/-- A sign before a value. A double that is not a number stays the same
under a plus. -/
def signed (op : UnaryOp) (v : Value) : Eval Value :=
  match op, v.numeric? with
  | .plus, some (.float _) => return v
  | .plus, some (.int n) => return .int n
  | .minus, some (.int n) => return .int (-n)
  | .minus, some (.float x) => Eval.ofFloat (-x)
  | .invert, some (.int n) => return .int (-n - 1)
  | op, _ => throw (.sign op.text v.typeName)

end Pseudocode.Run
