import Pseudocode.Run.Kind
import Pseudocode.Text.Digits
import Pseudocode.Text.Quoted

/-!
# Why a run fails

A fault names what went wrong; its message is the wording that the user
sees. Types and operators are given by the names that messages use.
-/

namespace Pseudocode.Run

open Text

inductive Fault where
  | unknownName (name : Text)
  /-- A variable of the routine that nothing has been stored in yet. -/
  | unassigned (name : Text)
  /-- The same for a variable of a routine around. -/
  | unassignedOutside (name : Text)
  | division
  | integerDivision
  | integerModulo
  /-- Division by a zero among doubles: `/`, `//` and `%`. -/
  | floatDivision
  | floatFloorDivision
  | floatModulo
  | zeroPower
  | negativeShift
  | outOfRange (sequence : Text)
  | listStore
  | indexType (sequence type : Text)
  | textIndexType (type : Text)
  | sliceBound
  | sliceStep
  | sliceValue
  /-- A number of values stored in a slice with a step that has another
  number of cells. -/
  | sliceSize (given size : Nat)
  | missingKey (shown : Text)
  /-- An integer too large for an index, or for a length. -/
  | indexSize
  | lengthSize
  | notOrdered (op left right : Text)
  | operands (op left right : Text)
  /-- A sequence can only be joined with its like. -/
  | concat (sequence type : Text)
  | repetition (type : Text)
  /-- A text used as a format with values it has no place for, or with
  too few of them. -/
  | formatArguments
  | formatMissing
  | sign (op type : Text)
  | notSubscriptable (type : Text)
  | notAssignable (type : Text)
  | notDeletable (type : Text)
  | notCallable (type : Text)
  | notIterable (type : Text)
  | notSearchable (type : Text)
  | notText (type : Text)
  | notHashable (type : Text)
  | notAwaitable (type : Text)
  | awaitedTwice
  | noAttribute (type name : Text)
  | fixedAttribute (type name : Text)
  | noLength (type : Text)
  /-- A value without parts stored into several targets; too many parts,
  or too few of them. -/
  | unpack (type : Text)
  | tooManyParts (expected : Nat)
  | tooFewParts (expected given : Nat) (atLeast : Bool)
  | notNumber (type : Text)
  | notDecimal (type : Text)
  | notInteger (type : Text)
  | badNumeral (t : Text)
  | badDecimal (t : Text)
  | numeralTooLong (digits : Nat)
  | nanToInteger
  | infinityToInteger
  | integerTooLarge
  | quotientTooLarge
  | resultTooLarge
  | tooManyDigits
  /-- A call with too few arguments by position, or by name. -/
  | missing (routine : Text) (params : List Text)
  | missingNamed (routine : Text) (params : List Text)
  /-- A call with too many arguments by position, `named` other ones being
  given by name only. -/
  | tooMany (routine : Text) (least most given named : Nat)
  /-- An argument by a name that the routine does not have, or that has
  its value already, or that only counts by its position. -/
  | unexpected (routine name : Text)
  | repeated (routine name : Text)
  | positionOnly (routine : Text) (params : List Text)
  | spreadArguments (routine type : Text)
  | spreadNames (routine type : Text)
  | noNames (routine : Text)
  /-- A wrong number of arguments of something that takes one, or none. -/
  | oneArgument (routine : Text) (given : Nat)
  | argumentCount (routine : Text) (least most given : Nat)
  /-- More arguments than something takes, and one that it lacks. -/
  | atMost (routine : Text) (most given : Nat)
  | lacking (routine param : Text) (position : Nat)
  | assertion (t : Text)
  /-- Something raised that is no fault, and something waited for that is
  none. -/
  | notFault
  | notKind
  | outOfMemory
  | tooDeep
  | endOfInput
  | other (kind : Kind) (t : Text)
deriving DecidableEq, Repr

/-- Names in quotes, with commas and a final `and`. -/
def nameList : List Text → Text
  | [] => []
  | [a] => quoted a
  | [a, b] => quoted a ++ " and " ++ quoted b
  | names => join ", " (names.dropLast.map quoted) ++ ", and " ++
      (names.getLast?.map quoted).getD []

def plural (n : Nat) (noun : Text) : Text :=
  if n = 1 then noun else noun ++ "s"

def wereGiven (n : Nat) : Text :=
  if n = 1 then "was given" else "were given"

def typed (type rest : Text) : Text :=
  "'" ++ type ++ "' " ++ rest

/-- The longest part of a name or a literal that a message shows. -/
def shownLimit : Nat := 200

/-- The front of a text that takes no more bytes than a limit; a character
that is cut through is replaced. -/
def cutBytes : Nat → Text → Text
  | _, [] => []
  | limit, c :: t =>
    let size := c.utf8Size
    if size ≤ limit then c :: cutBytes (limit - size) t
    else if limit = 0 then [] else ['�']

def arity (least most : Nat) : Text :=
  if least = most then ofNat most else "from " ++ ofNat least ++ " to " ++ ofNat most

def Fault.kind : Fault → Kind
  | .unknownName _ | .unassignedOutside _ => .name
  | .unassigned _ => .unboundLocal
  | .division | .integerDivision | .integerModulo | .floatDivision | .floatFloorDivision
  | .floatModulo | .zeroPower => .zeroDivision
  | .negativeShift | .sliceStep | .sliceSize .. | .badNumeral _ | .badDecimal _
  | .numeralTooLong _ | .nanToInteger | .tooManyDigits | .tooManyParts _
  | .tooFewParts .. => .value
  | .outOfRange _ | .listStore | .indexSize => .index
  | .missingKey _ => .key
  | .lengthSize | .infinityToInteger | .integerTooLarge | .quotientTooLarge
  | .resultTooLarge => .overflow
  | .noAttribute .. | .fixedAttribute .. => .attribute
  | .awaitedTwice => .runtime
  | .assertion _ => .assertion
  | .outOfMemory => .memory
  | .tooDeep => .recursion
  | .endOfInput => .endOfFile
  | .other kind _ => kind
  | _ => .type

def Fault.text : Fault → Text
  | .unknownName name => "name '" ++ cutBytes shownLimit name ++ "' is not defined"
  | .unassigned name =>
    "cannot access local variable '" ++ name ++ "' where it is not associated with a value"
  | .unassignedOutside name =>
    "cannot access free variable '" ++ name ++
      "' where it is not associated with a value in enclosing scope"
  | .division => "division by zero"
  | .integerDivision => "integer division or modulo by zero"
  | .integerModulo => "integer modulo by zero"
  | .floatDivision => "float division by zero"
  | .floatFloorDivision => "float floor division by zero"
  | .floatModulo => "float modulo"
  | .zeroPower => "0.0 cannot be raised to a negative power"
  | .negativeShift => "negative shift count"
  | .outOfRange sequence => sequence ++ " index out of range"
  | .listStore => "list assignment index out of range"
  | .indexType sequence type =>
    sequence ++ " indices must be integers or slices, not " ++ type
  | .textIndexType type => "string indices must be integers, not '" ++ type ++ "'"
  | .sliceBound => "slice indices must be integers or None or have an __index__ method"
  | .sliceStep => "slice step cannot be zero"
  | .sliceValue => "can only assign an iterable"
  | .sliceSize given size =>
    "attempt to assign sequence of size " ++ ofNat given ++ " to extended slice of size " ++
      ofNat size
  | .missingKey shown => shown
  | .indexSize => "cannot fit 'int' into an index-sized integer"
  | .lengthSize => "cannot fit 'int' into an index-sized integer"
  | .notOrdered op left right =>
    "'" ++ op ++ "' not supported between instances of '" ++ left ++ "' and '" ++ right ++ "'"
  | .operands op left right =>
    "unsupported operand type(s) for " ++ op ++ ": '" ++ left ++ "' and '" ++ right ++ "'"
  | .concat sequence type =>
    "can only concatenate " ++ sequence ++ " (not \"" ++ type ++ "\") to " ++ sequence
  | .repetition type => "can't multiply sequence by non-int of type '" ++ type ++ "'"
  | .formatArguments => "not all arguments converted during string formatting"
  | .formatMissing => "not enough arguments for format string"
  | .sign op type => "bad operand type for unary " ++ op ++ ": '" ++ type ++ "'"
  | .notSubscriptable type => typed type "object is not subscriptable"
  | .notAssignable type => typed type "object does not support item assignment"
  | .notDeletable type => typed type "object doesn't support item deletion"
  | .notCallable type => typed type "object is not callable"
  | .notIterable type => typed type "object is not iterable"
  | .notSearchable type => "argument of type '" ++ type ++ "' is not iterable"
  | .notText type => "'in <string>' requires string as left operand, not " ++ type
  | .notHashable type => "unhashable type: '" ++ type ++ "'"
  | .notAwaitable type => "object " ++ type ++ " can't be used in 'await' expression"
  | .awaitedTwice => "cannot reuse already awaited coroutine"
  | .noAttribute type name => typed type "object has no attribute '" ++ name ++ "'"
  | .fixedAttribute type name => typed type "object attribute '" ++ name ++ "' is read-only"
  | .noLength type => "object of type '" ++ type ++ "' has no len()"
  | .unpack type => "cannot unpack non-iterable " ++ type ++ " object"
  | .tooManyParts expected => "too many values to unpack (expected " ++ ofNat expected ++ ")"
  | .tooFewParts expected given atLeast =>
    let least : Text := if atLeast then "at least " else []
    "not enough values to unpack (expected " ++ least ++ ofNat expected ++ ", got " ++
      ofNat given ++ ")"
  | .notNumber type =>
    "int() argument must be a string, a bytes-like object or a real number, not '" ++ type ++ "'"
  | .notDecimal type => "float() argument must be a string or a real number, not '" ++ type ++ "'"
  | .notInteger type => typed type "object cannot be interpreted as an integer"
  | .badNumeral t => "invalid literal for int() with base 10: " ++ (quoted t).take shownLimit
  | .badDecimal t => "could not convert string to float: " ++ quoted t
  | .numeralTooLong digits =>
    "Exceeds the limit (" ++ ofNat digitLimit ++
      " digits) for integer string conversion: value has " ++ ofNat digits ++
      " digits; use sys.set_int_max_str_digits() to increase the limit"
  | .nanToInteger => "cannot convert float NaN to integer"
  | .infinityToInteger => "cannot convert float infinity to integer"
  | .integerTooLarge => "int too large to convert to float"
  | .quotientTooLarge => "integer division result too large for a float"
  | .resultTooLarge => "(34, 'Numerical result out of range')"
  | .tooManyDigits =>
    "Exceeds the limit (" ++ ofNat digitLimit ++
      " digits) for integer string conversion; " ++
      "use sys.set_int_max_str_digits() to increase the limit"
  | .missing routine params =>
    routine ++ "() missing " ++ ofNat params.length ++ " required positional " ++
      plural params.length "argument" ++ ": " ++ nameList params
  | .missingNamed routine params =>
    routine ++ "() missing " ++ ofNat params.length ++ " required keyword-only " ++
      plural params.length "argument" ++ ": " ++ nameList params
  | .tooMany routine least most given named =>
    let takes := routine ++ "() takes " ++ arity least most ++ " positional " ++
      (if least = most then plural most "argument" else "arguments") ++ " but " ++ ofNat given
    if named = 0 then takes ++ " " ++ wereGiven given
    else takes ++ " positional " ++ plural given "argument" ++ " (and " ++ ofNat named ++
      " keyword-only " ++ plural named "argument" ++ ") were given"
  | .unexpected routine name =>
    routine ++ "() got an unexpected keyword argument '" ++ name ++ "'"
  | .repeated routine name =>
    routine ++ "() got multiple values for argument '" ++ name ++ "'"
  | .positionOnly routine params =>
    routine ++ "() got some positional-only arguments passed as keyword arguments: '" ++
      join ", " params ++ "'"
  | .spreadArguments routine type =>
    routine ++ " argument after * must be an iterable, not " ++ type
  | .spreadNames routine type =>
    routine ++ " argument after ** must be a mapping, not " ++ type
  | .noNames routine => routine ++ "() takes no keyword arguments"
  | .oneArgument routine given =>
    routine ++ "() takes exactly one argument (" ++ ofNat given ++ " given)"
  | .argumentCount routine least most given =>
    let (bound, n) : Text × Nat :=
      if least = most then ([], most)
      else if given < least then ("at least ", least) else ("at most ", most)
    routine ++ " expected " ++ bound ++ ofNat n ++ " " ++ plural n "argument" ++ ", got " ++
      ofNat given
  | .atMost routine most given =>
    routine ++ "() takes at most " ++ ofNat most ++ " " ++ plural most "argument" ++ " (" ++
      ofNat given ++ " given)"
  | .lacking routine param position =>
    routine ++ "() missing required argument '" ++ param ++ "' (pos " ++ ofNat position ++ ")"
  | .assertion t => t
  | .notFault => "exceptions must derive from BaseException"
  | .notKind => "catching classes that do not inherit from BaseException is not allowed"
  | .outOfMemory => []
  | .tooDeep => "maximum recursion depth exceeded"
  | .endOfInput => "EOF when reading a line"
  | .other _ t => t

def Fault.message (f : Fault) : Text :=
  f.kind.text ++ ": " ++ f.text

end Pseudocode.Run
