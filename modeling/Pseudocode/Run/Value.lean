import Pseudocode.Run.Datum
import Pseudocode.Run.Fault
import Pseudocode.Script.Syntax

/-!
# The values of a running script

Arrays and other values with parts are shared: a value only refers to an
object, which is kept in the heap of the run, so that a function that
stores into an array it was given changes its caller's array. Numbers and
texts are values by themselves, except that every double that is not a
number is one of its own, and is only the same as itself.
-/

namespace Pseudocode.Run

open Text Script

/-- The types and routines that every script knows. -/
inductive Builtin where
  | object
  | bool
  | int
  | float
  | str
  | list
  | tuple
  | dict
  | set
  | range
  | type
  | len
  | isinstance
  | getattr
  | abs
  | min
  | max
  | sum
  | round
  | ord
  | chr
  | repr
  | sorted
  | reversed
  | enumerate
  | zip
  | any
  | all
  | divmod
  | pow
  | callable
  | print
deriving DecidableEq, Repr

inductive HostAct where
  | write
  | trace
  | read
deriving DecidableEq, Repr

inductive Value where
  | nothing
  | bool (b : Bool)
  | int (n : Int)
  | float (x : Float)
  /-- A double that is not a number, told from others by a mark. -/
  | nan (mark : Nat)
  | str (t : Text)
  /-- A value of which only the type and how it is shown matter. -/
  | constant (type shown : Text)
  | list (address : Nat)
  | tuple (address : Nat)
  | set (address : Nat)
  | dict (address : Nat)
  /-- The bounds and the step of a slice. -/
  | slice (address : Nat)
  /-- Values that are handed out once, with the name of their type. -/
  | stream (type : Text) (address : Nat)
  | range (start stop step : Int)
  /-- A value that is only the same as itself, told from others by a mark. -/
  | plain (mark : Nat)
  | routine (address : Nat)
  /-- A call that can be waited for. -/
  | pending (address : Nat)
  | builtin (b : Builtin)
  /-- A routine of a type, for one value of it. -/
  | method (owner : Value) (name : Text)
  | host
  | hostAct (act : HostAct)
  /-- A read that the host can be waited for. -/
  | reading (label : Value)
  | kind (k : Kind)
  | fault (k : Kind) (address : Nat)
deriving BEq, Repr, Inhabited

/-- A routine with the values and the frames it was defined with. -/
structure Closure where
  code : Routine
  initials : List (Text × Value)
  /-- The frames of the routines around it, innermost first. -/
  scopes : List Nat
  attributes : List (Text × Value) := []
deriving Repr

/-- A call that waits to be run. -/
structure Call where
  target : Closure
  bound : List (Text × Value)
  /-- It was run already. -/
  done : Bool := false
deriving Repr

inductive Object where
  | cells (items : Array Value)
  | entries (pairs : List (Value × Value))
  | closure (c : Closure)
  | call (c : Call)
deriving Repr

def Builtin.isType : Builtin → Bool
  | .object | .bool | .int | .float | .str | .list | .tuple | .dict | .set | .range | .type
  | .enumerate | .zip | .reversed => true
  | _ => false

def Builtin.every : List Builtin :=
  [.object, .bool, .int, .float, .str, .list, .tuple, .dict, .set, .range, .type, .len,
    .isinstance, .getattr, .abs, .min, .max, .sum, .round, .ord, .chr, .repr, .sorted, .reversed,
    .enumerate, .zip, .any, .all, .divmod, .pow, .callable, .print]

def Builtin.name : Builtin → Text
  | .object => "object"
  | .bool => "bool"
  | .int => "int"
  | .float => "float"
  | .str => "str"
  | .list => "list"
  | .tuple => "tuple"
  | .dict => "dict"
  | .set => "set"
  | .range => "range"
  | .type => "type"
  | .len => "len"
  | .isinstance => "isinstance"
  | .getattr => "getattr"
  | .abs => "abs"
  | .min => "min"
  | .max => "max"
  | .sum => "sum"
  | .round => "round"
  | .ord => "ord"
  | .chr => "chr"
  | .repr => "repr"
  | .sorted => "sorted"
  | .reversed => "reversed"
  | .enumerate => "enumerate"
  | .zip => "zip"
  | .any => "any"
  | .all => "all"
  | .divmod => "divmod"
  | .pow => "pow"
  | .callable => "callable"
  | .print => "print"

/-- The names of further types, whose values no script has. -/
def otherTypes : List Text := List.map String.toList [
  "bytearray", "bytes", "classmethod", "complex", "filter", "frozenset", "map", "memoryview",
  "property", "slice", "staticmethod", "super", "BaseExceptionGroup", "BlockingIOError",
  "BrokenPipeError", "BufferError", "BytesWarning", "ChildProcessError",
  "ConnectionAbortedError", "ConnectionError", "ConnectionRefusedError", "ConnectionResetError",
  "DeprecationWarning", "EncodingWarning", "ExceptionGroup", "FileExistsError",
  "FileNotFoundError", "FloatingPointError", "FutureWarning", "GeneratorExit", "ImportError",
  "ImportWarning", "IndentationError", "InterruptedError", "IsADirectoryError",
  "KeyboardInterrupt", "ModuleNotFoundError", "NotADirectoryError", "OSError",
  "PendingDeprecationWarning", "PermissionError", "ProcessLookupError", "ReferenceError",
  "ResourceWarning", "RuntimeWarning", "StopAsyncIteration", "SyntaxError", "SyntaxWarning",
  "SystemError", "SystemExit", "TabError", "TimeoutError", "UnicodeDecodeError",
  "UnicodeEncodeError", "UnicodeTranslateError", "UnicodeWarning", "UserWarning", "Warning"]

/-- The names of further routines, which no script calls. -/
def otherRoutines : List Text := List.map String.toList [
  "__build_class__", "__import__", "aiter", "anext", "ascii", "bin", "breakpoint", "compile",
  "delattr", "dir", "eval", "exec", "format", "globals", "hasattr", "hash", "hex", "id", "input",
  "issubclass", "iter", "locals", "next", "oct", "open", "setattr", "vars"]

/-- Further names, with the types of their values and how these are
shown. -/
def otherNames : List (String × String × String) := [
  ("Ellipsis", "ellipsis", "Ellipsis"),
  ("NotImplemented", "NotImplementedType", "NotImplemented"),
  ("EnvironmentError", "type", "<class 'OSError'>"),
  ("IOError", "type", "<class 'OSError'>"),
  ("exit", "Quitter", "Use exit() or Ctrl-D (i.e. EOF) to exit"),
  ("quit", "Quitter", "Use quit() or Ctrl-D (i.e. EOF) to exit"),
  ("help", "_Helper",
    "Type help() for interactive help, or help(object) for help about object."),
  ("license", "_Printer", "Type license() to see the full license text")]

def builtinValue? (name : Text) : Option Value :=
  match Builtin.every.find? fun b => b.name == name with
  | some b => some (.builtin b)
  | none =>
    match Kind.ofText? name, otherNames.lookup (String.ofList name) with
    | some k, _ => some (.kind k)
    | none, some (type, shown) => some (.constant type shown)
    | none, none =>
      if name = "__debug__" then some (.bool true)
      else if otherTypes.contains name then
        some (.constant "type" ("<class '" ++ name ++ "'>"))
      else if otherRoutines.contains name then
        some (.constant "builtin_function_or_method" ("<built-in function " ++ name ++ ">"))
      else none

def Value.typeName : Value → Text
  | .nothing => "NoneType"
  | .bool _ => "bool"
  | .int _ => "int"
  | .float _ | .nan _ => "float"
  | .str _ => "str"
  | .constant type _ | .stream type _ => type
  | .list _ => "list"
  | .tuple _ => "tuple"
  | .set _ => "set"
  | .dict _ => "dict"
  | .slice _ => "slice"
  | .range .. => "range"
  | .plain _ => "object"
  | .routine _ => "function"
  | .pending _ | .reading _ => "coroutine"
  | .builtin b => if b.isType then "type" else "builtin_function_or_method"
  | .method _ _ => "builtin_function_or_method"
  | .host => "_SessionIO"
  | .hostAct _ => "method"
  | .kind _ => "type"
  | .fault k _ => k.text

structure Heap where
  objects : Array Object := #[]
  /-- The number of marks in use. -/
  marks : Nat := 0
deriving Repr

namespace Heap

def cells (h : Heap) (address : Nat) : Array Value :=
  match h.objects[address]? with
  | some (.cells items) => items
  | _ => #[]

def entries (h : Heap) (address : Nat) : List (Value × Value) :=
  match h.objects[address]? with
  | some (.entries pairs) => pairs
  | _ => []

def closure? (h : Heap) (address : Nat) : Option Closure :=
  match h.objects[address]? with
  | some (.closure c) => some c
  | _ => none

/-- A value written out, with how a constant value is shown. The first
argument bounds the depth to which it is written. -/
def writeOut (h : Heap) : Nat → Value → Datum
  | _, .nothing => .nothing
  | _, .bool b => .bool b
  | _, .int n => .int n
  | _, .float x => .float x
  | _, .nan _ => .float (0.0 / 0.0)
  | _, .str t => .str t
  | depth + 1, .list address => .list ((h.cells address).toList.map (writeOut h depth))
  | depth + 1, .tuple address => .tuple ((h.cells address).toList.map (writeOut h depth))
  | depth + 1, .set address =>
    .set ((h.entries address).map fun p => writeOut h depth p.1)
  | depth + 1, .dict address =>
    .dict ((h.entries address).map fun p => (writeOut h depth p.1, writeOut h depth p.2))
  | 0, .list _ => .list []
  | _, .constant type shown => .object type shown
  | _, .range start stop step =>
    let bounds := ofInt start ++ ", " ++ ofInt stop
    let bounds := if step = 1 then bounds else bounds ++ ", " ++ ofInt step
    .object "range" ("range(" ++ bounds ++ ")")
  | _, .builtin b =>
    .object (Value.builtin b).typeName
      (if b.isType then "<class '" ++ b.name ++ "'>" else "<built-in function " ++ b.name ++ ">")
  | _, .kind k => .object "type" ("<class '" ++ k.text ++ "'>")
  | _, v => .object v.typeName ("<" ++ v.typeName ++ " object>")

/-- A value written out. What is inside itself is not written for ever:
the number of objects bounds the depth. -/
def datum (h : Heap) (v : Value) : Datum :=
  h.writeOut (h.objects.size + 1) v

end Heap

/-- An operation on values: it may make objects and may fail. -/
abbrev Eval := ExceptT Fault (StateM Heap)

namespace Eval

/-- A new object at an address of its own. -/
def alloc (o : Object) : Eval Nat :=
  modifyGet fun h => (h.objects.size, { h with objects := h.objects.push o })

def newList (items : Array Value) : Eval Value :=
  return .list (← alloc (.cells items))

def newTuple (items : List Value) : Eval Value :=
  return .tuple (← alloc (.cells items.toArray))

def newDict (entries : List (Value × Value)) : Eval Value :=
  return .dict (← alloc (.entries entries))

def change (address : Nat) (o : Object) : Eval Unit :=
  modify fun h => { h with objects := h.objects.setIfInBounds address o }

def newMark : Eval Nat :=
  modifyGet fun h => (h.marks, { h with marks := h.marks + 1 })

def ofFloat (x : Float) : Eval Value := do
  if x.isNaN then return .nan (← newMark) else return .float x

def ofExcept {α : Type} (e : Except Fault α) : Eval α :=
  fun h => (e, h)

def cells (address : Nat) : Eval (Array Value) :=
  return (← get).cells address

end Eval

mutual

/-- A datum as a value, its objects put into the heap. -/
def Datum.toValue : Datum → Eval Value
  | .nothing => return .nothing
  | .bool b => return .bool b
  | .int n => return .int n
  | .float x => Eval.ofFloat x
  | .str t => return .str t
  | .list items => do Eval.newList (← Datum.toValues items).toArray
  | .tuple items => do Eval.newTuple (← Datum.toValues items)
  | .set items => do
    let values ← Datum.toValues items
    return .set (← Eval.alloc (.entries (values.map fun v => (v, .nothing))))
  | .dict entries => do Eval.newDict (← Datum.toEntries entries)
  | .object type shown => return .constant type shown

def Datum.toValues : List Datum → Eval (List Value)
  | [] => return []
  | d :: rest => do
    let v ← d.toValue
    return v :: (← Datum.toValues rest)

def Datum.toEntries : List (Datum × Datum) → Eval (List (Value × Value))
  | [] => return []
  | (key, d) :: rest => do
    let k ← key.toValue
    let v ← d.toValue
    return (k, v) :: (← Datum.toEntries rest)

end

end Pseudocode.Run
