import Pseudocode.Run.Items

/-!
# What values are asked for by name

The values of a type share its routines, which nobody can change. A
routine of the script can be given attributes of its own. The host has
the three acts that a script can ask of it.
-/

namespace Pseudocode.Run

open Text Script

def methodNames (type : Text) : List Text :=
  List.map String.toList
    (if type = "str" then
      ["capitalize", "casefold", "center", "count", "encode", "endswith", "expandtabs", "find",
        "format", "format_map", "index", "isalnum", "isalpha", "isascii", "isdecimal", "isdigit",
        "isidentifier", "islower", "isnumeric", "isprintable", "isspace", "istitle", "isupper",
        "join", "ljust", "lower", "lstrip", "partition", "removeprefix",
        "removesuffix", "replace", "rfind", "rindex", "rjust", "rpartition", "rsplit", "rstrip",
        "split", "splitlines", "startswith", "strip", "swapcase", "title", "upper",
        "zfill"]
    else if type = "list" then
      ["append", "clear", "copy", "count", "extend", "index", "insert", "pop", "remove",
        "reverse", "sort"]
    else if type = "tuple" then ["count", "index"]
    else if type = "dict" then
      ["clear", "copy", "fromkeys", "get", "items", "keys", "pop", "popitem", "setdefault",
        "update", "values"]
    else if type = "set" then
      ["add", "clear", "copy", "difference", "discard", "intersection", "isdisjoint",
        "issubset", "issuperset", "pop", "remove", "union", "update"]
    else if type = "int" ∨ type = "bool" then
      ["as_integer_ratio", "bit_count", "bit_length", "conjugate", "to_bytes"]
    else if type = "float" then ["as_integer_ratio", "conjugate", "hex", "is_integer"]
    else if type = "range" then ["count", "index"]
    else [])

def Value.typeShown? : Value → Option Text
  | .builtin b => if b.isType then some b.name else none
  | .kind k => some k.text
  | .constant type shown =>
    if type = "type" then some ((shown.drop 8).dropLast.dropLast) else none
  | _ => none

def HostAct.ofName? (name : Text) : Option HostAct :=
  if name = "write" then some .write
  else if name = "trace" then some .trace
  else if name = "read" then some .read
  else none

def Value.part? (v : Value) (name : Text) : Option Value :=
  match v, v.numeric?, String.ofList name with
  | .range start _ _, _, "start" => some (.int start)
  | .range _ stop _, _, "stop" => some (.int stop)
  | .range _ _ step, _, "step" => some (.int step)
  | _, some (.int n), "real" | _, some (.int n), "numerator" => some (.int n)
  | _, some (.int _), "imag" => some (.int 0)
  | _, some (.int _), "denominator" => some (.int 1)
  | _, some (.float _), "real" => some v
  | _, some (.float _), "imag" => some (.float 0.0)
  | _, _, _ => none

def Heap.attribute? (h : Heap) (v : Value) (name : Text) : Option Value :=
  match v with
  | .host => (HostAct.ofName? name).map .hostAct
  | .routine address => do
    let c ← h.closure? address
    if name = "__name__" then some (.str c.code.name)
    else if name = "__qualname__" then some (.str c.code.path)
    else c.attributes.lookup name
  | .fault _ address => if name = "args" then some (.tuple address) else none
  | v =>
    if (methodNames v.typeName).contains name then some (.method v name) else v.part? name

def attributeOf (v : Value) (name : Text) : Eval Value := do
  match (← get).attribute? v name, v.typeShown? with
  | some w, _ => return w
  | none, some type =>
    throw (.other .attribute ("type object '" ++ type ++ "' has no attribute '" ++ name ++ "'"))
  | none, none => throw (.noAttribute v.typeName name)

def attributeFault (v : Value) (name : Text) : Fault :=
  match v.typeShown? with
  | some type =>
    .other .type ("cannot set '" ++ name ++ "' attribute of immutable type '" ++ type ++ "'")
  | none =>
    if (methodNames v.typeName).contains name then .fixedAttribute v.typeName name
    else if (v.part? name).isNone then .noAttribute v.typeName name
    else if v.typeName = "range" then .other .attribute "readonly attribute"
    else
      let owner : Text := if v.typeName = "bool" then "int" else v.typeName
      .other .attribute ("attribute '" ++ name ++ "' of '" ++ owner ++ "' objects is not writable")

def changeAttributes (address : Nat) (f : List (Text × Value) → List (Text × Value)) :
    Eval Unit := do
  match (← get).closure? address with
  | some c => Eval.change address (.closure { c with attributes := f c.attributes })
  | none => return

def storeAttribute (v : Value) (name : Text) (new : Value) : Eval Unit := do
  match v with
  | .routine address => changeAttributes address (assign (· == name) name new)
  | v => throw (attributeFault v name)

def deleteAttribute (v : Value) (name : Text) : Eval Unit := do
  match v with
  | .routine address =>
    if ((← get).closure? address).any fun c => (c.attributes.lookup name).isSome then
      changeAttributes address (List.filter fun p => p.1 != name)
    else throw (.noAttribute v.typeName name)
  | v => throw (attributeFault v name)

end Pseudocode.Run
