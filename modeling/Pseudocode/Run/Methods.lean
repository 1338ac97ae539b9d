import Pseudocode.Run.Builtins

/-!
# The routines of types

The routines that texts, arrays, tuples and dictionaries have of their
own. Those of arrays change the array they belong to.
-/

namespace Pseudocode.Run

open Text Script

/-- A letter of ASCII or Latin-1 in upper case. -/
def upperLetter (c : Char) : Text :=
  let n := c.toNat
  if c.isLower then [c.toUpper]
  else if n = 0xDF then "SS"
  else if n = 0xB5 then [Char.ofNat 0x39C]
  else if n = 0xFF then [Char.ofNat 0x178]
  else if 0xE0 ≤ n && n ≤ 0xFE && n != 0xF7 then [Char.ofNat (n - 32)]
  else [c]

/-- A letter of ASCII or Latin-1 in lower case. -/
def lowerLetter (c : Char) : Text :=
  let n := c.toNat
  if c.isUpper then [c.toLower]
  else if 0xC0 ≤ n && n ≤ 0xDE && n != 0xD7 then [Char.ofNat (n + 32)]
  else [c]

def findPart (part : Text) : Nat → Text → Option Nat
  | at_, t =>
    if part.isPrefixOf t then some at_
    else match t with
      | [] => none
      | _ :: rest => findPart part (at_ + 1) rest

/-- The pieces of a text around a part. The first argument bounds their
number. -/
def cutAround (part : Text) : Nat → Text → List Text
  | 0, t => [t]
  | fuel + 1, t =>
    match findPart part 0 t with
    | some n => t.take n :: cutAround part fuel (t.drop (n + part.length))
    | none => [t]

def wordsOf (t : Text) : List Text :=
  (cutAt isBlank t).filter (!·.isEmpty)

/-- The characters that are removed from the ends of a text. -/
def stripped (name : Text) (args : List Value) : Except Fault (Char → Bool) :=
  match args with
  | [] | [.nothing] => .ok isBlank
  | [.str t] => .ok fun c => t.contains c
  | [_] => .error (.other .type (name ++ " arg must be None or str"))
  | args => .error (.argumentCount name 0 1 args.length)

def textNeeded (v : Value) : Fault :=
  .other .type ("must be str, not " ++ v.typeName)

/-- Calls a routine of a text; `none` if there is no such call. -/
def textMethod? (t name : Text) (args : List Value) : Option (Eval Value) :=
  if name = "strip" then some do
    let p ← Eval.ofExcept (stripped name args)
    return .str (trimEnd p (trimStart p t))
  else if name = "lstrip" then some do
    return .str (trimStart (← Eval.ofExcept (stripped name args)) t)
  else if name = "rstrip" then some do
    return .str (trimEnd (← Eval.ofExcept (stripped name args)) t)
  else match String.ofList name, args with
    | "upper", [] => some (return .str (t.flatMap upperLetter))
    | "lower", [] => some (return .str (t.flatMap lowerLetter))
    | "isdigit", [] => some (return .bool (isNumeral t))
    | "isspace", [] => some (return .bool (!t.isEmpty && isBlankText t))
    | "startswith", [.str u] => some (return .bool (u.isPrefixOf t))
    | "endswith", [.str u] => some (return .bool (u.isSuffixOf t))
    | "find", [.str u] => some (return .int ((findPart u 0 t).elim (-1) Int.ofNat))
    | "index", [.str u] => some do
      match findPart u 0 t with
      | some n => return .int n
      | none => throw (.other .value "substring not found")
    | "count", [.str u] =>
      let n := if u.isEmpty then t.length + 1 else (cutAround u t.length t).length - 1
      some (return .int n)
    | "replace", [.str u, .str w] =>
      let replaced := if u.isEmpty then w ++ t.flatMap (· :: w)
        else join w (cutAround u t.length t)
      some (return .str replaced)
    | "split", [] => some do Eval.newList ((wordsOf t).map Value.str).toArray
    | "split", [.str u] => some do
      if u.isEmpty then throw (.other .value "empty separator")
      Eval.newList ((cutAround u t.length t).map Value.str).toArray
    | "join", [v] => some do
      let parts ← (← valuesOf v).mapIdxM fun i w =>
        match w with
        | .str u => pure u
        | w => throw (.other .type ("sequence item " ++ ofNat i ++
            ": expected str instance, " ++ w.typeName ++ " found"))
      return .str (join t parts)
    | "find", [v] | "index", [v] | "count", [v] | "split", [v] => some (throw (textNeeded v))
    | _, _ => none

def listMethod? (address : Nat) (name : Text) (args : List Value) : Option (Eval Value) :=
  let change (f : Array Value → Array Value) : Eval Value := do
    modify fun h => { h with objects := h.objects.modify address fun
      | .cells items => .cells (f items)
      | o => o }
    return .nothing
  let position (v : Value) : Eval (Option Nat) := do
    let h ← get
    return (h.cells address).findIdx? (h.matches · v)
  match String.ofList name, args with
  | "append", [v] => some (change (·.push v))
  | "extend", [v] => some do
    let items ← valuesOf v
    change (· ++ items.toArray)
  | "insert", [i, v] => some do
    let n ← Eval.ofExcept (onlyInteger i)
    let size := (← Eval.cells address).size
    let at_ := (max 0 (min (size : Int) (if n < 0 then n + size else n))).toNat
    change fun items => items.extract 0 at_ ++ #[v] ++ items.extract at_ items.size
  | "pop", args => some do
    let cells ← Eval.cells address
    if cells.isEmpty then throw (.other .index "pop from empty list")
    let i ← match args with
      | [] => pure (-1)
      | [i] => Eval.ofExcept (onlyInteger i)
      | args => throw (.argumentCount "pop" 0 1 args.length)
    match position? cells.size i with
    | none => throw (.other .index "pop index out of range")
    | some n =>
      let _ ← change fun items => items.eraseIdxIfInBounds n
      return cells.getD n .nothing
  | "remove", [v] => some do
    match ← position v with
    | some n => change fun items => items.eraseIdxIfInBounds n
    | none => throw (.other .value "list.remove(x): x not in list")
  | "index", [v] => some do
    match ← position v with
    | some n => return .int n
    | none =>
      let shown ← Eval.ofExcept ((← get).shown v)
      throw (.other .value (shown ++ " is not in list"))
  | "count", [v] => some do
    let h ← get
    return .int ((h.cells address).filter (h.matches · v)).size
  | "clear", [] => some (change fun _ => #[])
  | "copy", [] => some do Eval.newList (← Eval.cells address)
  | "reverse", [] => some (change (·.reverse))
  | "sort", [] => some do
    let h ← get
    let sorted ← Eval.ofExcept (h.sort (h.cells address).toList)
    change fun _ => sorted.toArray
  | _, _ => none

def dictMethod? (address : Nat) (name : Text) (args : List Value) : Option (Eval Value) :=
  match String.ofList name, args with
  | "get", [key] => some do return ((← get).valueAt? address key).getD .nothing
  | "get", [key, other] => some do return ((← get).valueAt? address key).getD other
  | "keys", [] => some do newStream "dict_keys" (((← get).entries address).map Prod.fst)
  | "values", [] => some do newStream "dict_values" (((← get).entries address).map Prod.snd)
  | "items", [] => some do
    newStream "dict_items" (← ((← get).entries address).mapM fun p => Eval.newTuple [p.1, p.2])
  | _, _ => none

def methodFault (type name : Text) (given : Nat) : Fault :=
  let full := type ++ "." ++ name
  if ["append", "extend", "remove", "count", "join"].contains (String.ofList name) then
    .oneArgument full given
  else if name = "insert" then .argumentCount name 2 2 given
  else .other .type (full ++ "() takes no arguments (" ++ ofNat given ++ " given)")

def callMethod (owner : Value) (name : Text) (args : List Value) : Eval Value :=
  let call := match owner with
    | .str t => textMethod? t name args
    | .list address => listMethod? address name args
    | .dict address => dictMethod? address name args
    | _ => none
  call.getD (throw (methodFault owner.typeName name args.length))

end Pseudocode.Run
