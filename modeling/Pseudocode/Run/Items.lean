import Pseudocode.Run.Arithmetic

/-!
# The parts of values

Cells of arrays and tuples and characters of texts are counted from zero;
a negative index counts from the end. A slice takes every `step`-th part
between two bounds, which may lie outside. The keys of a dictionary are
compared as cells are.
-/

namespace Pseudocode.Run

open Text Script

/-- The position that an index stands for in a sequence: negative ones
count from the end. -/
def position? (length : Nat) (index : Int) : Option Nat :=
  let i := if index < 0 then index + length else index
  if 0 ≤ i ∧ i < length then some i.toNat else none

/-- A bound of a slice, brought between two limits; `none` if it is not
given. -/
def sliceBound (length : Nat) (low high : Int) : Value → Except Fault (Option Int)
  | .nothing => .ok none
  | v =>
    match v.integer? with
    | none => .error .sliceBound
    | some i =>
      let i := if i < 0 then i + length else i
      .ok (some (max low (min high i)))

def slicePositions (length : Nat) (low high step : Value) :
    Except Fault (Int × Int × List Nat) := do
  let step ← match step with
    | .nothing => pure 1
    | v => match v.integer? with
      | none => throw .sliceBound
      | some 0 => throw .sliceStep
      | some n => pure n
  let (least, most) : Int × Int := if step < 0 then (-1, length - 1) else (0, length)
  let start := (← sliceBound length least most low).getD (if step < 0 then most else least)
  let stop := (← sliceBound length least most high).getD (if step < 0 then least else most)
  return (start, step, (List.range (rangeLength start stop step)).map fun (i : Nat) =>
    (start + step * i).toNat)

/-- The bounds and the step of a slice. -/
def Heap.sliceOf (h : Heap) (address : Nat) : Value × Value × Value :=
  let cells := h.cells address
  (cells.getD 0 .nothing, cells.getD 1 .nothing, cells.getD 2 .nothing)

def sequenceName (type : Text) : Text :=
  if type = "str" then "string" else if type = "range" then "range object" else type

def itemPosition (type : Text) (length : Nat) (index : Value) : Except Fault Nat :=
  match index.integer? with
  | none =>
    .error (if type = "str" then .textIndexType index.typeName
      else .indexType type index.typeName)
  | some i =>
    if !fitsIndex i then .error .indexSize
    else match position? length i with
      | some n => .ok n
      | none => .error (.outOfRange (sequenceName type))

/-- Values that are equal to no other and can change, so that they are no
keys. -/
def Value.isKey : Value → Bool
  | .list _ | .dict _ | .set _ | .slice _ => false
  | _ => true

def Heap.valueAt? (h : Heap) (address : Nat) (key : Value) : Option Value :=
  ((h.entries address).find? fun p => h.matches p.1 key).map Prod.snd

def Heap.shown (h : Heap) (v : Value) : Except Fault Text :=
  match (h.datum v).show? with
  | some t => .ok t
  | none => .error .tooManyDigits

def Heap.text (h : Heap) (v : Value) : Except Fault Text :=
  match (h.datum v).text? with
  | some t => .ok t
  | none => .error .tooManyDigits

def slicedItem (v : Value) (low high step : Value) : Eval Value := do
  match v with
  | .str t =>
    let chars := t.toArray
    let (_, _, positions) ← Eval.ofExcept (slicePositions chars.size low high step)
    return .str (positions.filterMap (chars[·]?))
  | .list address =>
    let cells ← Eval.cells address
    let (_, _, positions) ← Eval.ofExcept (slicePositions cells.size low high step)
    Eval.newList (positions.filterMap (cells[·]?)).toArray
  | .tuple address =>
    let cells ← Eval.cells address
    let (_, _, positions) ← Eval.ofExcept (slicePositions cells.size low high step)
    Eval.newTuple (positions.filterMap (cells[·]?))
  | .dict _ => throw (.notHashable "slice")
  | v => throw (.notSubscriptable v.typeName)

def itemOf (v index : Value) : Eval Value := do
  let h ← get
  match v, index with
  | .builtin b, _ =>
    throw (if b.isType then .other .type ("type '" ++ b.name ++ "' is not subscriptable")
      else .notSubscriptable v.typeName)
  | .kind k, _ => throw (.other .type ("type '" ++ k.text ++ "' is not subscriptable"))
  | v, .slice address =>
    let (low, high, step) := h.sliceOf address
    slicedItem v low high step
  | .list address, i | .tuple address, i =>
    let cells := h.cells address
    let n ← Eval.ofExcept (itemPosition v.typeName cells.size i)
    return cells.getD n .nothing
  | .str t, i =>
    let n ← Eval.ofExcept (itemPosition "str" t.length i)
    return .str ((t.drop n).take 1)
  | .range start stop step, i =>
    let n ← Eval.ofExcept (itemPosition "range" (rangeLength start stop step) i)
    return .int (start + step * n)
  | .dict address, key =>
    if !key.isKey then throw (.notHashable key.typeName)
    match h.valueAt? address key with
    | some w => return w
    | none =>
      let shown ← Eval.ofExcept (h.shown key)
      throw (.missingKey shown)
  | v, _ => throw (.notSubscriptable v.typeName)

def valuesOf (v : Value) : Eval (List Value) := do
  let h ← get
  match v with
  | .str t => return t.map fun c => .str [c]
  | .list address | .tuple address => return (h.cells address).toList
  | .stream _ address =>
    let cells := h.cells address
    Eval.change address (.cells #[])
    return cells.toList
  | .set address | .dict address => return (h.entries address).map Prod.fst
  | .range start stop step =>
    return (List.range (rangeLength start stop step)).map fun (i : Nat) =>
      .int (start + step * i)
  | v => throw (.notIterable v.typeName)

/-- An association list with a key's value replaced, or the key added at
the end. -/
def assign {α β : Type} (same : α → Bool) (key : α) (new : β) : List (α × β) → List (α × β)
  | [] => [(key, new)]
  | (k, v) :: rest => if same k then (k, new) :: rest else (k, v) :: assign same key new rest

def storeSlice (address : Nat) (low high step new : Value) : Eval Unit := do
  let cells ← Eval.cells address
  let (start, step, positions) ← Eval.ofExcept (slicePositions cells.size low high step)
  let items ← tryCatch (valuesOf new) fun _ =>
    throw (if step = 1 then .sliceValue else .other .type "must assign iterable to extended slice")
  if step = 1 then
    let start := start.toNat
    Eval.change address
      (.cells (cells.extract 0 start ++ items.toArray ++
        cells.extract (start + positions.length) cells.size))
  else if items.length = positions.length then
    Eval.change address
      (.cells ((positions.zip items).foldl (fun c p => c.setIfInBounds p.1 p.2) cells))
  else throw (.sliceSize items.length positions.length)

def storeItem (v index new : Value) : Eval Unit := do
  match v, index with
  | .list address, .slice slice =>
    let (low, high, step) := (← get).sliceOf slice
    storeSlice address low high step new
  | .list address, i =>
    let n ← match itemPosition "list" ((← get).cells address).size i with
      | .ok n => pure n
      | .error (.outOfRange _) => throw .listStore
      | .error fault => throw fault
    modify fun h => { h with objects := h.objects.modify address fun
      | .cells items => .cells (items.setIfInBounds n new)
      | o => o }
  | .dict address, key =>
    if !key.isKey then throw (.notHashable key.typeName)
    let h ← get
    Eval.change address (.entries (assign (h.matches · key) key new (h.entries address)))
  | v, _ => throw (.notAssignable v.typeName)

def deleteItem (v index : Value) : Eval Unit := do
  let h ← get
  match v, index with
  | .list address, .slice slice =>
    let cells := h.cells address
    let (low, high, step) := h.sliceOf slice
    let (_, _, positions) ← Eval.ofExcept (slicePositions cells.size low high step)
    let kept := (List.range cells.size).filter fun i => !positions.contains i
    Eval.change address (.cells (kept.filterMap (cells[·]?)).toArray)
  | .list address, i =>
    let cells := h.cells address
    match itemPosition "list" cells.size i with
    | .ok n => Eval.change address (.cells (cells.eraseIdxIfInBounds n))
    | .error (.outOfRange _) => throw .listStore
    | .error fault => throw fault
  | .dict address, key =>
    if (h.valueAt? address key).isSome then
      Eval.change address
        (.entries ((h.entries address).filter fun p => !h.matches p.1 key))
    else
      let shown ← Eval.ofExcept (h.shown key)
      throw (.missingKey shown)
  | v, _ => throw (.notDeletable v.typeName)

def Heap.length (h : Heap) (v : Value) : Except Fault Nat :=
  match v with
  | .str t => .ok t.length
  | .list address | .tuple address => .ok (h.cells address).size
  | .set address | .dict address => .ok (h.entries address).length
  | .range start stop step => .ok (rangeLength start stop step)
  | v => .error (.noLength v.typeName)

def newSet (items : List Value) : Eval Value := do
  match items.find? fun v => !v.isKey with
  | some v => throw (.notHashable v.typeName)
  | none =>
    let h ← get
    let entries := items.foldl (fun entries v =>
      if entries.any fun (p : Value × Value) => h.matches p.1 v then entries
      else entries ++ [(v, Value.nothing)]) []
    return .set (← Eval.alloc (.entries entries))

/-- Where the values of a loop come from. -/
inductive Source where
  | cells (address index : Nat)
  /-- Some integers at equal distances. -/
  | integers (start step : Int) (count : Nat)
  | values (rest : List Value)
deriving Repr

def sourceOf (v : Value) : Eval Source :=
  match v with
  | .list address => return .cells address 0
  | .range start stop step => return .integers start step (rangeLength start stop step)
  | v => do return .values (← valuesOf v)

def Source.next? (h : Heap) : Source → Option (Value × Source)
  | .cells address index =>
    (h.cells address)[index]?.map fun v => (v, .cells address (index + 1))
  | .integers start step (count + 1) => some (.int start, .integers (start + step) step count)
  | .integers _ _ 0 => none
  | .values (v :: rest) => some (v, .values rest)
  | .values [] => none

/-- The parts of a value that is stored into several targets, of which
the one after `front` may take all that the others leave. -/
def partsOf (v : Value) (front back : Nat) (spread : Bool) : Eval (List Value) := do
  let parts ← match v with
    | .list _ | .tuple _ | .str _ | .set _ | .dict _ | .range .. | .stream .. => valuesOf v
    | v => throw (.unpack v.typeName)
  let expected := front + back
  if parts.length < expected then throw (.tooFewParts expected parts.length spread)
  else if spread then
    let middle := (parts.drop front).take (parts.length - expected)
    let rest ← Eval.newList middle.toArray
    return parts.take front ++ [rest] ++ parts.drop (parts.length - back)
  else if parts.length > expected then throw (.tooManyParts expected)
  else return parts

end Pseudocode.Run
