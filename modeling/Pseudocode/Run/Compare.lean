import Pseudocode.Run.Value

/-!
# Truth, equality and order of values

Booleans count as the integers zero and one. Numbers compare by value,
texts by their characters, arrays and tuples cell by cell; values of other
types are only equal to themselves. Two cells that hold the same object
count as equal without being compared.
-/

namespace Pseudocode.Run

open Text Script

inductive Numeric where
  | int (n : Int)
  | float (x : Float)

def Value.numeric? : Value → Option Numeric
  | .bool b => some (.int (if b then 1 else 0))
  | .int n => some (.int n)
  | .float x => some (.float x)
  | .nan _ => some (.float (0.0 / 0.0))
  | _ => none

/-- The integer a value counts as, when it is no double. -/
def Value.integer? : Value → Option Int
  | .bool b => some (if b then 1 else 0)
  | .int n => some n
  | _ => none

def rangeLength (start stop step : Int) : Nat :=
  if step > 0 then if start < stop then ((stop - start - 1) / step + 1).toNat else 0
  else if step < 0 then if stop < start then ((start - stop - 1) / (-step) + 1).toNat else 0
  else 0

def Heap.truth (h : Heap) : Value → Bool
  | .nothing => false
  | .bool b => b
  | .int n => n != 0
  | .float x => !(x == 0.0)
  | .str t => !t.isEmpty
  | .list address | .tuple address => !(h.cells address).isEmpty
  | .set address | .dict address => !(h.entries address).isEmpty
  | .range start stop step => rangeLength start stop step != 0
  | _ => true

/-- How two doubles compare; a NaN compares to nothing. -/
def compareFloats (x y : Float) : Option Ordering :=
  if x < y then some .lt else if x > y then some .gt else if x == y then some .eq else none

def compareNumeric : Numeric → Numeric → Option Ordering
  | .int a, .int b => some (compare a b)
  | .int a, .float y => Number.compareInt? a y
  | .float x, .int b => (Number.compareInt? b x).map Ordering.swap
  | .float x, .float y => compareFloats x y

/-- How two texts compare: by the first character that differs, and the
shorter first. -/
def compareTexts : Text → Text → Ordering
  | [], [] => .eq
  | [], _ :: _ => .lt
  | _ :: _, [] => .gt
  | a :: t, b :: u => if a = b then compareTexts t u else compare a.toNat b.toNat

def Value.same (a b : Value) : Bool :=
  a == b

/-- The cells of an array or a tuple, with what it is. -/
def Heap.row? (h : Heap) : Value → Option (Bool × List Value)
  | .list address => some (true, (h.cells address).toList)
  | .tuple address => some (false, (h.cells address).toList)
  | _ => none

/-- Two values are equal. The first argument bounds the depth. -/
def Heap.equalTo (h : Heap) : Nat → Value → Value → Bool
  | 0, a, b => a.same b
  | depth + 1, a, b =>
    let both (p : Value × Value) := p.1.same p.2 || equalTo h depth p.1 p.2
    match a.numeric?, b.numeric? with
    | some x, some y => compareNumeric x y == some .eq
    | _, _ =>
      match h.row? a, h.row? b with
      | some (kind, s), some (kind', t) =>
        kind == kind' && s.length == t.length && (s.zip t).all both
      | _, _ =>
        match a, b with
        | .dict s, .dict t =>
          let s := h.entries s
          let t := h.entries t
          s.length == t.length && s.all fun p => t.any fun q => both (p.1, q.1) && both (p.2, q.2)
        | .set s, .set t =>
          let s := h.entries s
          let t := h.entries t
          s.length == t.length && s.all fun p => t.any fun q => both (p.1, q.1)
        | a, b => a.same b

/-- A depth that no value exceeds, unless it is inside itself. -/
def Heap.depth (h : Heap) : Nat :=
  h.objects.size + 1

def Heap.equal (h : Heap) (a b : Value) : Bool :=
  h.equalTo h.depth a b

def Heap.matches (h : Heap) (a b : Value) : Bool :=
  a.same b || h.equal a b

def satisfies (op : CompareOp) : Ordering → Bool
  | .lt => op == .lt || op == .le || op == .ne
  | .eq => op == .le || op == .ge || op == .eq
  | .gt => op == .gt || op == .ge || op == .ne

/-- An order comparison of two values: arrays compare by the first cells
that differ, else by their lengths. The first argument bounds the depth
of arrays. -/
def Heap.order (h : Heap) (op : CompareOp) : Nat → Value → Value → Except Fault Bool
  | 0, a, b => .error (.notOrdered op.text a.typeName b.typeName)
  | depth + 1, a, b =>
    match a.numeric?, b.numeric? with
    | some x, some y => .ok ((compareNumeric x y).any (satisfies op))
    | _, _ =>
      match h.row? a, h.row? b, a, b with
      | some (true, s), some (true, t), _, _ | some (false, s), some (false, t), _, _ =>
        match (s.zip t).find? fun p => !h.matches p.1 p.2 with
        | some p => order h op depth p.1 p.2
        | none => .ok (satisfies op (compare s.length t.length))
      | _, _, .str t, .str u => .ok (satisfies op (compareTexts t u))
      | _, _, a, b => .error (.notOrdered op.text a.typeName b.typeName)

def isPart (part : Text) : Text → Bool
  | [] => part.isEmpty
  | c :: t => part.isPrefixOf (c :: t) || isPart part t

def Heap.contains (h : Heap) (v : Value) : Value → Except Fault Bool
  | .str t =>
    match v with
    | .str part => .ok (isPart part t)
    | v => .error (.notText v.typeName)
  | .list address | .tuple address | .stream _ address =>
    .ok ((h.cells address).any fun w => h.matches w v)
  | .set address | .dict address => .ok ((h.entries address).any fun p => h.matches p.1 v)
  | .range start stop step =>
    match v.numeric? with
    | some (.int n) =>
      .ok (decide (0 < rangeLength start stop step) &&
        (if step > 0 then start ≤ n && n < stop else stop < n && n ≤ start) &&
        (n - start) % step == 0)
    | some (.float x) =>
      .ok ((List.range (rangeLength start stop step)).any fun i =>
        Number.compareInt? (start + step * i) x == some .eq)
    | none => .ok false
  | w => .error (.notSearchable w.typeName)

def Heap.compareValues (h : Heap) (op : CompareOp) (a b : Value) : Except Fault Bool :=
  match op with
  | .eq => .ok (h.equal a b)
  | .ne => .ok (!h.equal a b)
  | .same => .ok (a.same b)
  | .notSame => .ok (!a.same b)
  | .within => h.contains a b
  | .notWithin => (h.contains a b).map not
  | op => h.order op h.depth a b

end Pseudocode.Run
