import Pseudocode.Run.Arguments
import Pseudocode.Run.Machine
import Pseudocode.Run.Methods

/-!
# Calls that leave the script

What a script can call besides its own routines: the acts of its host,
the routines that every script knows and those of types. Calling a kind
of faults makes a fault, which a script can raise.
-/

namespace Pseudocode.Run

open Text Script

def HostAct.params : HostAct → List (Param Expr)
  | .write => ["self", "text"].map fun t => ⟨.plain, t.toList, none, none⟩
  | .trace => ["self", "line", "snapshot", "output"].map fun t => ⟨.plain, t.toList, none, none⟩
  | .read => ["self", "label"].map fun t => ⟨.plain, t.toList, none, none⟩

def HostAct.name : HostAct → Text
  | .write => "_SessionIO.write"
  | .trace => "_SessionIO.trace"
  | .read => "_SessionIO.read"

def act (s : Site) (h : HostAct) (a : Arguments) : Exec Value := do
  let bound ← evaluate s (bindArguments h.name h.params [("output".toList, .str [])]
    { a with byPosition := .host :: a.byPosition })
  let argument (name : Text) := (bound.lookup name).getD .nothing
  match h with
  | .write =>
    reveal (.write (argument "text"))
    return .nothing
  | .trace =>
    let snapshot ← evaluate s (valuesOf (argument "snapshot"))
    reveal (.trace (argument "line") snapshot (argument "output"))
    return .nothing
  | .read => return .reading (argument "label")

/-- A call of something that is not a routine of the script. -/
def callOther (s : Site) (callee : Value) (a : Arguments) : Exec Value := do
  match callee with
  | .hostAct h => act s h a
  | .builtin .print =>
    let texts ← a.byPosition.mapM fun v => do orFail s ((← get).heap.text v)
    let part (name usual : Text) : Text :=
      match a.byName.lookup name with
      | some (.str t) => t
      | _ => usual
    reveal (.print (join (part "sep" " ") texts ++ part "end" "\n"))
    return .nothing
  | .builtin .dict =>
    evaluate s do
      let d ← Builtin.apply .dict a.byPosition
      for (name, v) in a.byName do storeItem d (.str name) v
      return d
  | .builtin b =>
    if a.byName.isEmpty then evaluate s (b.apply a.byPosition) else fail s (.noNames b.name)
  | .method owner name =>
    if a.byName.isEmpty then evaluate s (callMethod owner name a.byPosition)
    else fail s (.noNames (owner.typeName ++ "." ++ name))
  | .kind k =>
    evaluate s do return .fault k (← Eval.alloc (.cells a.byPosition.toArray))
  | callee => fail s (.notCallable callee.typeName)

/-- How messages about the arguments of a call give what is called. -/
def Heap.calleeText (h : Heap) : Value → Text
  | .routine address =>
    "pseudoflow_program." ++ ((h.closure? address).map fun c => c.code.path).getD [] ++ "()"
  | .builtin b => b.name ++ "()"
  | .method owner name => owner.typeName ++ "." ++ name ++ "()"
  | v => ((h.datum v).show?.getD []) ++ " object"

def Heap.faultText (h : Heap) (k : Kind) (args : List Value) : Except Fault Text :=
  match args with
  | [] => .ok []
  | [v] => if k.isA .key then h.shown v else h.text v
  | args => do
    let shown ← args.mapM h.shown
    return bracketed "(" shown ")"

def Heap.raised (h : Heap) : Value → Fault
  | .kind k => .other k []
  | .fault k address =>
    match h.faultText k (h.cells address).toList with
    | .ok t => .other k t
    | .error fault => fault
  | _ => .notFault

def Stop.kind? : Stop → Option Kind
  | .failed fault _ => some fault.kind
  | .starved _ _ => some .exception
  | .outOfFuel => none

def Stop.value (stop : Stop) : Eval Value := do
  match stop with
  | .failed fault _ => return .fault fault.kind (← Eval.alloc (.cells #[.str fault.text]))
  | _ => return .fault .exception (← Eval.alloc (.cells #[]))

/-- A handler for some kinds of faults deals with a kind. The first
argument bounds the depth of tuples. -/
def Heap.handles (h : Heap) (k : Kind) : Nat → Value → Except Fault Bool
  | _, .kind wide => .ok (k.isA wide)
  | depth + 1, .tuple address =>
    (h.cells address).toList.foldlM (fun found v =>
      if found then .ok true else handles h k depth v) false
  | _, _ => .error .notKind

end Pseudocode.Run
