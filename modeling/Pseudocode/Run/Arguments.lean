import Pseudocode.Run.Value

/-!
# Arguments become values of parameters

A routine takes arguments by position and by name. Parameters may have
first values, may take their argument in one of the two ways only, and
one may take all arguments that are left over. Faults are found in a
fixed order: arguments by name that nothing takes, too many arguments,
and then parameters without a value.
-/

namespace Pseudocode.Run

open Text Script

structure Arguments where
  byPosition : List Value
  byName : List (Text × Value)
deriving Repr

def paramNames (params : List (Param Expr)) (kinds : List ParamKind) : List Text :=
  (params.filter fun p => kinds.contains p.kind).map Param.name

/-- Puts the arguments by name among the parameters that have a value, or
among those left over. -/
def bindNames (routine : Text) (params : List (Param Expr)) (bound : List (Text × Value)) :
    List (Text × Value) → Except Fault (List (Text × Value) × List (Text × Value))
  | [] => .ok (bound, [])
  | (name, v) :: rest => do
    if (paramNames params [.plain, .named]).contains name then
      if (bound.lookup name).isSome then throw (.repeated routine name)
      bindNames routine params (bound ++ [(name, v)]) rest
    else if params.any (·.kind == .otherNames) then
      let (bound, others) ← bindNames routine params bound rest
      return (bound, (name, v) :: others)
    else
      let fixed := paramNames params [.position]
      let passed := fixed.filter fun p => p = name || rest.any (·.1 == p)
      if fixed.contains name then throw (.positionOnly routine passed)
      else throw (.unexpected routine name)

def bindArguments (routine : Text) (params : List (Param Expr))
    (initials : List (Text × Value)) (a : Arguments) : Eval (List (Text × Value)) := do
  let places := paramNames params [.position, .plain]
  let given := a.byPosition.length
  let (bound, others) ← Eval.ofExcept
    (bindNames routine params (places.zip a.byPosition) a.byName)
  let takesOthers := params.find? (·.kind == .others)
  if given > places.length && takesOthers.isNone then
    let least := (places.filter fun p => (initials.lookup p).isNone).length
    let named := (paramNames params [.named]).filter fun p => (bound.lookup p).isSome
    throw (.tooMany routine least places.length given named.length)
  let lacks (p : Text) := (bound.lookup p).isNone && (initials.lookup p).isNone
  let missing := places.filter lacks
  if !missing.isEmpty then throw (.missing routine missing)
  let missing := (paramNames params [.named]).filter lacks
  if !missing.isEmpty then throw (.missingNamed routine missing)
  let bound := bound ++ initials.filter fun p => (bound.lookup p.1).isNone
  let bound ← match takesOthers with
    | some p => do
      pure (bound ++ [(p.name, ← Eval.newTuple (a.byPosition.drop places.length))])
    | none => pure bound
  match params.find? (·.kind == .otherNames) with
  | some p => do
    let entries := others.map fun (name, v) => (Value.str name, v)
    return bound ++ [(p.name, ← Eval.newDict entries)]
  | none => return bound

end Pseudocode.Run
