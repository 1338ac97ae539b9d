import Pseudocode.Program.Basic

/-!
# The variables of every scope

A scope's table lists its variables in the order in which they first
appear: the parameters, then the targets of reads (the array of a cell),
the declared names and the counters of counted loops. There is one
table for main and one for each function, in order; a function whose
name was used before gets a numbered scope name, so that tables keep
apart. The slots of a program are the names of all tables in order, and
every snapshot of a run has one entry per slot.
-/

namespace Pseudocode

/-- The variable that a statement brings into its scope. -/
def Form.variable? : Form → Option Text
  | .read _ name _ => some name
  | .declare _ name _ => some name
  | .forLoop counter _ _ => some counter
  | _ => none

structure ScopeTable where
  scope : Text
  names : List Text
deriving DecidableEq, Repr

structure Slot where
  scope : Text
  name : Text
deriving DecidableEq, Repr

namespace ScopeTable

def firsts (names : List Text) : List Text :=
  names.foldl (fun seen name => if seen.contains name then seen else seen ++ [name]) []

def namesOf (initial : List Text) (body : List Statement) : List Text :=
  firsts (initial ++ (body.filterMap fun s => s.form.variable?).filter (!·.isEmpty))

def slots (t : ScopeTable) : List Slot :=
  t.names.map fun name => ⟨t.scope, name⟩

end ScopeTable

/-- The tables of a program: main first, then each function. -/
structure Variables where
  main : ScopeTable
  functions : List ScopeTable
deriving DecidableEq, Repr

namespace Variables

/-- A scope name that is not used yet: the name itself, or the name
with the least number from `n` on that is free. At most one candidate
for each used name is taken. -/
def numbered (used : List Text) (base : Text) : Nat → Nat → Text
  | 0, n => base ++ "#" ++ Text.ofNat n
  | tries + 1, n =>
    let candidate := base ++ "#" ++ Text.ofNat n
    if used.contains candidate then numbered used base tries (n + 1) else candidate

/-- The scope name of a function after the scope names in use. -/
def freshScope (used : List Text) (base : Text) : Text :=
  if used.contains base then numbered used base used.length 2 else base

def functionTables (used : List Text) : List Function → List ScopeTable
  | [] => []
  | f :: rest =>
    let scope := freshScope used f.scopeName
    ⟨scope, ScopeTable.namesOf f.params f.body⟩ :: functionTables (scope :: used) rest

def ofProgram (p : Program) : Variables :=
  ⟨⟨Program.mainScope, ScopeTable.namesOf [] p.main⟩,
    functionTables [Program.mainScope] p.functions⟩

def tables (v : Variables) : List ScopeTable :=
  v.main :: v.functions

/-- The slots of a program, in snapshot order. -/
def slots (v : Variables) : List Slot :=
  v.tables.flatMap ScopeTable.slots

def tableFor (v : Variables) (scope : Text) : ScopeTable :=
  (v.tables.find? fun t => t.scope == scope).getD ⟨scope, []⟩

def slotIndex? (v : Variables) (scope name : Text) : Option Nat :=
  v.slots.findIdx? fun s => s.scope == scope && s.name == name

def labels (v : Variables) : List Text :=
  v.slots.map Slot.name

end Variables

end Pseudocode
