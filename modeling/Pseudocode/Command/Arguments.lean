import Pseudocode.Text.Digits
import Pseudocode.Text.Quoted

/-!
# Reading a list of arguments

Arguments are options, values of options and one positional argument. A
long option may be shortened as long as it stays unique, and may have its
value after `=`; a short one may have its value attached, and short
options without values may share one dash. After the marker `--` there
are no more options. What nobody can use is left over, and is no fault
at this level: the caller may know better.

Options are acted on in the order in which they stand, so of two faults
the first one is reported.
-/

namespace Pseudocode.Command

open Text

/-- An option: what it stands for, its names, and whether it takes a
value. -/
structure OptionSpec (κ : Type) where
  key : κ
  names : List Text
  hasValue : Bool
deriving Repr

def OptionSpec.title {κ : Type} (o : OptionSpec κ) : Text :=
  join "/" o.names

inductive Misuse where
  | ambiguous (argument : Text) (names : List Text)
  | expectedValue (option : Text)
  | ignoredValue (option value : Text)
  | badInteger (option value : Text)
  | badChoice (argument value : Text) (choices : List Text)
  | required (argument : Text)
  | unrecognized (arguments : List Text)
deriving DecidableEq, Repr

def Misuse.message : Misuse → Text
  | .ambiguous argument names =>
    "ambiguous option: " ++ argument ++ " could match " ++ join ", " names
  | .expectedValue option => "argument " ++ option ++ ": expected one argument"
  | .ignoredValue option value =>
    "argument " ++ option ++ ": ignored explicit argument " ++ quoted value
  | .badInteger option value =>
    "argument " ++ option ++ ": invalid int value: " ++ quoted value
  | .badChoice argument value choices =>
    "argument " ++ argument ++ ": invalid choice: " ++ quoted value ++ " (choose from " ++
      join ", " (choices.map quoted) ++ ")"
  | .required argument => "the following arguments are required: " ++ argument
  | .unrecognized arguments => "unrecognized arguments: " ++ join " " arguments

inductive Halt where
  | help
  | version
  | misuse (command : Text) (m : Misuse)
deriving DecidableEq, Repr

/-- A value that stands in the same argument as its option. -/
structure Attached where
  /-- It stands after `=`. -/
  equals : Bool
  value : Text
deriving DecidableEq, Repr

inductive Piece (κ : Type) where
  | plain (t : Text)
  | marker
  | known (spec : OptionSpec κ) (name : Text) (attached : Option Attached)
  | unknown (t : Text)
deriving Repr

def splitEquals : Text → Text × Option Text
  | [] => ([], none)
  | c :: t =>
    if c = '=' then ([], some t)
    else
      let (front, value) := splitEquals t
      (c :: front, value)

/-- A minus sign and a decimal number. A line end may follow. -/
def isNegativeNumber (t : Text) : Bool :=
  match t with
  | '-' :: t =>
    let t := if t.getLast? = some '\n' then t.dropLast else t
    let rest := t.dropWhile isDigit
    match rest with
    | [] => !t.isEmpty
    | '.' :: fraction => !fraction.isEmpty && fraction.all isDigit
    | _ => false
  | _ => false

variable {κ : Type}

def named (options : List (OptionSpec κ)) (name : Text) : Option (OptionSpec κ) :=
  options.find? fun o => o.names.contains name

/-- The options that an argument can stand for when its name is not
written out. -/
def guesses (options : List (OptionSpec κ)) (t : Text) : List (Piece κ) :=
  if "--".toList.isPrefixOf t then
    let (front, value) := splitEquals t
    options.flatMap fun o => (o.names.filter front.isPrefixOf).map fun name =>
      .known o name (value.map (⟨true, ·⟩))
  else
    match named options (t.take 2) with
    | some o => [.known o (t.take 2) (some ⟨false, t.drop 2⟩)]
    | none => []

/-- The name of an option that was recognised. -/
def Piece.name : Piece κ → Text
  | .known _ name _ => name
  | .plain t | .unknown t => t
  | .marker => "--"

/-- How an argument before the marker is understood. -/
def Piece.ofText (options : List (OptionSpec κ)) (t : Text) : Except Misuse (Piece κ) :=
  if t.head? ≠ some '-' then .ok (.plain t)
  else match named options t with
    | some o => .ok (.known o t none)
    | none =>
      if t.length = 1 then .ok (.plain t)
      else match splitEquals t with
        | (front, some value) =>
          match named options front with
          | some o => .ok (.known o front (some ⟨true, value⟩))
          | none => guess t
        | _ => guess t
where
  /-- The one option that the argument can stand for. -/
  guess (t : Text) : Except Misuse (Piece κ) :=
    match guesses options t with
    | [piece] => .ok piece
    | [] => .ok (if isNegativeNumber t || t.contains ' ' then .plain t else .unknown t)
    | pieces => .error (.ambiguous t (pieces.map Piece.name))

def pieces (options : List (OptionSpec κ)) : List Text → Except Misuse (List (Piece κ))
  | [] => .ok []
  | t :: rest =>
    if t = "--" then .ok (.marker :: rest.map .plain)
    else do
      let piece ← Piece.ofText options t
      return piece :: (← pieces options rest)

structure Uses (κ : Type) where
  taken : List (κ × Option Text) := []
  /-- An option that needs the next argument as its value. -/
  awaiting : Option (OptionSpec κ) := none
  leftOver : List Text := []
deriving Repr

/-- The options that one argument uses: a short option without a value
may be followed by others. The first argument bounds their number. -/
def uses (options : List (OptionSpec κ)) :
    Nat → OptionSpec κ → Text → Option Attached → Except Misuse (Uses κ)
  | _, o, _, none =>
    .ok (if o.hasValue then { awaiting := some o } else { taken := [(o.key, none)] })
  | fuel, o, name, some a =>
    if o.hasValue then .ok { taken := [(o.key, some a.value)] }
    else match fuel, a.value with
      | fuel + 1, c :: rest =>
        if "--".toList.isPrefixOf name || a.equals || c = '-' then
          .error (.ignoredValue o.title a.value)
        else match named options ['-', c] with
          | none => .ok { taken := [(o.key, none)], leftOver := ['-' :: c :: rest] }
          | some next => do
            let attached : Option Attached := match rest with
              | [] => none
              | '=' :: value => some ⟨true, value⟩
              | value => some ⟨false, value⟩
            let more ← uses options fuel next ['-', c] attached
            return { more with taken := (o.key, none) :: more.taken }
      | _, _ => .error (.ignoredValue o.title a.value)

inductive Placing where
  | single
  /-- An argument and all that follow it. -/
  | gathering
deriving DecidableEq, Repr

structure Reader (κ σ : Type) where
  options : List (OptionSpec κ)
  placing : Placing
  take : σ → κ → Option Text → Except Halt σ
  /-- Acts on the positional argument, or all that was gathered. -/
  place : σ → List Text → Except Halt σ

structure Reading (κ σ : Type) where
  state : σ
  placed : Bool := false
  held : Bool := false
  /-- The argument just read was the positional one. -/
  adjacent : Bool := false
  /-- An option that needs a value, with the options used before it. -/
  awaiting : Option (List (κ × Option Text) × OptionSpec κ) := none
  /-- What nobody can use. -/
  leftOver : List Text := []

variable {σ : Type}

def Reader.takeAll (r : Reader κ σ) (s : σ) (taken : List (κ × Option Text)) : Except Halt σ :=
  taken.foldlM (fun s use => r.take s use.1 use.2) s

/-- Reads one argument. `command` is the name in messages. -/
def Reader.read (r : Reader κ σ) (command : Text) (st : Reading κ σ) (piece : Piece κ) :
    Except Halt (Reading κ σ) :=
  match st.awaiting, piece with
  | some (taken, o), .plain t => do
    let s ← r.takeAll st.state (taken ++ [(o.key, some t)])
    return { st with state := s, awaiting := none, adjacent := false }
  | some (_, o), _ => .error (.misuse command (.expectedValue o.title))
  | none, .plain t =>
    if st.placed then
      .ok { st with leftOver := st.leftOver ++ [t], adjacent := false }
    else do
      let s ← r.place st.state [t]
      return { st with state := s, placed := true, held := false, adjacent := true }
  | none, .marker =>
    if st.adjacent then .ok { st with adjacent := false }
    else if st.placed then .ok { st with leftOver := st.leftOver ++ ["--".toList] }
    else .ok { st with held := true }
  | none, .unknown t => .ok { st with leftOver := st.leftOver ++ [t], adjacent := false }
  | none, .known o name attached =>
    match uses r.options (attached.elim 0 fun a => a.value.length) o name attached with
    | .error m => .error (.misuse command m)
    | .ok u =>
      match u.awaiting with
      | some o => .ok { st with awaiting := some (u.taken, o), adjacent := false }
      | none => do
        let s ← r.takeAll st.state u.taken
        return { st with
          state := s
          leftOver := st.leftOver ++ u.leftOver
          adjacent := false }

/-- The text of an argument, as far as it is needed again. -/
def gathers (r : Reader κ σ) (st : Reading κ σ) : Piece κ → Bool
  | .plain _ => r.placing = .gathering && st.awaiting.isNone && !st.placed
  | _ => false

def Reader.readAll (r : Reader κ σ) (command : Text) (st : Reading κ σ) :
    List (Piece κ × Text) → Except Halt (Reading κ σ)
  | [] =>
    match st.awaiting with
    | some (_, o) => .error (.misuse command (.expectedValue o.title))
    | none => .ok (if st.held then { st with leftOver := st.leftOver ++ ["--".toList] } else st)
  | (piece, t) :: rest =>
    if gathers r st piece then do
      let marker := if st.held then ["--".toList] else []
      let s ← r.place st.state (marker ++ t :: rest.map Prod.snd)
      return { st with state := s, placed := true, held := false }
    else do
      let st ← r.read command st piece
      r.readAll command st rest

def Reader.run (r : Reader κ σ) (command : Text) (s : σ) (arguments : List Text) :
    Except Halt (Reading κ σ) := do
  let ps ← (pieces r.options arguments).mapError (.misuse command)
  r.readAll command { state := s } (ps.zip arguments)

end Pseudocode.Command
