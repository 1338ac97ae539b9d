import Pseudocode.Text.Basic

/-!
# File paths

Paths are resolved by their parts alone.
-/

namespace Pseudocode.Command

open Text

def pathParts (t : Text) : List Text :=
  (cutAt (· == '/') t).filter fun part => part ≠ [] && part ≠ ".".toList

/-- One step along a path; `..` goes back. -/
def enterPart (parts : List Text) (part : Text) : List Text :=
  if part = ".." then parts.dropLast else parts ++ [part]

def pathText (root : Text) (parts : List Text) : Text :=
  root ++ parts.flatMap fun part => '/' :: part

/-- The path that a path stands for in a directory. A first part `~` is
the home directory. -/
def resolvePath (directory home t : Text) : Text :=
  match t, pathParts t with
  | '/' :: _, parts => pathText [] (parts.foldl enterPart [])
  | _, ['~'] :: parts => pathText [] ((pathParts home ++ parts).foldl enterPart [])
  | _, parts =>
    match directory with
    | '/' :: _ => pathText [] ((pathParts directory ++ parts).foldl enterPart [])
    | _ => pathText directory (parts.foldl enterPart [])

def parentPath (t : Text) : Text :=
  pathText [] (pathParts t).dropLast

end Pseudocode.Command
