import Pseudocode.Flow.Label

/-!
# Flow charts

A chart is a list of nodes and a list of edges, both in the order in
which they were added. A node is known by its position; its name in text
is the position after the letter `N`. The text form has one line for
each node and one for each edge.
-/

namespace Pseudocode.Flow

inductive Outline where
  | terminal
  | decision
  | process
deriving DecidableEq, Repr

def Outline.name : Outline → Text
  | .terminal => "terminal"
  | .decision => "decision"
  | .process => "process"

structure Node where
  label : Text
  outline : Outline := .process
deriving DecidableEq, Repr

/-- When an edge is followed: always, or on one outcome of a decision. -/
inductive EdgeKind where
  | always
  | yes
  | no
deriving DecidableEq, Repr

def EdgeKind.name : EdgeKind → Text
  | .always => "fall-through"
  | .yes => "si"
  | .no => "no"

def EdgeKind.label? : EdgeKind → Option Text
  | .always => none
  | .yes => some "si"
  | .no => some "no"

structure Edge where
  source : Nat
  target : Nat
  kind : EdgeKind := .always
  /-- The edge closes a loop. -/
  back : Bool := false
deriving DecidableEq, Repr

structure Chart where
  nodes : List Node := []
  edges : List Edge := []
deriving DecidableEq, Repr

def nodeName (n : Nat) : Text :=
  "N" ++ Text.ofNat n

def Node.render (position : Nat) (n : Node) : Text :=
  let label := "\"" ++ safeLabel n.label ++ "\""
  nodeName position ++ match n.outline with
    | .decision => "\x7b" ++ label ++ "\x7d"
    | .terminal => "([" ++ label ++ "])"
    | .process => "[" ++ label ++ "]"

def Edge.render (e : Edge) : Text :=
  match e.kind.label? with
  | some label => nodeName e.source ++ " -- " ++ label ++ " --> " ++ nodeName e.target
  | none => nodeName e.source ++ " --> " ++ nodeName e.target

namespace Chart

def size (g : Chart) : Nat :=
  g.nodes.length

/-- The chart with one more node, which stands at position `g.size`. -/
def addNode (g : Chart) (n : Node) : Chart :=
  { g with nodes := g.nodes ++ [n] }

def addEdge (g : Chart) (e : Edge) : Chart :=
  { g with edges := g.edges ++ [e] }

def find? (g : Chart) (name : Text) : Option Nat :=
  (List.range g.size).find? fun n => nodeName n == name

def outEdges (g : Chart) (n : Nat) : List Edge :=
  g.edges.filter fun e => e.source == n

def successors (g : Chart) (n : Nat) : List Nat :=
  (g.outEdges n).map Edge.target

def backEdges (g : Chart) : List Edge :=
  g.edges.filter Edge.back

def decisions (g : Chart) : List Nat :=
  (List.range g.size).filter fun n => (g.nodes[n]?.map Node.outline) == some .decision

/-- What is left of `unseen` after the nodes of `todo` and all that can
be reached from them through unseen nodes have been taken out. -/
def explore (g : Chart) (unseen todo : List Nat) : List Nat :=
  match todo with
  | [] => unseen
  | n :: rest =>
    if n ∈ unseen then explore g (unseen.erase n) (g.successors n ++ rest)
    else explore g unseen rest
termination_by (unseen.length, todo.length)
decreasing_by
  · next h =>
    apply Prod.Lex.left
    have := List.length_erase_of_mem h
    have := List.length_pos_of_mem h
    omega
  · apply Prod.Lex.right
    simp

/-- The positions of the nodes that cannot be reached from one. -/
def unreachable (g : Chart) (start : Nat) : List Nat :=
  g.explore (List.range g.size) [start]

/-- The positions of the nodes that can be reached from one, itself
included, in increasing order. -/
def reachable (g : Chart) (start : Nat) : List Nat :=
  let unseen := g.unreachable start
  (List.range g.size).filter fun n => !unseen.contains n

def lines (g : Chart) : List Text :=
  "flowchart TD" :: (g.nodes.mapIdx Node.render ++ g.edges.map Edge.render)

def render (g : Chart) : Text :=
  Text.join "\n" g.lines

def summary (g : Chart) : Text :=
  "FlowGraph(nodes=" ++ Text.ofNat g.size ++ ", edges=" ++ Text.ofNat g.edges.length ++ ")"

end Chart

end Pseudocode.Flow
