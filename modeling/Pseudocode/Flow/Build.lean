import Pseudocode.Flow.Chart
import Pseudocode.Statement.Basic

/-!
# The chart of a body

One pass over the statements adds nodes and edges and keeps the
constructs that are open.

* `mientras` and `para` add a decision and the node after the loop. The
  first node of the body hangs off the decision by a `si` edge; the
  closing statement adds the edge back and the `no` edge out.
* `repetir` adds only the node after the loop; its decision comes with
  `hasta(…)`, with a `no` edge back to the first node of the body and a
  `si` edge out.
* `si` adds a decision and the node that joins its branches; an empty
  branch goes straight from the decision to the join.
* Constructs still open at the end are closed there.
-/

namespace Pseudocode.Flow

inductive Loop where
  | whileLoop
  | forLoop
  | repeatLoop
deriving DecidableEq, Repr

def Loop.afterLabel : Loop → Text
  | .whileLoop => "Fin mientras"
  | .forLoop => "Fin para"
  | .repeatLoop => "Fin repetir"

/-- A construct that is open while the chart is built. Nodes are given
by their positions. -/
inductive Open where
  /-- An open `si`. While `awaiting`, the next node is the first of the
  current branch. The last nodes of the branches are kept for the join. -/
  | branch (decision join : Nat) (inElse awaiting : Bool) (thenLast elseLast : Option Nat)
  /-- An open `mientras` or `para`; `counted` tells them apart. -/
  | pretest (counted : Bool) (decision after : Nat) (awaiting : Bool)
  /-- An open `repetir` with the first node of its body, once there is
  one. -/
  | posttest (after : Nat) (entry : Option Nat)
deriving DecidableEq, Repr

namespace Open

def isBranch : Open → Bool
  | .branch .. => true
  | _ => false

def isLoop (loop : Loop) : Open → Bool
  | .pretest counted .. => loop == if counted then .forLoop else .whileLoop
  | .posttest .. => loop == .repeatLoop
  | .branch .. => false

/-- The node and kind of the edge to the first node of a fresh branch or
loop body. -/
def pending? : Open → Option (Nat × EdgeKind)
  | .branch decision _ inElse true _ _ => some (decision, if inElse then .no else .yes)
  | .pretest _ decision _ true => some (decision, .yes)
  | _ => none

/-- The construct once its branch or body has a first node. -/
def served : Open → Open
  | .branch decision join inElse _ thenLast elseLast =>
    .branch decision join inElse false thenLast elseLast
  | .pretest counted decision after _ => .pretest counted decision after false
  | c => c

/-- A `repetir` without a first node takes this one. -/
def enter (node : Nat) : Open → Open
  | .posttest after none => .posttest after (some node)
  | c => c

/-- A `si` whose current branch ends, for now, with this node. -/
def record (node : Nat) : Open → Open
  | .branch decision join false awaiting _ elseLast =>
    .branch decision join false awaiting (some node) elseLast
  | .branch decision join true awaiting thenLast _ =>
    .branch decision join true awaiting thenLast (some node)
  | c => c

/-- The innermost construct that awaits a node, and the constructs after
it has got one. -/
def serve? : List Open → Option ((Nat × EdgeKind) × List Open)
  | [] => none
  | c :: outer =>
    match c.pending? with
    | some source => some (source, c.served :: outer)
    | none => (serve? outer).map fun (source, outer) => (source, c :: outer)

end Open

def statementLabel (s : Statement) : Text :=
  match s.form with
  | .read target _ _ => "Leer " ++ target
  | .write arguments => "Escribir " ++ arguments
  | .returnScope => "Volver"
  | .call _ => "Llamar " ++ s.text
  | _ => s.text

def whileLabel (condition : Text) : Text :=
  "Mientras (" ++ condition ++ ")"

def forLabel (counter start stop : Text) : Text :=
  "Para " ++ counter ++ " desde " ++ start ++ " hasta " ++ stop

def untilLabel (condition : Text) : Text :=
  "Hasta (" ++ condition ++ ")"

def ifLabel (condition : Text) : Text :=
  "Si " ++ condition

structure Builder where
  chart : Chart
  /-- The open constructs, innermost first. -/
  contexts : List Open := []
  /-- The node that the next one follows. -/
  current : Nat := 0
  /-- The lines of closing statements without an open loop. -/
  ignored : List Nat := []
deriving DecidableEq, Repr

namespace Builder

def start : Builder :=
  { chart := { nodes := [⟨"Inicio", .terminal⟩] } }

/-- One more node, not connected yet. -/
def node (b : Builder) (label : Text) (outline : Outline) : Builder :=
  { b with chart := b.chart.addNode ⟨label, outline⟩ }

def edge (b : Builder) (source target : Nat) (kind : EdgeKind := .always) (back : Bool := false) :
    Builder :=
  { b with chart := b.chart.addEdge ⟨source, target, kind, back⟩ }

/-- Makes a node the current one, and the end of the current branch when
the innermost construct is a `si`. -/
def settle (b : Builder) (node : Nat) : Builder :=
  { b with
    current := node
    contexts := match b.contexts with
      | [] => []
      | c :: outer => c.record node :: outer }

/-- Connects a node to what comes before it: to the decision of the
innermost construct that awaits a first node, else to the current
node. -/
def connect (b : Builder) (node : Nat) : Builder :=
  let b := match Open.serve? b.contexts with
    | some ((source, kind), contexts) => { b.edge source node kind with contexts := contexts }
    | none => b.edge b.current node
  { b with contexts := b.contexts.map (Open.enter node) }.settle node

def openPretest (b : Builder) (loop : Loop) (label : Text) : Builder :=
  let decision := b.chart.size
  let b := ((b.node label .decision).node loop.afterLabel .terminal).connect decision
  { b with
    contexts := .pretest (loop == .forLoop) decision (decision + 1) true :: b.contexts
    current := decision }

def openPosttest (b : Builder) : Builder :=
  let after := b.chart.size
  let b := b.node Loop.repeatLoop.afterLabel .terminal
  { b with contexts := .posttest after none :: b.contexts }

def openBranch (b : Builder) (label : Text) : Builder :=
  let decision := b.chart.size
  let b := ((b.node label .decision).node "Fin si" .terminal).connect decision
  { b with
    contexts := .branch decision (decision + 1) false true none none :: b.contexts
    current := decision }

/-- Joins the branches of a `si` that was taken off the contexts. -/
def joinBranch (b : Builder) (decision join : Nat) (thenLast elseLast : Option Nat) : Builder :=
  let b := match thenLast with
    | some last => b.edge last join
    | none => b.edge decision join .yes
  let b := match elseLast with
    | some last => b.edge last join
    | none => b.edge decision join .no
  b.settle join

/-- Ends a loop that tests before its body and was taken off the
contexts. -/
def endPretest (b : Builder) (decision after : Nat) (awaiting : Bool) : Builder :=
  let b := if awaiting then b.edge decision decision .yes true
    else b.edge b.current decision .always true
  (b.edge decision after .no).settle after

def closeInnermost (b : Builder) : Builder :=
  match b.contexts with
  | [] => b
  | c :: outer =>
    let b := { b with contexts := outer }
    match c with
    | .branch decision join _ _ thenLast elseLast => b.joinBranch decision join thenLast elseLast
    | .pretest _ decision after awaiting => b.endPretest decision after awaiting
    | .posttest after _ => (b.edge b.current after).settle after

def closeMany (b : Builder) : Nat → Builder
  | 0 => b
  | n + 1 => b.closeInnermost.closeMany n

/-- Ends the innermost construct, a `repetir`, with its test. -/
def closePosttest (b : Builder) (label : Text) : Builder :=
  let decision := b.chart.size
  let b := (b.node label .decision).connect decision
  match b.contexts with
  | .posttest after entry :: outer =>
    let b := { b with contexts := outer }
    ((b.edge decision (entry.getD decision) .no true).edge decision after .yes).settle after
  | _ => b

/-- Closes the innermost loop of a sort, with all constructs inside it;
a closing statement without such a loop is only noted. -/
def closeLoop (b : Builder) (loop : Loop) (close : Builder → Builder) (line : Nat) : Builder :=
  match b.contexts.findIdx? (Open.isLoop loop) with
  | some inside => close (b.closeMany inside)
  | none => { b with ignored := b.ignored ++ [line] }

/-- Starts the second branch of the innermost construct, a `si`. -/
def startElse (b : Builder) : Builder :=
  match b.contexts with
  | .branch decision join _ _ thenLast elseLast :: outer =>
    { b with
      contexts := .branch decision join true true thenLast elseLast :: outer
      current := decision }
  | _ => b

/-- Applies `close` to the innermost `si`, after closing the constructs
inside it. -/
def withBranch (b : Builder) (close : Builder → Builder) : Builder :=
  match b.contexts.findIdx? Open.isBranch with
  | some inside => close (b.closeMany inside)
  | none => b

def visit (b : Builder) (s : Statement) : Builder :=
  match s.form with
  | .comment _ | .thenBranch => b
  | .whileLoop condition => b.openPretest .whileLoop (whileLabel condition)
  | .forLoop counter start stop => b.openPretest .forLoop (forLabel counter start stop)
  | .repeatLoop => b.openPosttest
  | .endWhile => b.closeLoop .whileLoop closeInnermost s.line
  | .endFor => b.closeLoop .forLoop closeInnermost s.line
  | .untilTest condition => b.closeLoop .repeatLoop (closePosttest · (untilLabel condition)) s.line
  | .ifTest condition => b.openBranch (ifLabel condition)
  | .elseBranch => b.withBranch startElse
  | .endIf => b.withBranch closeInnermost
  | _ =>
    let node := b.chart.size
    (b.node (statementLabel s) .process).connect node

def finish (b : Builder) : Builder :=
  let b := b.closeMany b.contexts.length
  let last := b.chart.size
  (b.node "Fin" .terminal).edge b.current last

def ofBody (body : List Statement) : Builder :=
  (body.foldl visit start).finish

end Builder

/-- The chart of a body. Its first node is the start, its last one the
end. -/
def Chart.ofBody (body : List Statement) : Chart :=
  (Builder.ofBody body).chart

/-- The lines of a body that close a loop where none is open. -/
def Chart.ignoredLines (body : List Statement) : List Nat :=
  (Builder.ofBody body).ignored

end Pseudocode.Flow
