import Pseudocode.Analysis
import Pseudocode.Report.Json

/-!
# The JSON forms of findings

Diagnostics, flow charts, variables and the summary of an analysis, as
JSON values with a fixed order of fields.
-/

namespace Pseudocode

open Report

def Diagnostic.json (d : Diagnostic) : Json :=
  .object [
    ("code", .str d.code.text),
    ("message", .str d.message),
    ("severity", .str d.severity.name),
    ("span", .object [("start", .int d.span.start), ("end", .int d.span.stop)]),
    ("line", .int d.span.line),
    ("phase", .str d.code.phase.name)]

def Flow.Node.json (position : Nat) (n : Flow.Node) : Json :=
  .object [
    ("id", .str (Flow.nodeName position)),
    ("label", .str n.label),
    ("shape", .str n.outline.name)]

def Flow.Edge.json (e : Flow.Edge) : Json :=
  .object [
    ("from", .str (Flow.nodeName e.source)),
    ("to", .str (Flow.nodeName e.target)),
    ("label", Json.ofOption e.kind.label?),
    ("back_edge", .bool e.back)]

def Flow.Chart.json (g : Flow.Chart) : Json :=
  .object [
    ("nodes", .list (g.nodes.mapIdx Flow.Node.json)),
    ("edges", .list (g.edges.map Flow.Edge.json))]

def Variables.json (v : Variables) : Json :=
  .object (v.tables.map fun t => (t.scope, .list (t.names.map Json.str)))

def Analysis.summary (a : Analysis) : Json :=
  .object [
    ("program", Json.ofOption a.program.name),
    ("functions", .list (a.program.functions.map fun f => Json.str f.name)),
    ("main_statements", .int a.program.main.length),
    ("errors", .int (Diagnostic.errorCount a.diagnostics)),
    ("warnings", .int (Diagnostic.warningCount a.diagnostics)),
    ("nodes", .int a.chart.size),
    ("edges", .int a.chart.edges.length),
    ("variables", a.scopes.json)]

end Pseudocode
