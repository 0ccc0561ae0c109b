import Acceptors.Graph

/-! Graphs in the DOT language. Of the layout, which graph libraries choose themselves, this is
assumed: a line for each node and then one for each edge, by number, indented by four blanks and with
the label as the only attribute, between a first line that opens the graph and a last one that closes
it; and in labels a backslash before every quote and backslash, and `\l` for a line feed. -/
namespace Acceptors

namespace Graph

/-- A character of a label. A line feed is written so that the line before it is set flush
left. -/
def escapeLabelChar (c : Char) : String :=
  if c = '\n' then "\\l"
  else if c = '"' ∨ c = '\\' then String.ofList ['\\', c]
  else c.toString

/-- A label between its quotes. -/
def escapeLabel (label : String) : String := String.join (label.toList.map escapeLabelChar)

/-- The attributes of a node or an edge, up to the end of the line. -/
def labelText (label : String) : String :=
  " [ label = \"" ++ escapeLabel label ++ "\" ]\n"

/-- The line of a node. -/
def nodeLine (number : Nat) (node : Node) : String :=
  "    " ++ toString number ++ labelText node.label

/-- The line of an edge. -/
def edgeLine (edge : Edge) : String :=
  "    " ++ toString edge.source ++ " -> " ++ toString edge.target ++ labelText edge.label

/-- The graph as a DOT text, in the layout that is assumed. -/
def dot (g : Graph) : String :=
  "digraph \x7b\n" ++
  String.join (g.nodes.mapIdx nodeLine) ++
  String.join (g.edges.map edgeLine) ++
  "\x7d\n"

end Graph

end Acceptors
