import DeltaSlice.SystemGraph
import DeltaSlice.Text.Quoted

/-!
Drawings of system graphs in the DOT format: one cluster per integrated graph, edge styles by kind.
Edges between clusters stand out.
-/

namespace DeltaSlice

/-- What to draw. -/
structure Drawing where
  title : String
  /-- Leave out control edges. -/
  noControl : Bool
  /-- Draw only what this node depends on. -/
  slice : Option SystemNodeId

namespace Drawing

abbrev Attributes := List (String × String)

/-- Attributes by name, each value quoted. -/
def Attributes.text (as : Attributes) : String :=
  " ".intercalate ((sortByText (·.1) as).map fun a => a.1 ++ "=" ++ Text.quoted a.2)

/-- A text between quotes of the format. -/
def escape (s : String) : String :=
  String.join (s.toList.map fun c =>
    if c = '\\' then "\\\\" else if c = '"' then "\\\"" else c.toString)

def color : NodeId → String
  | .entry _ => "lightblue"
  | .statement _ => "moccasin"
  | .input _ => "#E0FFE1"
  | .output _ => "#adedad"

def nodeAttributes (d : Drawing) (i : SystemNodeId) : Attributes :=
  [("label", i.node.text), ("fillcolor", color i.node)]
    ++ if d.slice = some i then [("penwidth", "2")] else []

def clusterAttributes (number : Int) : Attributes :=
  [("label", "transition " ++ toString number), ("style", "filled"), ("fillcolor", "lightyellow"),
   ("penwidth", "0.8")]

def kindAttributes : EdgeKind → Attributes
  | .control => [("style", "dashed"), ("color", "gray40")]
  | .data => [("color", "black")]
  | .member => [("style", "dotted"), ("arrowhead", "odot")]

def edgeAttributes (e : SystemEdge) : Attributes :=
  let style := kindAttributes e.kind
  let style := if e.source.graph = e.target.graph then style
    else [("color", "saddlebrown"), ("penwidth", "1.5")] ++ style.filter fun a => a.1 ≠ "color"
  ("tooltip", e.text) :: style

/-- The nodes to draw, in the order of the graph. -/
def nodes (d : Drawing) (g : SystemGraph) : Except Failure (List SystemNodeId) :=
  match d.slice with
  | none => .ok g.nodeIds
  | some i => (g.slice i).map fun l => g.nodeIds.filter l.contains

/-- The edges to draw between the given nodes. -/
def edges (d : Drawing) (g : SystemGraph) (shown : List SystemNodeId) : List SystemEdge :=
  g.edges.filter fun e =>
    !(d.noControl && e.kind = .control) && shown.contains e.source && shown.contains e.target

/-- The clusters with a node to draw, ascending. -/
def clusters (shown : List SystemNodeId) : List Int :=
  (shown.map (·.graph)).eraseDups.mergeSort (· ≤ ·)

def nodeLine (d : Drawing) (i : SystemNodeId) : String :=
  "\n\t\t\"" ++ escape i.text ++ "\" [" ++ Attributes.text (d.nodeAttributes i) ++ "];"

def clusterLines (d : Drawing) (shown : List SystemNodeId) (number : Int) : String :=
  "\n\tsubgraph \"cluster_" ++ toString number ++ "\" \x7b\n\t\t"
    ++ Attributes.text (clusterAttributes number)
    ++ String.join ((shown.filter (·.graph = number)).map d.nodeLine) ++ "\n\t\x7d\n"

def edgeLine (e : SystemEdge) : String :=
  "\n\t\"" ++ escape e.source.text ++ "\" -> \"" ++ escape e.target.text ++ "\" ["
    ++ Attributes.text (edgeAttributes e) ++ "];"

def header (d : Drawing) : String :=
  "digraph sdg \x7b\n\tlabel=\"" ++ escape d.title ++ "\";\n\trankdir=TB;\n"
    ++ "\tnode [shape=box style=\"filled,rounded\" fontname=\"Helvetica\" fontsize=10];\n"

/-- The drawing of a graph; a slice needs a node of the graph. -/
def render (d : Drawing) (g : SystemGraph) : Except Failure String :=
  (d.nodes g).map fun shown =>
    d.header ++ String.join ((clusters shown).map (d.clusterLines shown))
      ++ String.join ((d.edges g shown).map edgeLine) ++ "\n\x7d\n"

end Drawing

end DeltaSlice
