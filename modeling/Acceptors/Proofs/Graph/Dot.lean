import Acceptors.Automaton
import Acceptors.Graph.Dot
import Acceptors.Proofs.Graph
import Acceptors.Proofs.Numbering

/-! Reading DOT texts. A label ends at the first quote without a backslash before it, and a line at
the line feed. Escaping leaves no such quote and no line feed in a label, so the labels of all nodes
and the symbols of all edges can be read back, whatever characters names and alphabets have. -/
namespace Acceptors

namespace Graph

variable {g : Graph} {label : String}

/-! Reading labels. -/

/-- What a backslash and this character stand for. -/
def unescaped (c : Char) : Char := if c = 'l' then '\n' else c

/-- Read a label up to the quote that ends it. What stands behind the quote is left over. -/
def readLabel : List Char → Option (List Char × List Char)
  | [] => none
  | '"' :: rest => some ([], rest)
  | '\\' :: c :: rest => (readLabel rest).map fun read => (unescaped c :: read.1, read.2)
  | c :: rest => (readLabel rest).map fun read => (c :: read.1, read.2)

/-- Reading undoes the escape of a character, and goes on behind it. -/
theorem readLabel_escapeLabelChar (c : Char) (rest : List Char) :
    readLabel ((escapeLabelChar c).toList ++ rest) =
      (readLabel rest).map fun read => (c :: read.1, read.2) := by
  rw [escapeLabelChar]
  split_ifs with hLine hEscape
  · rw [hLine]
    exact readLabel.eq_3 'l' rest
  · rw [String.toList_ofList]
    rcases hEscape with rfl | rfl
    · exact readLabel.eq_3 '"' rest
    · exact readLabel.eq_3 '\\' rest
  · rw [not_or] at hEscape
    rw [Char.toString, String.toList_singleton, List.singleton_append]
    exact readLabel.eq_4 c rest hEscape.1 fun _ _ hBackslash _ => hEscape.2 hBackslash

/-- A label is read to its end and no further, whatever follows. -/
theorem readLabel_escapeLabel (label : String) (rest : List Char) :
    readLabel ((escapeLabel label).toList ++ '"' :: rest) = some (label.toList, rest) := by
  rw [escapeLabel, String.toList_join, List.flatMap_map]
  induction label.toList with
  | nil => rfl
  | cons c chars ih =>
      rw [List.flatMap_cons, List.append_assoc, readLabel_escapeLabelChar, ih]
      rfl

/-- A label stays in one line. -/
theorem newline_not_mem_escapeLabel : '\n' ∉ (escapeLabel label).toList := by
  rw [escapeLabel, String.toList_join, List.flatMap_map, List.mem_flatMap]
  rintro ⟨c, _, hLine⟩
  rw [escapeLabelChar] at hLine
  split_ifs at hLine with hNewline hEscape
  · exact absurd hLine (by decide)
  · rw [String.toList_ofList] at hLine
    rcases hEscape with rfl | rfl <;> exact absurd hLine (by decide)
  · rw [Char.toString, String.toList_singleton, List.mem_singleton] at hLine
    exact hNewline hLine.symm

/-- The symbols in the label of an edge: every second character, as a comma may be a symbol. -/
def symbolsIn : List Char → List Char
  | c :: _ :: rest => c :: symbolsIn rest
  | short => short

/-- Symbols and commas take turns, so that commas among the symbols are no harm. -/
theorem symbolsIn_label (edge : Edge) : symbolsIn edge.label.toList = edge.symbols := by
  have hSymbol : String.toList ∘ Char.toString = fun a => [a] := by
    funext a
    exact String.toList_singleton a
  rw [Edge.label, String.toList_intercalate, List.map_map, hSymbol]
  induction edge.symbols with
  | nil => rfl
  | cons a symbols ih =>
      cases symbols with
      | nil => rfl
      | cons b symbols =>
          rw [List.map_cons, List.map_cons, List.intercalate_cons_cons]
          exact congrArg (a :: ·) ih

/-! Lines of a text. -/

def indent : List Char := [' ', ' ', ' ', ' ']

def arrow : List Char := [' ', '-', '>', ' ']

def opening : List Char := [' ', '[', ' ', 'l', 'a', 'b', 'e', 'l', ' ', '=', ' ', '"']

def closing : List Char := [' ', ']']

def attributeChars (label : String) : List Char :=
  opening ++ (escapeLabel label).toList ++ '"' :: closing

def nodeChars (number : Nat) (node : Node) : List Char :=
  indent ++ (toString number).toList ++ attributeChars node.label

def edgeChars (edge : Edge) : List Char :=
  indent ++ (toString edge.source).toList ++ arrow ++ (toString edge.target).toList ++
    attributeChars edge.label

/-- The lines of the text of a graph, without the line feeds. -/
def lines (g : Graph) : List (List Char) :=
  "digraph \x7b".toList :: (g.nodes.mapIdx nodeChars ++ g.edges.map edgeChars ++ ["\x7d".toList])

theorem toList_labelText (label : String) :
    (labelText label).toList = attributeChars label ++ ['\n'] := by
  simp [labelText, attributeChars, opening, closing]

theorem toList_nodeLine (number : Nat) (node : Node) :
    (nodeLine number node).toList = nodeChars number node ++ ['\n'] := by
  simp [nodeLine, nodeChars, toList_labelText, indent]

theorem toList_edgeLine (edge : Edge) : (edgeLine edge).toList = edgeChars edge ++ ['\n'] := by
  simp [edgeLine, edgeChars, toList_labelText, indent, arrow]

/-- The text of a graph consists of its lines, each with a line feed behind it. -/
theorem toList_dot (g : Graph) : g.dot.toList = g.lines.flatMap fun line => line ++ ['\n'] := by
  have hNodes : (g.nodes.mapIdx nodeLine).flatMap String.toList =
      (g.nodes.mapIdx nodeChars).flatMap fun line => line ++ ['\n'] := by
    simp only [List.mapIdx_eq_zipIdx_map, List.flatMap_map, toList_nodeLine]
  have hEdges : (g.edges.map edgeLine).flatMap String.toList =
      (g.edges.map edgeChars).flatMap fun line => line ++ ['\n'] := by
    simp only [List.flatMap_map, toList_edgeLine]
  simp [dot, lines, String.toList_join, hNodes, hEdges]

theorem newline_not_mem_toDigits {number : Nat} : '\n' ∉ Nat.toDigits 10 number := by
  intro hLine
  exact absurd (Nat.isDigit_of_mem_toDigits (by omega) (by omega) hLine) (by decide)

theorem newline_not_mem_attributeChars : '\n' ∉ attributeChars label := by
  simp [attributeChars, opening, closing, newline_not_mem_escapeLabel]

/-- No name and no symbol adds a line. -/
theorem newline_not_mem_lines : ∀ line ∈ g.lines, '\n' ∉ line := by
  have hNodes : ∀ line ∈ g.nodes.mapIdx nodeChars, '\n' ∉ line := by
    intro line hLine
    obtain ⟨i, hi, rfl⟩ := List.mem_mapIdx.mp hLine
    simp [nodeChars, indent, newline_not_mem_toDigits, newline_not_mem_attributeChars]
  have hEdges : ∀ line ∈ g.edges.map edgeChars, '\n' ∉ line := by
    intro line hLine
    obtain ⟨edge, _, rfl⟩ := List.mem_map.mp hLine
    simp [edgeChars, indent, arrow, newline_not_mem_toDigits, newline_not_mem_attributeChars]
  refine List.forall_mem_cons.mpr ⟨by decide, List.forall_mem_append.mpr ⟨?_, ?_⟩⟩
  · exact List.forall_mem_append.mpr ⟨hNodes, hEdges⟩
  · exact List.forall_mem_singleton.mpr (by decide)

/-- Texts without a line feed are read back from the lines that they are written in. -/
theorem splitOn_flatMap {lines : List (List Char)} (hLines : ∀ line ∈ lines, '\n' ∉ line) :
    (lines.flatMap fun line => line ++ ['\n']).splitOn '\n' = lines ++ [[]] := by
  induction lines with
  | nil => rfl
  | cons line lines ih =>
      rw [List.forall_mem_cons] at hLines
      rw [List.flatMap_cons, List.append_assoc, List.singleton_append,
        List.splitOn_append_cons_self_of_not_mem hLines.1, ih hLines.2, List.cons_append]

/-- Line feeds part the text into the lines of the graph, and nothing stands behind the last. -/
theorem splitOn_dot (g : Graph) : g.dot.toList.splitOn '\n' = g.lines ++ [[]] := by
  rw [toList_dot, splitOn_flatMap newline_not_mem_lines]

/-! Reading lines. -/

inductive Line where
  | node (number : Nat) (label : String)
  | edge (source target : Nat) (label : String)
deriving DecidableEq

/-- Read a number, up to the first character that is no digit. -/
def readNumber (text : List Char) : Nat × List Char :=
  (Nat.ofDigitChars 10 (text.takeWhile Char.isDigit) 0, text.dropWhile Char.isDigit)

def readAttributes (text : List Char) : Option String := do
  let text ← opening.isPrefixOf? text
  let (label, rest) ← readLabel text
  if rest = closing then some (String.ofList label) else none

/-- Read a line from behind its first number on. Only in the line of an edge an arrow follows. -/
def Line.readFrom? (number : Nat) (text : List Char) : Option Line :=
  match arrow.isPrefixOf? text with
  | some text => (readAttributes (readNumber text).2).map (.edge number (readNumber text).1)
  | none => (readAttributes text).map (.node number)

/-- Read the line of a node or an edge. -/
def Line.read? (line : List Char) : Option Line :=
  (indent.isPrefixOf? line).bind fun text =>
    Line.readFrom? (readNumber text).1 (readNumber text).2

theorem isPrefixOf?_append (start rest : List Char) :
    start.isPrefixOf? (start ++ rest) = some rest :=
  List.isPrefixOf?_eq_some_iff_append_eq.mpr rfl

/-- A number ends where a blank follows. -/
theorem readNumber_toString (number : Nat) (rest : List Char) :
    readNumber ((toString number).toList ++ ' ' :: rest) = (number, ' ' :: rest) := by
  have hDigits : ∀ c ∈ (toString number).toList, c.isDigit = true := Name.isDigit_of_mem_toString
  rw [readNumber, List.takeWhile_append_of_pos hDigits, List.dropWhile_append_of_pos hDigits,
    List.takeWhile_cons_of_neg (by decide), List.dropWhile_cons_of_neg (by decide),
    List.append_nil, Name.ofDigitChars_toString]

/-- A label is read back from the end of its line. -/
theorem readAttributes_attributeChars (label : String) :
    readAttributes (attributeChars label) = some label := by
  rw [readAttributes, attributeChars, List.append_assoc, isPrefixOf?_append]
  simp [readLabel_escapeLabel]

/-- Without an arrow behind its number, a line is read as that of a node. -/
theorem read?_nodeChars (number : Nat) (node : Node) :
    Line.read? (nodeChars number node) = some (.node number node.label) := by
  have hNumber : readNumber ((toString number).toList ++ attributeChars node.label) =
      (number, attributeChars node.label) := readNumber_toString number _
  have hArrow : arrow.isPrefixOf? (attributeChars node.label) = none := rfl
  rw [Line.read?, nodeChars, List.append_assoc, isPrefixOf?_append, Option.bind_some, hNumber,
    Line.readFrom?, hArrow, readAttributes_attributeChars]
  rfl

/-- With an arrow behind its first number, a line is read as that of an edge. -/
theorem read?_edgeChars (edge : Edge) :
    Line.read? (edgeChars edge) = some (.edge edge.source edge.target edge.label) := by
  have hSource (rest : List Char) : readNumber ((toString edge.source).toList ++ (arrow ++ rest)) =
      (edge.source, arrow ++ rest) := readNumber_toString edge.source _
  have hTarget : readNumber ((toString edge.target).toList ++ attributeChars edge.label) =
      (edge.target, attributeChars edge.label) := readNumber_toString edge.target _
  rw [Line.read?, edgeChars, List.append_assoc, List.append_assoc, List.append_assoc,
    isPrefixOf?_append, Option.bind_some, hSource, Line.readFrom?, isPrefixOf?_append]
  dsimp only
  rw [hTarget, readAttributes_attributeChars]
  rfl

/-! Reading texts. -/

/-- What a text shows of a graph: the labels of the nodes in their order, and the edges. -/
structure Drawing where
  labels : List String
  edges : List Edge
deriving DecidableEq

def Line.nodeLabel? : Line → Option String
  | node _ label => some label
  | edge .. => none

def Line.edge? : Line → Option Edge
  | node .. => none
  | edge source target label => some ⟨source, target, symbolsIn label.toList⟩

namespace Drawing

/-- Read a text line by line. -/
def ofDot (text : String) : Drawing :=
  let lines := (text.toList.splitOn '\n').filterMap Line.read?
  ⟨lines.filterMap Line.nodeLabel?, lines.filterMap Line.edge?⟩

/-- The symbols on the edge from one node to another, by their numbers. -/
def symbols (drawing : Drawing) (source target : Nat) : List Char :=
  match drawing.edges.find? fun edge => edge.source = source ∧ edge.target = target with
  | some edge => edge.symbols
  | none => []

end Drawing

def said (g : Graph) : List Line :=
  (g.nodes.mapIdx fun i node => .node i node.label) ++
    g.edges.map fun edge => .edge edge.source edge.target edge.label

/-- All lines are read back but the first and the last, which are not indented. -/
theorem filterMap_read?_lines (g : Graph) : g.lines.filterMap Line.read? = g.said := by
  -- The lines around nodes and edges are not indented.
  have hFirst : Line.read? "digraph \x7b".toList = none := rfl
  have hLast : Line.read? "\x7d".toList = none := rfl
  simp only [lines, said, List.filterMap_cons, hFirst, List.filterMap_append, hLast,
    List.filterMap_nil, List.append_nil, List.mapIdx_eq_zipIdx_map, List.filterMap_map,
    Function.comp_def, read?_nodeChars, read?_edgeChars, List.filterMap_eq_map']

theorem filterMap_nodeLabel?_said (g : Graph) :
    g.said.filterMap Line.nodeLabel? = g.nodes.map Node.label := by
  have hNodes : (g.nodes.zipIdx.map fun entry => entry.1.label) = g.nodes.map Node.label := by
    change g.nodes.zipIdx.map (Node.label ∘ Prod.fst) = _
    rw [← List.map_map, List.zipIdx_map_fst]
  simp only [said, List.filterMap_append, List.mapIdx_eq_zipIdx_map, List.filterMap_map,
    Function.comp_def, Line.nodeLabel?, List.filterMap_eq_map', hNodes, List.filterMap_none,
    List.append_nil]

theorem filterMap_edge?_said (g : Graph) : g.said.filterMap Line.edge? = g.edges := by
  simp only [said, List.filterMap_append, List.mapIdx_eq_zipIdx_map, List.filterMap_map,
    Function.comp_def, Line.edge?, symbolsIn_label, List.filterMap_none, List.nil_append]
  exact List.filterMap_some

/-- The text of a graph shows the labels of its nodes, and its edges with all their symbols. -/
theorem ofDot_dot (g : Graph) : Drawing.ofDot g.dot = ⟨g.nodes.map Node.label, g.edges⟩ := by
  have hLines : (g.dot.toList.splitOn '\n').filterMap Line.read? = g.said := by
    rw [splitOn_dot, List.filterMap_append, filterMap_read?_lines]
    exact List.append_nil _
  rw [Drawing.ofDot, hLines, filterMap_nodeLabel?_said, filterMap_edge?_said]

/-- Each line feed ends the first line, the last, or that of a node or an edge. -/
theorem count_newline_dot (g : Graph) :
    g.dot.toList.count '\n' = g.nodes.length + g.edges.length + 2 := by
  have hCount : ∀ line ∈ g.lines, (line ++ ['\n']).count '\n' = 1 := by
    intro line hLine
    rw [List.count_append, List.count_eq_zero_of_not_mem (newline_not_mem_lines line hLine)]
    rfl
  have hOnes : g.lines.map (List.count '\n' ∘ fun line => line ++ ['\n']) =
      g.lines.map fun _ => 1 := List.map_congr_left hCount
  have hLength : g.lines.length = g.nodes.length + g.edges.length + 2 := by
    simp [lines, Nat.add_assoc]
  rw [toList_dot, List.count_flatMap, hOnes, List.map_const', List.sum_replicate_nat, hLength,
    Nat.mul_one]

/-- The edges that a text shows have the symbols of the transitions between the states at both
ends. Where there is no edge, there is no transition. -/
theorem Drawable.symbols_ofDot {states : SortedSet String} {isStart isAccept : String → Bool}
    {transitions : List (String × Char × String)} (hDraw : Drawable states transitions)
    {p r : String} (hp : p ∈ states) (hr : r ∈ states) :
    (Drawing.ofDot (ofTransitions states isStart isAccept transitions).dot).symbols
      (states.toList.idxOf p) (states.toList.idxOf r) = symbolsFor transitions p r := by
  rw [ofDot_dot, Drawing.symbols]
  split
  · rename_i edge hFind
    have hEdge : edge ∈ (ofTransitions states isStart isAccept transitions).edges :=
      List.mem_of_find?_eq_some hFind
    have hEnds := List.find?_some hFind
    rw [decide_eq_true_eq] at hEnds
    obtain ⟨p', _, r', _, _, rfl⟩ := hDraw.of_mem_edges hEdge
    rw [(List.idxOf_inj hp).mp hEnds.1.symm, (List.idxOf_inj hr).mp hEnds.2.symm]
  · rename_i hFind
    -- Symbols would have become an edge with these ends.
    by_contra hSymbols
    have hEntry := mem_entries_iff.mpr ⟨Ne.symm hSymbols, rfl⟩
    have hEdge := List.find?_eq_none.mp hFind _ (List.mem_map.mpr ⟨_, hEntry, rfl⟩)
    exact hEdge (decide_eq_true ⟨rfl, rfl⟩)

end Graph

/-! The texts of automata. -/

namespace FiniteAutomaton

variable {x : FiniteAutomaton} {i j : Nat} {a : Char} {p r : String}

def states : FiniteAutomaton → SortedSet String
  | dfa d => d.states
  | nfa n => n.states

def transitions : FiniteAutomaton → List (String × Char × String)
  | dfa d => d.transitions
  | nfa n => n.transitions

/-- A description that was checked. The symbols of a nondeterministic automaton need not even be in
its alphabet. -/
def Sound : FiniteAutomaton → Prop
  | dfa d => d.WellFormed
  | nfa n => n.Declared

/-- A transition from one node number to another. -/
def Leads (x : FiniteAutomaton) (i : Nat) (a : Char) (j : Nat) : Prop :=
  ∃ p r, x.states.toList[i]? = some p ∧ x.states.toList[j]? = some r ∧ (p, a, r) ∈ x.transitions

/-- Automata of both kinds are drawn in one way. -/
theorem exists_graph_eq (x : FiniteAutomaton) : ∃ isStart isAccept,
    x.graph = Graph.ofTransitions x.states isStart isAccept x.transitions := by
  cases x with
  | dfa d => exact ⟨_, _, rfl⟩
  | nfa n => exact ⟨_, _, rfl⟩

theorem length_nodes (x : FiniteAutomaton) : x.graph.nodes.length = x.states.toList.length := by
  obtain ⟨isStart, isAccept, hGraph⟩ := x.exists_graph_eq
  rw [hGraph, Graph.ofTransitions, List.length_map]

theorem Sound.drawable (hx : x.Sound) : Graph.Drawable x.states x.transitions := by
  cases x with
  | dfa d => exact Dfa.WellFormed.drawable hx
  | nfa n => exact Nfa.Declared.drawable hx

/-- Between two nodes, a text shows the symbols of the transitions between their states. -/
theorem Sound.symbols_ofDot (hx : x.Sound) (hp : x.states.toList[i]? = some p)
    (hr : x.states.toList[j]? = some r) :
    (Graph.Drawing.ofDot x.graph.dot).symbols i j = Graph.symbolsFor x.transitions p r := by
  obtain ⟨isStart, isAccept, hGraph⟩ := x.exists_graph_eq
  obtain ⟨hi, rfl⟩ := List.getElem?_eq_some_iff.mp hp
  obtain ⟨hj, rfl⟩ := List.getElem?_eq_some_iff.mp hr
  -- No state is listed twice, so a number and the state with this number determine each other.
  have hSource := x.states.nodup_toList.idxOf_getElem i hi
  have hTarget := x.states.nodup_toList.idxOf_getElem j hj
  rw [hGraph, ← hx.drawable.symbols_ofDot (List.getElem_mem hi) (List.getElem_mem hj), hSource,
    hTarget]

/-- Whether a transition leads from one node to another can be read from the text. -/
theorem Sound.leads_iff (hx : x.Sound) : x.Leads i a j ↔
    i < x.graph.nodes.length ∧ j < x.graph.nodes.length ∧
      a ∈ (Graph.Drawing.ofDot x.graph.dot).symbols i j := by
  rw [length_nodes]
  constructor
  · rintro ⟨p, r, hp, hr, hTransition⟩
    rw [hx.symbols_ofDot hp hr, Graph.mem_symbolsFor]
    exact ⟨(List.getElem?_eq_some_iff.mp hp).1, (List.getElem?_eq_some_iff.mp hr).1, hTransition⟩
  · rintro ⟨hi, hj, ha⟩
    have hp := List.getElem?_eq_getElem hi
    have hr := List.getElem?_eq_getElem hj
    rw [hx.symbols_ofDot hp hr, Graph.mem_symbolsFor] at ha
    exact ⟨_, _, hp, hr, ha⟩

end FiniteAutomaton

open FiniteAutomaton

/-- A text shows the labels of the states in order, all edges, and the symbols between any two state
numbers, whatever characters names and alphabet have. Automata with the same text differ neither in
the labels nor in the transitions between numbers. No label ends before its closing quote, and the
text has as many lines as it needs. -/
theorem dot_determines_automaton :
    (∀ x : FiniteAutomaton, x.Sound →
      Graph.Drawing.ofDot x.graph.dot =
          ⟨x.graph.nodes.map Graph.Node.label, x.graph.edges⟩ ∧
        (∀ i j p r, x.states.toList[i]? = some p → x.states.toList[j]? = some r →
          (Graph.Drawing.ofDot x.graph.dot).symbols i j = Graph.symbolsFor x.transitions p r) ∧
        x.graph.dot.toList.count '\n' = x.graph.nodes.length + x.graph.edges.length + 2) ∧
    (∀ x y : FiniteAutomaton, x.Sound → y.Sound → x.graph.dot = y.graph.dot →
      x.graph.nodes.map Graph.Node.label = y.graph.nodes.map Graph.Node.label ∧
        ∀ i a j, x.Leads i a j ↔ y.Leads i a j) ∧
    ∀ (label : String) (rest : List Char),
      Graph.readLabel ((Graph.escapeLabel label).toList ++ '"' :: rest) =
        some (label.toList, rest) := by
  refine ⟨fun x hx => ?_, fun x y hx hy hSame => ?_, Graph.readLabel_escapeLabel⟩
  · exact ⟨x.graph.ofDot_dot, fun i j p r => hx.symbols_ofDot, x.graph.count_newline_dot⟩
  · have hLabels : x.graph.nodes.map Graph.Node.label = y.graph.nodes.map Graph.Node.label := by
      have hDrawing := congrArg Graph.Drawing.ofDot hSame
      rw [Graph.ofDot_dot, Graph.ofDot_dot, Graph.Drawing.mk.injEq] at hDrawing
      exact hDrawing.1
    have hLength : x.graph.nodes.length = y.graph.nodes.length := by
      simpa using congrArg List.length hLabels
    refine ⟨hLabels, fun i a j => ?_⟩
    rw [hx.leads_iff, hy.leads_iff, hLength, hSame]

def single (name : String) : Dfa where
  alphabet := Alphabet.ofString ""
  states := SortedSet.ofList [name]
  start := name
  accept := ∅
  table := ∅

/-- The names contain a line feed, the backslash and the letter that stand for one in a label, and
what ends a label. A comma is one of the symbols. -/
def awkward : Nfa where
  alphabet := Alphabet.ofString "\",\\"
  states := SortedSet.ofList ["\n", "\\l", "\" ]\n"]
  start := SortedSet.ofList ["\n"]
  accept := SortedSet.ofList ["\\l"]
  table := SortedMap.ofList [(("\n", ','), SortedSet.ofList ["\\l"]),
    (("\n", '"'), SortedSet.ofList ["\\l", "\" ]\n"]), (("\n", '\\'), SortedSet.ofList ["\\l"])]

/-- A line feed and the two characters that stand for one give different texts. -/
theorem dot_determines_automaton_awkward :
    (dfa (single "\n")).Sound ∧ (dfa (single "\\l")).Sound ∧ (nfa awkward).Sound ∧
      (single "\n").graph.dot ≠ (single "\\l").graph.dot ∧
      (Graph.Drawing.ofDot awkward.graph.dot).labels = ["-> \n", "\" ]\n", "(\\l)"] ∧
      (Graph.Drawing.ofDot awkward.graph.dot).symbols 0 2 = ['"', ',', '\\'] ∧
      awkward.graph.dot.toList.count '\n' = 7 := by
  have hFeed : (dfa (single "\n")).Sound := Dfa.faults_eq_nil_iff.mp (by decide)
  have hBackslash : (dfa (single "\\l")).Sound := Dfa.faults_eq_nil_iff.mp (by decide)
  have hAwkward : (nfa awkward).Sound := (Nfa.faults_eq_nil_iff.mp (by decide)).toDeclared
  obtain ⟨hRead, hInjective, _⟩ := dot_determines_automaton
  obtain ⟨hDrawing, hSymbols, hCount⟩ := hRead _ hAwkward
  refine ⟨hFeed, hBackslash, hAwkward, ?_, ?_, ?_, ?_⟩
  · intro hSame
    exact absurd (hInjective _ _ hFeed hBackslash hSame).1 (by decide)
  · exact (congrArg Graph.Drawing.labels hDrawing).trans (by decide)
  · exact (hSymbols 0 2 "\n" "\\l" (by decide) (by decide)).trans (by decide)
  · exact hCount.trans (by decide)

end Acceptors
