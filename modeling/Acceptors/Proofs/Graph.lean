import Acceptors.Graph
import Acceptors.Proofs.Nfa.Path
import Acceptors.Proofs.Validation

/-! What the graph of an automaton shows. Transitions are listed by source and symbol, and the edges
of the graph by source and target. No transition is lost or doubled on the way, because the symbols
of an edge are kept in the order of the transitions, and two transitions between the same states
differ in their symbols. -/
namespace Acceptors

variable {states : SortedSet String} {isStart isAccept : String → Bool}
  {transitions : List (String × Char × String)} {p q r : String} {a : Char}

namespace Graph

/-! Reading a graph. -/

/-- The transitions on the edges of a graph, by the names of the nodes at both ends. -/
def triples (g : Graph) : List (String × Char × String) :=
  g.edges.flatMap fun edge =>
    match g.nodes[edge.source]?, g.nodes[edge.target]? with
    | some p, some r => edge.symbols.map fun a => (p.name, a, r.name)
    | _, _ => []

/-- A graph with a node for each state, in ascending order, and with an edge for each pair of states
that has transitions, which lists all their symbols. -/
structure Shows (g : Graph) (states : SortedSet String) (isStart isAccept : String → Prop)
    (transitions : List (String × Char × String)) : Prop where
  names_eq : g.nodes.map Node.name = states.toList
  start_iff : ∀ node ∈ g.nodes, node.start = true ↔ isStart node.name
  accept_iff : ∀ node ∈ g.nodes, node.accept = true ↔ isAccept node.name
  ends_exist : ∀ edge ∈ g.edges, edge.source < g.nodes.length ∧ edge.target < g.nodes.length
  /-- Edges are listed by their ends, and no two of them have the same. -/
  edges_ascend : g.edges.Pairwise fun e f =>
    e.source < f.source ∨ e.source = f.source ∧ e.target < f.target
  symbols_ne_nil : ∀ edge ∈ g.edges, edge.symbols ≠ []
  symbols_ascend : ∀ edge ∈ g.edges, edge.symbols.Pairwise fun a b => KeyOrder.before a b = true
  triples_perm : g.triples.Perm transitions
  triples_nodup : g.triples.Nodup

/-! The symbols between two states. -/

/-- The symbols of the transitions between two states, in the order of the transitions. -/
def symbolsFor (transitions : List (String × Char × String)) (p r : String) : List Char :=
  transitions.filterMap fun t => if (t.1, t.2.2) = (p, r) then some t.2.1 else none

theorem mem_symbolsFor : a ∈ symbolsFor transitions p r ↔ (p, a, r) ∈ transitions := by
  simp [symbolsFor]

theorem symbolsFor_append (t : String × Char × String) :
    symbolsFor (transitions ++ [t]) p r =
      symbolsFor transitions p r ++ if (t.1, t.2.2) = (p, r) then [t.2.1] else [] := by
  rw [symbolsFor, List.filterMap_append, ← symbolsFor]
  split <;> simp_all

/-- Exactly the pairs of states between which there are transitions have symbols stored. -/
theorem get?_symbolsBetween (transitions : List (String × Char × String)) (p r : String) :
    (symbolsBetween transitions).get? (p, r) =
      if symbolsFor transitions p r = [] then none else some (symbolsFor transitions p r) := by
  induction transitions using List.reverseRecOn with
  | nil => rfl
  | append_singleton transitions t ih =>
      rw [symbolsBetween, List.foldl_append, ← symbolsBetween, List.foldl_cons, List.foldl_nil,
        SortedMap.get?_alter, symbolsFor_append]
      by_cases hPair : (p, r) = (t.1, t.2.2)
      · rw [if_pos hPair, if_pos hPair.symm, ← hPair, ih]
        split <;> simp_all
      · rw [if_neg hPair, if_neg (Ne.symm hPair), List.append_nil, ih]

/-! Transitions that can be drawn. -/

/-- Transitions between declared states, of which those between the same two states come in the
order of their symbols. -/
structure Drawable (states : SortedSet String) (transitions : List (String × Char × String)) :
    Prop where
  ends_mem : ∀ p a r, (p, a, r) ∈ transitions → p ∈ states ∧ r ∈ states
  ascend : transitions.Pairwise fun t u =>
    t.1 = u.1 → t.2.2 = u.2.2 → KeyOrder.before t.2.1 u.2.1 = true

namespace Drawable

variable (hDraw : Drawable states transitions)
include hDraw

/-- No transition is listed twice, since the symbols between two states ascend. -/
theorem nodup : transitions.Nodup := by
  apply hDraw.ascend.imp
  rintro t u hBefore rfl
  exact KeyOrder.ne_of_before (hBefore rfl rfl) rfl

/-- The symbols of an edge are listed in ascending order. -/
theorem symbolsFor_ascend (p r : String) :
    (symbolsFor transitions p r).Pairwise fun a b => KeyOrder.before a b = true := by
  rw [symbolsFor, List.pairwise_filterMap]
  apply hDraw.ascend.imp
  intro t u hBefore a ha b hb
  simp only [Option.ite_none_right_eq_some, Prod.mk.injEq, Option.some.injEq] at ha hb
  obtain ⟨⟨hp, hr⟩, rfl⟩ := ha
  obtain ⟨⟨hp', hr'⟩, rfl⟩ := hb
  exact hBefore (hp.trans hp'.symm) (hr.trans hr'.symm)

omit hDraw in
/-- The pairs of states that become edges, with their symbols. -/
theorem mem_entries_iff {symbols : List Char} :
    ((p, r), symbols) ∈ (symbolsBetween transitions).entries ↔
      symbols ≠ [] ∧ symbolsFor transitions p r = symbols := by
  rw [SortedMap.mem_entries_iff, get?_symbolsBetween]
  split <;> grind

theorem mem_states_of_mem_entries {symbols : List Char}
    (hEntry : ((p, r), symbols) ∈ (symbolsBetween transitions).entries) :
    p ∈ states ∧ r ∈ states := by
  obtain ⟨hSymbols, hList⟩ := mem_entries_iff.mp hEntry
  obtain ⟨a, ha⟩ := List.exists_mem_of_ne_nil symbols hSymbols
  rw [← hList, mem_symbolsFor] at ha
  exact hDraw.ends_mem p a r ha

/-- What an edge of the drawing consists of. -/
theorem of_mem_edges {edge : Edge}
    (hEdge : edge ∈ (ofTransitions states isStart isAccept transitions).edges) :
    ∃ p ∈ states, ∃ r ∈ states, symbolsFor transitions p r ≠ [] ∧
      edge = ⟨states.toList.idxOf p, states.toList.idxOf r, symbolsFor transitions p r⟩ := by
  obtain ⟨⟨⟨p, r⟩, symbols⟩, hEntry, rfl⟩ := List.mem_map.mp hEdge
  obtain ⟨hp, hr⟩ := hDraw.mem_states_of_mem_entries hEntry
  obtain ⟨hSymbols, rfl⟩ := mem_entries_iff.mp hEntry
  exact ⟨p, hp, r, hr, hSymbols, rfl⟩

/-- Edges are listed by source and then by target, and no two have the same ends. -/
theorem edges_ascend :
    (ofTransitions states isStart isAccept transitions).edges.Pairwise fun e f =>
      e.source < f.source ∨ e.source = f.source ∧ e.target < f.target := by
  rw [ofTransitions, List.pairwise_map]
  apply (symbolsBetween transitions).ascending.imp_of_mem
  rintro ⟨⟨p, r⟩, symbols⟩ ⟨⟨p', r'⟩, others⟩ hEntry hOther hBefore
  obtain ⟨hp, hr⟩ := hDraw.mem_states_of_mem_entries hEntry
  obtain ⟨hp', hr'⟩ := hDraw.mem_states_of_mem_entries hOther
  rcases KeyOrder.before_mk_iff.mp hBefore with hSource | ⟨rfl, hTarget⟩
  · exact Or.inl (SortedSet.idxOf_lt_idxOf hp hp' hSource)
  · exact Or.inr ⟨rfl, SortedSet.idxOf_lt_idxOf hr hr' hTarget⟩

/-- The names at both ends of an edge are found again. -/
theorem triples_ofTransitions :
    (ofTransitions states isStart isAccept transitions).triples =
      (symbolsBetween transitions).entries.flatMap fun entry =>
        entry.2.map fun a => (entry.1.1, a, entry.1.2) := by
  have hNode : ∀ {q}, q ∈ states →
      (ofTransitions states isStart isAccept transitions).nodes[states.toList.idxOf q]? =
        some ⟨q, isStart q, isAccept q⟩ := by
    intro q hq
    rw [ofTransitions, List.getElem?_map, List.getElem?_idxOf hq]
    rfl
  rw [triples]
  change ((symbolsBetween transitions).entries.map _).flatMap _ = _
  rw [List.flatMap_map]
  apply List.flatMap_congr
  rintro ⟨⟨p, r⟩, symbols⟩ hEntry
  obtain ⟨hp, hr⟩ := hDraw.mem_states_of_mem_entries hEntry
  dsimp only
  rw [hNode hp, hNode hr]

/-- A graph shows the transitions that it is made from. -/
theorem mem_triples_iff :
    (p, a, r) ∈ (ofTransitions states isStart isAccept transitions).triples ↔
      (p, a, r) ∈ transitions := by
  rw [hDraw.triples_ofTransitions, List.mem_flatMap]
  constructor
  · intro ⟨⟨⟨p', r'⟩, symbols⟩, hEntry, hTriple⟩
    obtain ⟨b, hb, hEq⟩ := List.mem_map.mp hTriple
    cases hEq
    rwa [← mem_symbolsFor, (mem_entries_iff.mp hEntry).2]
  · intro hTransition
    have ha := mem_symbolsFor.mpr hTransition
    have hEntry := mem_entries_iff.mpr ⟨List.ne_nil_of_mem ha, rfl⟩
    exact ⟨_, hEntry, List.mem_map.mpr ⟨a, ha, rfl⟩⟩

/-- No transition is shown twice. -/
theorem nodup_triples : (ofTransitions states isStart isAccept transitions).triples.Nodup := by
  rw [hDraw.triples_ofTransitions, List.Nodup, List.pairwise_flatMap]
  constructor
  · rintro ⟨⟨p, r⟩, symbols⟩ hEntry
    obtain ⟨_, rfl⟩ := mem_entries_iff.mp hEntry
    rw [List.pairwise_map]
    apply (hDraw.symbolsFor_ascend p r).imp
    intro a b hBefore hSame
    cases hSame
    exact KeyOrder.ne_of_before hBefore rfl
  · apply (symbolsBetween transitions).ascending.imp
    rintro ⟨⟨p, r⟩, symbols⟩ ⟨⟨p', r'⟩, others⟩ hBefore t ht u hu hSame
    obtain ⟨a, _, rfl⟩ := List.mem_map.mp ht
    obtain ⟨b, _, hEq⟩ := List.mem_map.mp hu
    cases hEq.trans hSame.symm
    exact KeyOrder.ne_of_before hBefore rfl

/-- What can be drawn is shown by its drawing. -/
theorem shows_ofTransitions :
    (ofTransitions states isStart isAccept transitions).Shows states (fun q => isStart q = true)
      (fun q => isAccept q = true) transitions where
  names_eq := by simp [ofTransitions, Function.comp_def]
  start_iff := by simp [ofTransitions]
  accept_iff := by simp [ofTransitions]
  ends_exist edge hEdge := by
    obtain ⟨p, hp, r, hr, _, rfl⟩ := hDraw.of_mem_edges hEdge
    simp [ofTransitions, List.idxOf_lt_length_iff, hp, hr]
  edges_ascend := hDraw.edges_ascend
  symbols_ne_nil edge hEdge := by
    obtain ⟨p, _, r, _, hSymbols, rfl⟩ := hDraw.of_mem_edges hEdge
    exact hSymbols
  symbols_ascend edge hEdge := by
    obtain ⟨p, _, r, _, _, rfl⟩ := hDraw.of_mem_edges hEdge
    exact hDraw.symbolsFor_ascend p r
  triples_perm := by
    apply (List.perm_ext_iff_of_nodup hDraw.nodup_triples hDraw.nodup).mpr
    intro t
    exact hDraw.mem_triples_iff
  triples_nodup := hDraw.nodup_triples

end Drawable

end Graph

/-! The graphs of automata. -/

theorem Dfa.mem_transitions_iff {d : Dfa} :
    (p, a, r) ∈ d.transitions ↔ d.next? p a = some r := by
  rw [next?, ← SortedMap.mem_entries_iff, transitions, List.mem_map]
  constructor
  · intro ⟨⟨⟨p', b⟩, r'⟩, hEntry, hEq⟩
    cases hEq
    exact hEntry
  · intro hEntry
    exact ⟨_, hEntry, rfl⟩

theorem Nfa.mem_transitions_iff {n : Nfa} :
    (p, a, r) ∈ n.transitions ↔ r ∈ n.targets p a := by
  rw [mem_targets, transitions, List.mem_flatMap]
  constructor
  · intro ⟨⟨⟨p', b⟩, targets⟩, hEntry, hTarget⟩
    obtain ⟨r', hr, hEq⟩ := List.mem_map.mp hTarget
    cases hEq
    exact ⟨targets, SortedMap.mem_entries_iff.mp hEntry, hr⟩
  · intro ⟨targets, hGet, hr⟩
    exact ⟨_, SortedMap.mem_entries_iff.mpr hGet, List.mem_map.mpr ⟨r, hr, rfl⟩⟩

/-- Entries are listed by source and symbol, and each has one target. -/
theorem Dfa.WellFormed.drawable {d : Dfa} (hd : d.WellFormed) :
    Graph.Drawable d.states d.transitions where
  ends_mem p a r hTransition := by
    have hGet := mem_transitions_iff.mp hTransition
    have hKey := (hd.mem_table p a).mp (SortedMap.mem_of_get?_eq_some hGet)
    exact ⟨hKey.1, hd.target_mem p a r hGet⟩
  ascend := by
    rw [transitions, List.pairwise_map]
    apply d.table.ascending.imp
    intro e f hBefore hSource _
    exact KeyOrder.before_snd_of_fst_eq hBefore hSource

/-- Entries are listed by source and symbol, and the targets of one are different. -/
theorem Nfa.Declared.drawable {n : Nfa} (hn : n.Declared) :
    Graph.Drawable n.states n.transitions where
  ends_mem p a r hTransition := by
    have hTarget := mem_transitions_iff.mp hTransition
    exact ⟨hn.source_mem_states hTarget, hn.target_mem_states hTarget⟩
  ascend := by
    rw [transitions, List.pairwise_flatMap]
    constructor
    · intro entry _
      rw [List.pairwise_map]
      apply entry.2.ascending.imp
      intro q r hBefore _ hSame
      exact absurd hSame (KeyOrder.ne_of_before hBefore)
    · apply n.table.ascending.imp
      intro e f hBefore t ht u hu hSource _
      obtain ⟨q, _, rfl⟩ := List.mem_map.mp ht
      obtain ⟨r, _, rfl⟩ := List.mem_map.mp hu
      exact KeyOrder.before_snd_of_fst_eq hBefore hSource

/-- One node is marked as the start, and any number as accepting. -/
theorem Dfa.WellFormed.shows_graph {d : Dfa} (hd : d.WellFormed) :
    d.graph.Shows d.states (fun q => q = d.start) (fun q => q ∈ d.accept) d.transitions := by
  have hShows : d.graph.Shows d.states _ _ d.transitions := hd.drawable.shows_ofTransitions
  simpa only [decide_eq_true_eq] using hShows

theorem Nfa.Declared.shows_graph {n : Nfa} (hn : n.Declared) :
    n.graph.Shows n.states (fun q => q ∈ n.start) (fun q => q ∈ n.accept) n.transitions := by
  have hShows : n.graph.Shows n.states _ _ n.transitions := hn.drawable.shows_ofTransitions
  simpa only [decide_eq_true_eq] using hShows

/-- The graph of an automaton of either kind shows its states, which of them start and accept, and
exactly the transitions of its table. -/
theorem graph_shows_automaton :
    (∀ d : Dfa, d.WellFormed →
      d.graph.Shows d.states (fun q => q = d.start) (fun q => q ∈ d.accept) d.transitions ∧
        ∀ q a r, (q, a, r) ∈ d.transitions ↔ d.next? q a = some r) ∧
    ∀ n : Nfa, n.Declared →
      n.graph.Shows n.states (fun q => q ∈ n.start) (fun q => q ∈ n.accept) n.transitions ∧
        ∀ q a r, (q, a, r) ∈ n.transitions ↔ r ∈ n.targets q a := by
  constructor
  · intro d hd
    exact ⟨hd.shows_graph, fun q a r => Dfa.mem_transitions_iff⟩
  · intro n hn
    exact ⟨hn.shows_graph, fun q a r => Nfa.mem_transitions_iff⟩

/-- Both symbols lead from the first state to the second. -/
def parallelSymbols : Dfa where
  alphabet := Alphabet.ofString "ab"
  states := SortedSet.ofList ["p", "q"]
  start := "p"
  accept := SortedSet.ofList ["q"]
  table := SortedMap.ofList [(("p", 'a'), "q"), (("p", 'b'), "q"), (("q", 'a'), "p"),
    (("q", 'b'), "q")]

/-- One entry has two targets, one has the source as target, and one has no target. -/
def severalTargets : Nfa where
  alphabet := Alphabet.ofString "ab"
  states := SortedSet.ofList ["p", "q"]
  start := SortedSet.ofList ["p"]
  accept := SortedSet.ofList ["q"]
  table := SortedMap.ofList [(("p", 'a'), SortedSet.ofList ["p", "q"]),
    (("p", 'b'), SortedSet.ofList ["q"]), (("q", 'a'), ∅)]

/-- Transitions between the same states share an edge, and an entry without targets has none. -/
theorem graph_shows_automaton_merged :
    parallelSymbols.WellFormed ∧ severalTargets.Declared ∧
      parallelSymbols.graph.edges = [⟨0, 1, ['a', 'b']⟩, ⟨1, 0, ['a']⟩, ⟨1, 1, ['b']⟩] ∧
      parallelSymbols.graph.triples.Perm parallelSymbols.transitions ∧
      severalTargets.graph.edges = [⟨0, 0, ['a']⟩, ⟨0, 1, ['a', 'b']⟩] ∧
      severalTargets.graph.triples.Perm severalTargets.transitions := by
  have hDfa : parallelSymbols.WellFormed := Dfa.faults_eq_nil_iff.mp (by decide)
  have hNfa : severalTargets.Declared := (Nfa.faults_eq_nil_iff.mp (by decide)).toDeclared
  obtain ⟨hDfas, hNfas⟩ := graph_shows_automaton
  exact ⟨hDfa, hNfa, by decide, (hDfas _ hDfa).1.triples_perm, by decide,
    (hNfas _ hNfa).1.triples_perm⟩

end Acceptors
