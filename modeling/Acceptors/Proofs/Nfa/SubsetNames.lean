import Acceptors.Proofs.Nfa.PowerAutomaton
import Acceptors.Proofs.Numbering

/-! The names of the states of a determinized automaton. A set is named by its text, or by its text
and a number if sets that were discovered before it are written alike. All texts end in a brace, so
a numbered name is never the text of another set, and no number is left out. Where the names of the
states are not empty and have no commas, no two sets are written alike. -/
namespace Acceptors.Nfa

variable {n : Nfa} {s t : SortedSet String} {before after : List (SortedSet String)}

/-- The text of a set ends in a brace, so a number behind it can be told from it. -/
theorem unnumbered_subsetText (s : SortedSet String) : Name.Unnumbered (subsetText s) := by
  rw [Name.Unnumbered, subsetText, String.toList_append]
  simp [Name.trailingDigits]

/-! Reading the members of a set from its text. -/

/-- A name that can be read from the text of a set. -/
def PlainName (name : String) : Prop := name ≠ "" ∧ ',' ∉ name.toList

/-- The names that stand in a text, separated by commas. The empty text has none. -/
def namesIn (text : String) : List String :=
  if text = "" then [] else (text.toList.splitOn ',').map String.ofList

theorem splitOn_intercalate {l : List String} (hPlain : ∀ q ∈ l, PlainName q) (hNe : l ≠ []) :
    (String.intercalate "," l).toList.splitOn ',' = l.map String.toList := by
  have hCommas : ∀ chars ∈ l.map String.toList, ',' ∉ chars := by
    intro chars hChars
    obtain ⟨q, hq, rfl⟩ := List.mem_map.mp hChars
    exact (hPlain q hq).2
  rw [String.toList_intercalate]
  exact List.splitOn_intercalate ',' hCommas (by simpa using hNe)

theorem namesIn_intercalate {l : List String} (hPlain : ∀ q ∈ l, PlainName q) :
    namesIn (String.intercalate "," l) = l := by
  cases l with
  | nil => rfl
  | cons q l =>
      have hRead := splitOn_intercalate hPlain (List.cons_ne_nil q l)
      have hNe : String.intercalate "," (q :: l) ≠ "" := by
        intro hEmpty
        rw [hEmpty, List.map_cons] at hRead
        -- From the empty text an empty name would be read.
        have hFirst : [] = q.toList := (List.cons.inj hRead).1
        exact (hPlain q List.mem_cons_self).1 (String.toList_inj.mp hFirst.symm)
      rw [namesIn, if_neg hNe, hRead, List.map_map]
      simp

/-- Sets of states with plain names are written differently. -/
theorem subsetText_inj (hs : ∀ q ∈ s, PlainName q) (ht : ∀ q ∈ t, PlainName q)
    (hText : subsetText s = subsetText t) : s = t := by
  rw [subsetText, subsetText, String.append_left_inj, String.append_right_inj] at hText
  have hList : s.toList = t.toList := by
    rw [← namesIn_intercalate hs, hText, namesIn_intercalate ht]
  ext q
  rw [← SortedSet.mem_toList, hList, SortedSet.mem_toList]

namespace Declared

variable (hn : n.Declared)
include hn

/-- The sets are discovered in the order in which they first occur as the start set or as successors
of sets, when these are taken in the order of discovery and their successors by ascending symbol. -/
theorem subsets_eq_distinct :
    n.subsets = Discovery.distinct (n.start :: n.subsets.flatMap n.successors) :=
  hn.subsets_finishes.eq_distinct rfl

/-- A set is numbered by how many sets that are written alike were discovered before it. -/
theorem subsetName_eq_ofOccurrence (hSplit : n.subsets = before ++ s :: after) :
    n.subsetName s =
      Name.ofOccurrence (subsetText s) ((before.map subsetText).count (subsetText s)) := by
  have hItem : n.subsets[before.length]? = some s := by
    rw [hSplit, List.getElem?_append_right (Nat.le_refl _), Nat.sub_self]
    rfl
  have hTexts : ∀ text ∈ before.map subsetText, Name.Unnumbered text := by
    intro text hText
    obtain ⟨t, _, rfl⟩ := List.mem_map.mp hText
    exact unnumbered_subsetText t
  have hName : n.subsetNames[before.length]? = some
      (Name.ofOccurrence (subsetText s) ((before.map subsetText).count (subsetText s))) := by
    rw [subsetNames, hSplit, List.map_append, List.map_cons, ← List.length_map subsetText]
    exact Name.names_nil.getElem?_freshAll (List.forall_mem_nil _) hTexts (unnumbered_subsetText s)
  rw [subsetName, Name.lookup_zip_eq_some hn.nodup_subsets hItem hName]
  rfl

/-- Where all names are plain, no two sets have the same text. -/
theorem nodup_subsetTexts (hPlain : ∀ q ∈ n.states, PlainName q) :
    (n.subsets.map subsetText).Nodup := by
  apply hn.nodup_subsets.map_on
  intro s hs t ht hText
  have hMembers : ∀ s ∈ n.subsets, ∀ q ∈ s, PlainName q := fun s hs q hq =>
    hPlain q (hn.mem_states_of_mem_subsets hs hq)
  exact subsetText_inj (hMembers s hs) (hMembers t ht) hText

theorem subsetName_eq_subsetText (hPlain : ∀ q ∈ n.states, PlainName q) (hs : s ∈ n.subsets) :
    n.subsetName s = subsetText s := by
  obtain ⟨before, after, hSplit⟩ := List.append_of_mem hs
  have hNodup := hn.nodup_subsetTexts hPlain
  rw [hSplit, List.map_append, List.map_cons, List.nodup_append] at hNodup
  have hNew : subsetText s ∉ before.map subsetText := fun hOld =>
    hNodup.2.2 _ hOld _ List.mem_cons_self rfl
  rw [hn.subsetName_eq_ofOccurrence hSplit, List.count_eq_zero.mpr hNew, Name.ofOccurrence_zero]

/-- With plain names, every set is named by its text, in whatever order the sets are named. -/
theorem freshAll_subsetTexts (hPlain : ∀ q ∈ n.states, PlainName q)
    {order : List (SortedSet String)} (hOrder : order.Perm n.subsets) :
    Name.freshAll ∅ (order.map subsetText) = order.map subsetText := by
  have hNodup := ((hOrder.map subsetText).nodup_iff).mpr (hn.nodup_subsetTexts hPlain)
  exact Name.freshAll_eq_self hNodup fun text _ => SortedSet.not_mem_empty text

end Declared

/-- The sets that words lead to are discovered breadth first from the start set, and each is named in
this order for its text and the number of sets before it that have the same text. If no name of a
state is empty or has a comma, then every set is named by its text alone, and so it would be if the
sets were discovered in another order. -/
theorem subset_names_canonical (n : Nfa) (hn : n.Declared) :
    n.subsets = Discovery.distinct (n.start :: n.subsets.flatMap n.successors) ∧
      ∃ nameOf, n.IsPowerAutomaton n.determinize nameOf ∧
        (∀ before s after, n.subsets = before ++ s :: after →
          nameOf s =
            Name.ofOccurrence (subsetText s) ((before.map subsetText).count (subsetText s))) ∧
        ((∀ q ∈ n.states, PlainName q) →
          (∀ s, n.PowerState s → nameOf s = subsetText s) ∧
            ∀ order : List (SortedSet String), order.Perm n.subsets →
              Name.freshAll ∅ (order.map subsetText) = order.map subsetText) := by
  refine ⟨hn.subsets_eq_distinct, n.subsetName, hn.isPowerAutomaton_determinize, ?_, ?_⟩
  · intro before s after hSplit
    exact hn.subsetName_eq_ofOccurrence hSplit
  · intro hPlain
    constructor
    · intro s hs
      exact hn.subsetName_eq_subsetText hPlain (hn.mem_subsets_iff.mpr hs)
    · intro order hOrder
      exact hn.freshAll_subsetTexts hPlain hOrder

/-- Names with braces and digits, which are plain. The empty set is reachable, and its text is the
beginning of the text of another. -/
def bracedNames : Nfa where
  alphabet := Alphabet.ofString "ab"
  states := SortedSet.ofList ["\x7d", "\x7d1"]
  start := SortedSet.ofList ["\x7d"]
  accept := ∅
  table := SortedMap.ofList [(("\x7d", 'a'), SortedSet.ofList ["\x7d1"])]

/-- The set of `x,y` is discovered after the set of `x` and `y`, which is written alike. -/
theorem subset_names_canonical_commas :
    commaNames.Declared ∧
      (∃ nameOf, commaNames.IsPowerAutomaton commaNames.determinize nameOf ∧
        nameOf (SortedSet.ofList ["x", "y"]) = "\x7bx,y\x7d" ∧
        nameOf (SortedSet.ofList ["x,y"]) = "\x7bx,y\x7d1") ∧
      bracedNames.Declared ∧
      ∃ nameOf, bracedNames.IsPowerAutomaton bracedNames.determinize nameOf ∧
        nameOf (SortedSet.ofList ["\x7d1"]) = "\x7b\x7d1\x7d" ∧ nameOf ∅ = "\x7b\x7d" := by
  have hCommas : commaNames.Declared := (faults_eq_nil_iff.mp (by decide)).toDeclared
  have hBraced : bracedNames.Declared := (faults_eq_nil_iff.mp (by decide)).toDeclared
  obtain ⟨_, nameOf, hPower, hNumbered, _⟩ := subset_names_canonical commaNames hCommas
  obtain ⟨_, other, hOther, _, hPlain⟩ := subset_names_canonical bracedNames hBraced
  have hSets : commaNames.subsets = [commaNames.start, SortedSet.ofList ["x", "y"],
      SortedSet.ofList ["x,y"], ∅] := by decide
  have hStates : ∀ q ∈ bracedNames.states, PlainName q := by
    intro q hq
    have hNames : ∀ q ∈ ["\x7d", "\x7d1"], PlainName q := by
      rw [List.forall_mem_cons, List.forall_mem_singleton]
      exact ⟨⟨by decide, by decide⟩, by decide, by decide⟩
    exact hNames q (SortedSet.mem_ofList.mp hq)
  obtain ⟨hTexts, _⟩ := hPlain hStates
  have hStep : bracedNames.PowerState (SortedSet.ofList ["\x7d1"]) :=
    .step (a := 'a') .start (by decide)
  have hEmpty : bracedNames.PowerState ∅ := .step (a := 'b') .start (by decide)
  refine ⟨hCommas, ⟨nameOf, hPower, ?_, ?_⟩, hBraced, other, hOther, ?_, ?_⟩
  · exact hNumbered [commaNames.start] _ [SortedSet.ofList ["x,y"], ∅] hSets
  · exact hNumbered [commaNames.start, SortedSet.ofList ["x", "y"]] _ [∅] hSets
  · exact hTexts _ hStep
  · exact hTexts _ hEmpty

end Acceptors.Nfa
