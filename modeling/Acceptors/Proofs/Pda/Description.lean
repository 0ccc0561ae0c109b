import Acceptors.Pda.Draft
import Acceptors.Proofs.Discovery
import Acceptors.Proofs.Validation

/-! What a sequence of edits describes. Of a part that is given several times the last value counts,
and the moves of a key are listed in the order in which they were given first. -/
namespace Acceptors.Pda

variable {p : Pda} {edits : List Edit} {key : Key} {α : Type}

/-! The parts of a description. -/

/-- What every description has to give. -/
inductive Part where
  | alphabet
  | stackAlphabet
  | initialItem
  | states
  | start
  | table
  | acceptance
deriving DecidableEq

namespace Part

def name : Part → String
  | alphabet => "alphabet"
  | stackAlphabet => "stack_alphabet"
  | initialItem => "initial_stack_item"
  | states => "states"
  | start => "start_state"
  | table => "delta"
  | acceptance => "accept_states"

/-- The place of a part in the order in which missing parts are reported. -/
def position : Part → Nat
  | alphabet => 0
  | stackAlphabet => 1
  | initialItem => 2
  | states => 3
  | start => 4
  | table => 5
  | acceptance => 6

theorem position_injective : Function.Injective position := by
  intro a b
  cases a <;> cases b <;> simp [position]

end Part

namespace Edit

/-- The part that an edit gives. Every description has a step limit, also if no edit gives one. -/
def part? : Edit → Option Part
  | alphabet _ => some .alphabet
  | stackAlphabet _ => some .stackAlphabet
  | initialItem _ => some .initialItem
  | states _ => some .states
  | start _ => some .start
  | transition _ _ => some .table
  | noTransitions => some .table
  | accept _ => some .acceptance
  | acceptOnEmptyStack => some .acceptance
  | stepLimit _ => none

def alphabet? : Edit → Option Alphabet
  | alphabet symbols => some symbols
  | _ => none

def stackAlphabet? : Edit → Option Alphabet
  | stackAlphabet items => some items
  | _ => none

def initialItem? : Edit → Option Char
  | initialItem item => some item
  | _ => none

def states? : Edit → Option (SortedSet String)
  | states names => some (SortedSet.ofList names)
  | _ => none

def start? : Edit → Option String
  | start name => some name
  | _ => none

def acceptance? : Edit → Option Acceptance
  | accept names => some (.finalState (SortedSet.ofList names))
  | acceptOnEmptyStack => some .emptyStack
  | _ => none

def moveFor? (key : Key) : Edit → Option Move
  | transition source move => if source = key then some move else none
  | _ => none

end Edit

/-- The value that counts of those that edits give for a part. -/
def given (value? : Edit → Option α) (edits : List Edit) : Option α :=
  (edits.filterMap value?).getLast?

abbrev movesGiven (edits : List Edit) (key : Key) : List Move :=
  edits.filterMap (Edit.moveFor? key)

theorem Edit.moveFor?_eq_some_iff {edit : Edit} {move : Move} :
    edit.moveFor? key = some move ↔ edit = .transition key move := by
  cases edit with
  | transition source other => simp [moveFor?]
  | _ => simp [moveFor?]

/-- The moves of a key are those of its transitions among the edits. -/
theorem mem_movesGiven {move : Move} :
    move ∈ movesGiven edits key ↔ .transition key move ∈ edits := by
  simp only [List.mem_filterMap, Edit.moveFor?_eq_some_iff, exists_eq_right]

namespace Draft

theorem ofEdits_append (edits : List Edit) (edit : Edit) :
    ofEdits (edits ++ [edit]) = (ofEdits edits).apply edit := by
  rw [ofEdits, List.foldl_append, List.foldl_cons, List.foldl_nil, ← ofEdits]

/-- A part of a draft is what was given last, if no other edit changes it. -/
theorem eq_given (value : Draft → Option α) {value? : Edit → Option α} (hEmpty : value {} = none)
    (hApply : ∀ draft edit, value (draft.apply edit) = (value? edit).or (value draft))
    (edits : List Edit) : value (ofEdits edits) = given value? edits := by
  induction edits using List.reverseRecOn with
  | nil => exact hEmpty
  | append_singleton edits edit ih =>
      rw [ofEdits_append, hApply, ih, given, given, List.filterMap_append, List.getLast?_append]
      cases hValue : value? edit with
      | none => rw [List.filterMap_cons_none hValue, List.filterMap_nil, List.getLast?_nil]
      | some a => rw [List.filterMap_cons_some hValue, List.filterMap_nil, List.getLast?_singleton]

def has (draft : Draft) : Part → Bool
  | .alphabet => draft.alphabet.isSome
  | .stackAlphabet => draft.stackAlphabet.isSome
  | .initialItem => draft.initialItem.isSome
  | .states => draft.states.isSome
  | .start => draft.start.isSome
  | .table => draft.table.isSome
  | .acceptance => draft.acceptance.isSome

/-- An edit gives its own part and takes none away. -/
theorem has_apply (draft : Draft) (edit : Edit) (part : Part) :
    (draft.apply edit).has part = (decide (edit.part? = some part) || draft.has part) := by
  cases edit <;> cases part <;> rfl

/-- A part has been given if some edit gives it, whatever comes later. -/
theorem has_ofEdits {part : Part} :
    (ofEdits edits).has part = true ↔ ∃ edit ∈ edits, edit.part? = some part := by
  induction edits using List.reverseRecOn with
  | nil => cases part <;> simp [ofEdits, has]
  | append_singleton edits edit ih =>
      rw [ofEdits_append, has_apply, Bool.or_eq_true, decide_eq_true_eq, ih]
      simp only [List.mem_append, List.mem_singleton, or_and_right, exists_or, exists_eq_left]
      exact or_comm

end Draft

/-! The table of a description. -/

/-- An edit puts a move for a key behind those that the key has, unless it has the move. -/
theorem Draft.get?_apply (draft : Draft) (edit : Edit) (key : Key) :
    (((draft.apply edit).table.getD ∅).get? key).getD [] =
      match edit.moveFor? key with
      | none => ((draft.table.getD ∅).get? key).getD []
      | some move =>
        let moves := ((draft.table.getD ∅).get? key).getD []
        if move ∈ moves then moves else moves ++ [move] := by
  cases edit with
  | transition source move =>
      rw [apply, Edit.moveFor?, Option.getD_some, addMove, SortedMap.get?_alter]
      by_cases hKey : source = key
      · rw [if_pos hKey, if_pos hKey.symm, hKey]
        rfl
      · rw [if_neg hKey, if_neg (Ne.symm hKey)]
  | _ => rfl

/-- The moves of a key are listed in the order in which they were given first. -/
theorem Draft.get?_ofEdits (edits : List Edit) (key : Key) :
    (((Draft.ofEdits edits).table.getD ∅).get? key).getD [] =
      Discovery.distinct (edits.filterMap (Edit.moveFor? key)) := by
  induction edits using List.reverseRecOn with
  | nil => rfl
  | append_singleton edits edit ih =>
      rw [ofEdits_append, get?_apply, ih, List.filterMap_append]
      cases hMove : edit.moveFor? key with
      | none => rw [List.filterMap_cons_none hMove, List.filterMap_nil, List.append_nil]
      | some move =>
          rw [List.filterMap_cons_some hMove, List.filterMap_nil, Discovery.distinct_append]
          simp only [Discovery.mem_distinct, Discovery.newcomers]
          split
          · rw [List.append_nil]
          · rfl

theorem Draft.mem_table_apply (draft : Draft) (edit : Edit) (key : Key) :
    key ∈ (draft.apply edit).table.getD ∅ ↔
      key ∈ draft.table.getD ∅ ∨ ∃ move, .transition key move = edit := by
  cases edit with
  | transition source move =>
      rw [apply, Option.getD_some, addMove, SortedMap.mem_iff, SortedMap.get?_alter]
      by_cases hKey : key = source
      · simp [hKey]
      · simp [hKey, SortedMap.mem_iff]
  | _ => simp [apply]

/-- A key is in the table if a move was given for it. -/
theorem Draft.mem_table_ofEdits : key ∈ (ofEdits edits).table.getD ∅ ↔
    ∃ move, .transition key move ∈ edits := by
  induction edits using List.reverseRecOn with
  | nil => simp [ofEdits, SortedMap.mem_iff]
  | append_singleton edits edit ih =>
      rw [ofEdits_append, mem_table_apply, ih]
      simp only [List.mem_append, List.mem_singleton, exists_or]

/-! Complete descriptions. -/

def draft (p : Pda) : Draft where
  alphabet := some p.alphabet
  stackAlphabet := some p.stackAlphabet
  initialItem := some p.initialItem
  states := some p.states
  start := some p.start
  table := some p.table
  acceptance := some p.acceptance
  stepLimit := p.stepLimit

theorem has_draft (part : Part) : p.draft.has part = true := by
  cases part <;> rfl

/-- The parts of an automaton are those that edits give. -/
structure DescribedBy (p : Pda) (edits : List Edit) : Prop where
  part (part : Part) : ∃ edit ∈ edits, edit.part? = some part
  alphabet : given Edit.alphabet? edits = some p.alphabet
  stackAlphabet : given Edit.stackAlphabet? edits = some p.stackAlphabet
  initialItem : given Edit.initialItem? edits = some p.initialItem
  states : given Edit.states? edits = some p.states
  start : given Edit.start? edits = some p.start
  acceptance : given Edit.acceptance? edits = some p.acceptance
  mem_table : ∀ key, key ∈ p.table ↔ ∃ move, .transition key move ∈ edits
  moves_eq : ∀ key moves, p.table.get? key = some moves →
    moves = Discovery.distinct (movesGiven edits key)

/-- A part of a complete description is what was given last. -/
theorem given_eq (value : Draft → Option α) {value? : Edit → Option α} (hEmpty : value {} = none)
    (hApply : ∀ draft edit, value (draft.apply edit) = (value? edit).or (value draft))
    (hDraft : p.draft = Draft.ofEdits edits) : given value? edits = value p.draft := by
  rw [hDraft, Draft.eq_given value hEmpty hApply]

/-- What a complete description holds in the end has been given by edits. -/
theorem describedBy_of_draft_eq (hDraft : p.draft = Draft.ofEdits edits) :
    p.DescribedBy edits where
  part part := by rw [← Draft.has_ofEdits, ← hDraft, has_draft]
  alphabet := given_eq Draft.alphabet rfl (by rintro _ ⟨⟩ <;> rfl) hDraft
  stackAlphabet := given_eq Draft.stackAlphabet rfl (by rintro _ ⟨⟩ <;> rfl) hDraft
  initialItem := given_eq Draft.initialItem rfl (by rintro _ ⟨⟩ <;> rfl) hDraft
  states := given_eq Draft.states rfl (by rintro _ ⟨⟩ <;> rfl) hDraft
  start := given_eq Draft.start rfl (by rintro _ ⟨⟩ <;> rfl) hDraft
  acceptance := given_eq Draft.acceptance rfl (by rintro _ ⟨⟩ <;> rfl) hDraft
  mem_table key := by
    rw [← Draft.mem_table_ofEdits, ← hDraft]
    rfl
  moves_eq key moves hGet := by
    rw [← Draft.get?_ofEdits, ← hDraft]
    change moves = (p.table.get? key).getD []
    rw [hGet, Option.getD_some]

/-- The first part that is missing is reported. If none is, then the automaton of the given parts is
validated. -/
theorem Draft.build_outcomes (draft : Draft) (deterministic : Bool) :
    (∃ part, draft.has part = false ∧
      (∀ before : Part, before.position < part.position → draft.has before = true) ∧
      draft.build deterministic = .error (.missingArgument part.name)) ∨
    ∃ p : Pda, p.draft = draft ∧ p.deterministic = deterministic ∧
      draft.build deterministic = p.validate := by
  obtain ⟨alphabet, stackAlphabet, initialItem, states, start, table, acceptance, stepLimit⟩ := draft
  cases alphabet with
  | none => exact Or.inl ⟨.alphabet, rfl, by rintro ⟨⟩ <;> simp [Part.position, has], rfl⟩
  | some alphabet =>
  cases stackAlphabet with
  | none => exact Or.inl ⟨.stackAlphabet, rfl, by rintro ⟨⟩ <;> simp [Part.position, has], rfl⟩
  | some stackAlphabet =>
  cases initialItem with
  | none => exact Or.inl ⟨.initialItem, rfl, by rintro ⟨⟩ <;> simp [Part.position, has], rfl⟩
  | some initialItem =>
  cases states with
  | none => exact Or.inl ⟨.states, rfl, by rintro ⟨⟩ <;> simp [Part.position, has], rfl⟩
  | some states =>
  cases start with
  | none => exact Or.inl ⟨.start, rfl, by rintro ⟨⟩ <;> simp [Part.position, has], rfl⟩
  | some start =>
  cases table with
  | none => exact Or.inl ⟨.table, rfl, by rintro ⟨⟩ <;> simp [Part.position, has], rfl⟩
  | some table =>
  cases acceptance with
  | none => exact Or.inl ⟨.acceptance, rfl, by rintro ⟨⟩ <;> simp [Part.position, has], rfl⟩
  | some acceptance =>
  exact Or.inr ⟨⟨alphabet, stackAlphabet, initialItem, states, start, acceptance, table,
    deterministic, stepLimit⟩, rfl, rfl, rfl⟩

/-- An automaton that is built has the parts that were given, and is well formed. -/
theorem Draft.of_build {draft : Draft} {deterministic : Bool}
    (hBuild : draft.build deterministic = .ok p) :
    p.draft = draft ∧ p.deterministic = deterministic ∧ p.WellFormed := by
  rcases draft.build_outcomes deterministic with ⟨part, _, _, hMissing⟩ | ⟨q, hDraft, hKind, hValid⟩
  · cases hMissing.symm.trans hBuild
  · obtain ⟨hWellFormed, rfl⟩ := validate_eq_ok_iff.mp (hValid.symm.trans hBuild)
    exact ⟨hDraft, hKind, hWellFormed⟩

/-- Of a move that is given several times, only the first counts for the order. -/
theorem moves_of_build {deterministic : Bool}
    (hBuild : (Draft.ofEdits edits).build deterministic = .ok p) (state : String)
    (symbol : Option Char) (pop : Char) :
    p.moves state symbol pop =
      Discovery.distinct (edits.filterMap (Edit.moveFor? (state, symbol, pop))) := by
  rw [← Draft.get?_ofEdits, ← (Draft.of_build hBuild).1]
  rfl

end Acceptors.Pda
