import Acceptors.Nfa.Combination
import Acceptors.Proofs.Nfa.Renaming

/-! The tables that combinations of automata are made of: two tables side by side, and tables
in which accept states repeat the entries of start states. -/
namespace Acceptors.Nfa

variable {n m part : Nfa} {table : SortedMap (String × Char) (SortedSet String)}
  {q r : String} {a : Char}

def targetsIn (table : SortedMap (String × Char) (SortedSet String)) (state : String)
    (a : Char) : SortedSet String :=
  (table.get? (state, a)).getD ∅

theorem mem_targetsIn_of_get? {targets : SortedSet String}
    (hGet : table.get? (q, a) = some targets) (hr : r ∈ targets) : r ∈ targetsIn table q a := by
  rwa [targetsIn, hGet]

/-- An automaton is declared if the states at both ends of its transitions are. -/
theorem declared_of_targets (hStart : ∀ q ∈ n.start, q ∈ n.states)
    (hAccept : ∀ q ∈ n.accept, q ∈ n.states) (hSource : ∀ q a, (q, a) ∈ n.table → q ∈ n.states)
    (hTarget : ∀ q a, ∀ r ∈ n.targets q a, r ∈ n.states) : n.Declared :=
  ⟨hStart, hAccept, hSource, fun q a _ hGet r hr => hTarget q a r (mem_targetsIn_of_get? hGet hr)⟩

/-- Adding targets for a key adds this key and no other. -/
theorem mem_addTargets {key k : String × Char} {added : SortedSet String} :
    k ∈ addTargets table key added ↔ k = key ∨ k ∈ table := by
  rw [SortedMap.mem_iff, addTargets, SortedMap.get?_alter]
  by_cases hk : k = key
  · simp [hk]
  · simp [hk, SortedMap.mem_iff]

/-- Targets that are added join those that are there already. -/
theorem mem_targetsIn_addTargets {key : String × Char} {added : SortedSet String} :
    r ∈ targetsIn (addTargets table key added) q a ↔
      ((q, a) = key ∧ r ∈ added) ∨ r ∈ targetsIn table q a := by
  rw [targetsIn, addTargets, SortedMap.get?_alter]
  by_cases hKey : (q, a) = key
  · rw [if_pos hKey, Option.getD_some, SortedSet.mem_union, ← hKey]
    simp [targetsIn]
  · simp [hKey, targetsIn]

/-- A table in which one state has been given the entries of others. -/
def graftRow (table : SortedMap (String × Char) (SortedSet String))
    (entries : List ((String × Char) × SortedSet String)) (source : String) :
    SortedMap (String × Char) (SortedSet String) :=
  entries.foldl (fun table entry => addTargets table (source, entry.1.2) entry.2) table

/-- A state that is given entries goes on as before, and by each of these entries on its symbol. -/
theorem mem_targetsIn_graftRow {entries : List ((String × Char) × SortedSet String)}
    {source : String} :
    r ∈ targetsIn (graftRow table entries source) q a ↔
      r ∈ targetsIn table q a ∨ (q = source ∧ ∃ entry ∈ entries, entry.1.2 = a ∧ r ∈ entry.2) := by
  induction entries generalizing table with
  | nil => simp [graftRow]
  | cons entry entries ih =>
      rw [graftRow, List.foldl_cons, ← graftRow, ih, mem_targetsIn_addTargets]
      simp only [Prod.mk.injEq, List.exists_mem_cons_iff, @eq_comm _ a]
      tauto

/-- The keys that are new are those of one state and of the symbols of the entries it is given. -/
theorem mem_graftRow {entries : List ((String × Char) × SortedSet String)} {source : String}
    {k : String × Char} (hk : k ∈ graftRow table entries source) :
    k ∈ table ∨ (k.1 = source ∧ ∃ entry ∈ entries, entry.1.2 = k.2) := by
  induction entries generalizing table with
  | nil => exact Or.inl hk
  | cons entry entries ih =>
      rw [graftRow, List.foldl_cons, ← graftRow] at hk
      simp only [List.exists_mem_cons_iff]
      rcases ih hk with hOld | ⟨hSource, hEntry⟩
      · rcases mem_addTargets.mp hOld with rfl | hOld
        · exact Or.inr ⟨rfl, Or.inl rfl⟩
        · exact Or.inl hOld
      · exact Or.inr ⟨hSource, Or.inr hEntry⟩

def startEntries (part : Nfa) (alphabet : Alphabet) :
    List ((String × Char) × SortedSet String) :=
  part.table.entries.filter fun entry =>
    decide (entry.1.1 ∈ part.start) && decide (entry.1.2 ∈ alphabet)

theorem mem_startEntries {alphabet : Alphabet} {entry : (String × Char) × SortedSet String} :
    entry ∈ startEntries part alphabet ↔
      part.table.get? entry.1 = some entry.2 ∧ entry.1.1 ∈ part.start ∧ entry.1.2 ∈ alphabet := by
  rw [startEntries, List.mem_filter, ← SortedMap.mem_entries_iff, Bool.and_eq_true,
    decide_eq_true_eq, decide_eq_true_eq]

/-- What is grafted are the transitions from start states on the symbols of the alphabet. -/
theorem exists_startEntry_iff {alphabet : Alphabet} :
    (∃ entry ∈ startEntries part alphabet, entry.1.2 = a ∧ r ∈ entry.2) ↔
      a ∈ alphabet ∧ ∃ s ∈ part.start, r ∈ part.targets s a := by
  constructor
  · intro hEntry
    obtain ⟨⟨⟨s, b⟩, targets⟩, hIn, rfl, hr⟩ := hEntry
    obtain ⟨hGet, hs, hb⟩ := mem_startEntries.mp hIn
    exact ⟨hb, s, hs, mem_targets.mpr ⟨targets, hGet, hr⟩⟩
  · intro hTarget
    obtain ⟨ha, s, hs, hr⟩ := hTarget
    obtain ⟨targets, hGet, hr⟩ := mem_targets.mp hr
    exact ⟨((s, a), targets), mem_startEntries.mpr ⟨hGet, hs, ha⟩, rfl, hr⟩

/-- The sources are given the entries one after another. -/
theorem graft_eq_foldl (sources : SortedSet String) (alphabet : Alphabet) :
    graft table sources part alphabet =
      sources.toList.foldl (fun table source =>
        graftRow table (startEntries part alphabet) source) table := rfl

/-- Sources that are given the entries go on like a start state, all others as before. -/
theorem mem_targetsIn_foldl_graftRow {alphabet : Alphabet} {l : List String} :
    r ∈ targetsIn (l.foldl (fun table source =>
        graftRow table (startEntries part alphabet) source) table) q a ↔
      r ∈ targetsIn table q a ∨
        (q ∈ l ∧ a ∈ alphabet ∧ ∃ s ∈ part.start, r ∈ part.targets s a) := by
  induction l generalizing table with
  | nil => simp
  | cons source l ih =>
      rw [List.foldl_cons, ih, mem_targetsIn_graftRow, exists_startEntry_iff, List.mem_cons,
        or_and_right, or_assoc]

/-- After grafting, the sources also have the transitions of the start states of the part, for
the symbols of the alphabet. -/
theorem mem_targetsIn_graft {sources : SortedSet String} {alphabet : Alphabet} :
    r ∈ targetsIn (graft table sources part alphabet) q a ↔
      r ∈ targetsIn table q a ∨
        (q ∈ sources ∧ a ∈ alphabet ∧ ∃ s ∈ part.start, r ∈ part.targets s a) := by
  rw [graft_eq_foldl]
  exact mem_targetsIn_foldl_graftRow

/-- Nothing of a well-formed part is left out if the alphabet includes that of the part. -/
theorem WellFormed.mem_targetsIn_graft_iff (hPart : part.WellFormed)
    {sources : SortedSet String} {alphabet : Alphabet}
    (hIncluded : ∀ a ∈ part.alphabet, a ∈ alphabet) :
    r ∈ targetsIn (graft table sources part alphabet) q a ↔
      r ∈ targetsIn table q a ∨ (q ∈ sources ∧ ∃ s ∈ part.start, r ∈ part.targets s a) := by
  rw [mem_targetsIn_graft]
  have hSymbol : (∃ s ∈ part.start, r ∈ part.targets s a) → a ∈ alphabet := by
    intro hTarget
    obtain ⟨s, _, hr⟩ := hTarget
    exact hIncluded a (hPart.symbol_mem_alphabet hr)
  rw [and_iff_right_of_imp hSymbol]

theorem mem_foldl_graftRow {alphabet : Alphabet} {k : String × Char} {l : List String}
    (hk : k ∈ l.foldl (fun table source =>
      graftRow table (startEntries part alphabet) source) table) :
    k ∈ table ∨ (k.1 ∈ l ∧ k.2 ∈ alphabet) := by
  induction l generalizing table with
  | nil => exact Or.inl hk
  | cons source l ih =>
      rcases ih hk with hRow | ⟨hSource, ha⟩
      · rcases mem_graftRow hRow with hOld | ⟨hSource, entry, hEntry, hSymbol⟩
        · exact Or.inl hOld
        · have ha := (mem_startEntries.mp hEntry).2.2
          exact Or.inr ⟨List.mem_cons.mpr (Or.inl hSource), hSymbol ▸ ha⟩
      · exact Or.inr ⟨List.mem_cons_of_mem _ hSource, ha⟩

/-- A graft adds no keys but those of a source and a symbol of the alphabet. -/
theorem mem_graft {sources : SortedSet String} {alphabet : Alphabet} {k : String × Char}
    (hk : k ∈ graft table sources part alphabet) :
    k ∈ table ∨ (k.1 ∈ sources ∧ k.2 ∈ alphabet) := by
  rw [graft_eq_foldl] at hk
  exact mem_foldl_graftRow hk

/-! Two tables side by side. -/

theorem mem_beside {k : String × Char} (hk : k ∈ n.table.insertAll m.table.entries) :
    k ∈ n.table ∨ k ∈ m.table := by
  rw [SortedMap.mem_iff, SortedMap.get?_insertAll_entries, Option.isSome_or, Bool.or_eq_true]
    at hk
  exact hk.symm

theorem mem_targetsIn_beside (hr : r ∈ targetsIn (n.table.insertAll m.table.entries) q a) :
    r ∈ n.targets q a ∨ r ∈ m.targets q a := by
  rw [targetsIn, SortedMap.get?_insertAll_entries] at hr
  cases hGet : m.table.get? (q, a) with
  | none =>
      rw [hGet, Option.none_or] at hr
      exact Or.inl hr
  | some targets =>
      rw [hGet, Option.some_or] at hr
      exact Or.inr (mem_targetsIn_of_get? hGet hr)

/-- Nothing leads away from a state that is not declared. -/
theorem Declared.get?_eq_none (hn : n.Declared) (hq : q ∉ n.states) :
    n.table.get? (q, a) = none := by
  cases hGet : n.table.get? (q, a) with
  | none => rfl
  | some targets => exact absurd (hn.source_mem q a (SortedMap.mem_of_get?_eq_some hGet)) hq

/-- Where the states are distinct, no entry of the one table replaces an entry of the other. -/
theorem targetsIn_beside_left (hm : m.Declared) (hq : q ∉ m.states) :
    targetsIn (n.table.insertAll m.table.entries) q a = n.targets q a := by
  rw [targetsIn, SortedMap.get?_insertAll_entries, hm.get?_eq_none hq, Option.none_or]
  rfl

theorem targetsIn_beside_right (hn : n.Declared) (hq : q ∉ n.states) :
    targetsIn (n.table.insertAll m.table.entries) q a = m.targets q a := by
  rw [targetsIn, SortedMap.get?_insertAll_entries, hn.get?_eq_none hq, Option.or_none]
  rfl

end Acceptors.Nfa
