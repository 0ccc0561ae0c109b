import Acceptors.Proofs.Nfa.Path

/-! The automata that have no parts: of one symbol, of no word, and of the empty word. -/
namespace Acceptors.Nfa

variable {alphabet : Alphabet} {a : Char}

theorem get?_symbol_table (key : String × Char) :
    (symbol alphabet a).table.get? key =
      if key = ("s0", a) then some (SortedSet.ofList ["s1"]) else none :=
  SortedMap.get?_insert

theorem eq_of_mem_symbol_table {key : String × Char} (hKey : key ∈ (symbol alphabet a).table) :
    key = ("s0", a) := by
  rw [SortedMap.mem_iff, get?_symbol_table] at hKey
  by_contra hOther
  rw [if_neg hOther] at hKey
  cases hKey

/-- The only transition leads from the start state to the accept state. -/
theorem mem_symbol_targets {q r : String} {b : Char} :
    r ∈ (symbol alphabet a).targets q b ↔ q = "s0" ∧ b = a ∧ r = "s1" := by
  rw [targets, get?_symbol_table]
  by_cases hKey : (q, b) = ("s0", a)
  · obtain ⟨rfl, rfl⟩ := Prod.mk.inj hKey
    simp
  · rw [if_neg hKey]
    rw [Prod.mk.injEq] at hKey
    simp only [Option.getD_none, SortedSet.not_mem_empty, false_iff]
    intro hAll
    exact hKey ⟨hAll.1, hAll.2.1⟩

/-- The states are declared, whatever the symbol is. -/
theorem declared_symbol : (symbol alphabet a).Declared where
  start_mem q hq := by
    simp only [symbol, SortedSet.mem_ofList, List.mem_cons] at hq ⊢
    exact hq.imp_right fun hNil => absurd hNil List.not_mem_nil
  accept_mem q hq := by
    simp only [symbol, SortedSet.mem_ofList, List.mem_cons] at hq ⊢
    exact Or.inr hq
  source_mem q b hKey := by
    obtain ⟨rfl, rfl⟩ := Prod.mk.inj (eq_of_mem_symbol_table hKey)
    exact SortedSet.mem_ofList.mpr List.mem_cons_self
  target_mem q b targets hGet r hr := by
    have hTarget : r ∈ (symbol alphabet a).targets q b := mem_targets.mpr ⟨targets, hGet, hr⟩
    obtain ⟨_, _, rfl⟩ := mem_symbol_targets.mp hTarget
    simp [symbol]

/-- Only that the symbol is in the alphabet has to be asked for. -/
theorem wellFormed_symbol (ha : a ∈ alphabet) : (symbol alphabet a).WellFormed where
  toDeclared := declared_symbol
  symbol_mem q b hKey := by
    obtain ⟨rfl, rfl⟩ := Prod.mk.inj (eq_of_mem_symbol_table hKey)
    exact ha

/-- A path stays where it is or takes the only transition. -/
theorem symbol_path_iff {q r : String} {word : Word} :
    (symbol alphabet a).Path q word r ↔
      (word = [] ∧ q = r) ∨ (word = [a] ∧ q = "s0" ∧ r = "s1") := by
  constructor
  · intro path
    cases path with
    | nil => exact Or.inl ⟨rfl, rfl⟩
    | cons first rest =>
        obtain ⟨rfl, rfl, rfl⟩ := mem_symbol_targets.mp first
        cases rest with
        | nil => exact Or.inr ⟨rfl, rfl, rfl⟩
        | cons second _ =>
            have hSource := (mem_symbol_targets.mp second).1
            exact absurd hSource (by decide)
  · intro hPath
    rcases hPath with ⟨rfl, rfl⟩ | ⟨rfl, rfl, rfl⟩
    · exact .nil q
    · exact .cons (mem_symbol_targets.mpr ⟨rfl, rfl, rfl⟩) (.nil "s1")

/-- Paths spell the symbol and nothing else, also where the alphabet lacks it. -/
theorem language_symbol : (symbol alphabet a).language = {[a]} := by
  ext word
  constructor
  · intro hWord
    obtain ⟨q, hq, r, hr, path⟩ := hWord
    obtain rfl := List.mem_singleton.mp (SortedSet.mem_ofList.mp hq)
    obtain rfl := List.mem_singleton.mp (SortedSet.mem_ofList.mp hr)
    rcases symbol_path_iff.mp path with ⟨_, hSame⟩ | ⟨hWord, _⟩
    · exact absurd hSame (by decide)
    · exact hWord
  · intro hWord
    have hStart : "s0" ∈ (symbol alphabet a).start := SortedSet.mem_ofList.mpr List.mem_cons_self
    have hAccept : "s1" ∈ (symbol alphabet a).accept := SortedSet.mem_ofList.mpr List.mem_cons_self
    exact ⟨"s0", hStart, "s1", hAccept, symbol_path_iff.mpr (Or.inr ⟨hWord, rfl, rfl⟩)⟩

theorem wellFormed_emptySet : (emptySet alphabet).WellFormed where
  start_mem _ hq := hq
  accept_mem _ hq := hq
  source_mem _ _ hKey := by cases hKey
  target_mem _ _ _ hGet := by cases hGet
  symbol_mem _ _ hKey := by cases hKey

/-- Nothing is accepted where there are no states. -/
theorem language_emptySet : (emptySet alphabet).language = 0 := by
  ext word
  constructor
  · intro hWord
    obtain ⟨q, hq, _⟩ := hWord
    exact absurd hq (SortedSet.not_mem_empty q)
  · intro hWord
    exact absurd hWord (Language.notMem_zero word)

theorem wellFormed_emptyWord : (emptyWord alphabet).WellFormed where
  start_mem _ hq := hq
  accept_mem _ hq := hq
  source_mem _ _ hKey := by cases hKey
  target_mem _ _ _ hGet := by cases hGet
  symbol_mem _ _ hKey := by cases hKey

/-- The start state accepts, and nothing leads away from it. -/
theorem language_emptyWord : (emptyWord alphabet).language = 1 := by
  ext word
  rw [Language.mem_one]
  constructor
  · intro hWord
    obtain ⟨q, _, r, _, path⟩ := hWord
    cases path with
    | nil => rfl
    | cons first _ => exact absurd first (SortedSet.not_mem_empty _)
  · rintro rfl
    have hState : "s0" ∈ SortedSet.ofList ["s0"] := SortedSet.mem_ofList.mpr List.mem_cons_self
    exact ⟨"s0", hState, "s0", hState, .nil "s0"⟩

end Acceptors.Nfa
