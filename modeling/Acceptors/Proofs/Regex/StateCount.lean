import Acceptors.Proofs.Nfa.History

/-! The number of states of compiled expressions. Every construction keeps the states of its parts
apart, whatever names they start from, so that the states are those of the characters. A star has a
state of its own exactly if the language of its operand lacks the empty word. -/
namespace Acceptors.Regex

open Computability

variable {alphabet : Alphabet} {phrase : Phrase} {t : Tree} {text : List Char} {r : Regex}

/-! The trees that describe the empty word. -/

/-- Whether a tree describes the empty word, read off the tree. -/
def Tree.nullable : Tree → Bool
  | atom (.symbol _) => false
  | atom .emptySet => false
  | atom .emptyWord => true
  | star _ => true
  | binary .union left right => left.nullable || right.nullable
  | binary .concatenation left right => left.nullable && right.nullable

/-- Whether a tree describes the empty word can be computed without its language. -/
theorem Tree.nullable_iff : t.nullable = true ↔ [] ∈ t.language := by
  induction t with
  | atom a =>
      cases a with
      | symbol c =>
          have hWord : [] ∉ (Atom.symbol c).language := (List.cons_ne_nil c []).symm
          exact iff_of_false Bool.false_ne_true hWord
      | emptySet => exact iff_of_false Bool.false_ne_true (Language.notMem_zero [])
      | emptyWord => exact iff_of_true rfl Language.nil_mem_one
  | star t => exact iff_of_true rfl (Language.nil_mem_kstar _)
  | binary o t u ihLeft ihRight =>
      cases o with
      | union =>
          rw [nullable, Bool.or_eq_true, ihLeft, ihRight, language, Language.mem_add]
      | concatenation =>
          rw [nullable, Bool.and_eq_true, ihLeft, ihRight, language, Language.mem_mul]
          simp

instance (t : Tree) : Decidable ([] ∈ t.language) := decidable_of_iff _ Tree.nullable_iff

/-! The states of a tree. -/

def Atom.stateCount : Atom → Nat
  | symbol _ => 2
  | emptySet => 0
  | emptyWord => 1

def Tree.stateCount : Tree → Nat
  | atom a => a.stateCount
  | star operand => operand.stateCount + if [] ∈ operand.language then 0 else 1
  | binary _ left right => left.stateCount + right.stateCount

/-- What a star asks of the automaton of its operand can be seen from the tree. -/
theorem Tree.acceptsEmptyWord_automaton (hOver : t.Over alphabet) :
    (t.automaton alphabet).acceptsEmptyWord = true ↔ [] ∈ t.language := by
  rw [← Tree.language_automaton hOver, Nfa.acceptsEmptyWord_iff]

/-- No state of a part is lost in the whole. -/
theorem Tree.size_automaton (hOver : t.Over alphabet) :
    (t.automaton alphabet).states.size = t.stateCount := by
  induction t with
  | atom a => cases a <;> rfl
  | star t ih =>
      have hEmpty := Tree.acceptsEmptyWord_automaton (t := t) hOver
      rw [automaton, Nfa.size_star, ih hOver, stateCount]
      simp only [hEmpty]
  | binary o t u ihLeft ihRight =>
      cases o with
      | union => rw [automaton, Nfa.size_union, ihLeft hOver.1, ihRight hOver.2, stateCount]
      | concatenation =>
          rw [automaton, Nfa.size_concat, ihLeft hOver.1, ihRight hOver.2, stateCount]

/-! The characters of a spelling. -/

/-- The operands of all stars, in the order of the stars. -/
def Tree.repeated : Tree → List Tree
  | atom _ => []
  | star operand => operand.repeated ++ [operand]
  | binary _ left right => left.repeated ++ right.repeated

/-- The number of stars whose operand does not describe the empty word. -/
def Tree.addedCount (t : Tree) : Nat :=
  t.repeated.countP fun operand => decide ([] ∉ operand.language)

/-- A star adds one state or none. -/
theorem Tree.addedCount_le (t : Tree) : t.addedCount ≤ t.repeated.length :=
  List.countP_le_length

theorem Tree.addedCount_star (t : Tree) :
    (star t).addedCount = t.addedCount + if [] ∈ t.language then 0 else 1 := by
  rw [addedCount, repeated, List.countP_append, List.countP_singleton, ← addedCount]
  by_cases hEmpty : [] ∈ t.language <;> simp [hEmpty]

theorem Tree.addedCount_binary (o : Operator) (t u : Tree) :
    (binary o t u).addedCount = t.addedCount + u.addedCount :=
  List.countP_append

def symbolCount (alphabet : Alphabet) (text : List Char) : Nat :=
  text.countP fun c => decide (c ∈ alphabet)

theorem symbolCount_append (text other : List Char) :
    symbolCount alphabet (text ++ other) = symbolCount alphabet text + symbolCount alphabet other :=
  List.countP_append

section Spelling

variable (hAlphabet : ∀ c ∈ alphabet, c ∉ reservedSymbols)
include hAlphabet

/-- Reserved symbols are in no alphabet. -/
theorem symbolCount_cons_reserved {c : Char} (hc : c ∈ reservedSymbols) (text : List Char) :
    symbolCount alphabet (c :: text) = symbolCount alphabet text := by
  have hNot : c ∉ alphabet := fun hIn => hAlphabet c hIn hc
  simp [symbolCount, hNot]

theorem ne_of_mem_alphabet {c d : Char} (hc : c ∈ alphabet) (hd : d ∈ reservedSymbols) : c ≠ d := by
  rintro rfl
  exact hAlphabet c hc hd

/-- A character is a symbol, the sign of the empty word or a star, or none of these. -/
theorem counts_le_length (text : List Char) :
    symbolCount alphabet text + text.count 'ε' + text.count '*' ≤ text.length := by
  induction text with
  | nil => simp [symbolCount]
  | cons c text ih =>
      have hSign : c ∈ alphabet → c ≠ 'ε' := fun hc => ne_of_mem_alphabet hAlphabet hc (by decide)
      have hStar : c ∈ alphabet → c ≠ '*' := fun hc => ne_of_mem_alphabet hAlphabet hc (by decide)
      simp only [symbolCount, List.countP_cons, List.count_cons, List.length_cons] at ih ⊢
      grind

/-- Each star of a spelling has one operand. -/
theorem Spells.length_repeated (hSpells : Spells alphabet phrase t text) :
    t.repeated.length = text.count '*' := by
  induction hSpells with
  | symbol hc =>
      have hStar := ne_of_mem_alphabet hAlphabet hc (d := '*') (by decide)
      simp [Tree.repeated, hStar]
  | emptySet | emptyWord => rfl
  | group _ ih => simp [ih]
  | once _ ih | factor _ ih | summand _ ih => exact ih
  | star _ ih => simp [Tree.repeated, ih]
  | juxtapose _ _ ihLeft ihRight | concatenate _ _ ihLeft ihRight | unite _ _ ihLeft ihRight =>
      simp [Tree.repeated, ihLeft, ihRight]

/-- The states of a tree, by the characters of a spelling. -/
theorem Spells.stateCount_eq (hSpells : Spells alphabet phrase t text) :
    t.stateCount = 2 * symbolCount alphabet text + text.count 'ε' + t.addedCount := by
  have hReserved : ∀ {c : Char}, c ∈ reservedSymbols → ∀ text,
      symbolCount alphabet (c :: text) = symbolCount alphabet text :=
    symbolCount_cons_reserved hAlphabet
  induction hSpells with
  | @symbol c hc =>
      have hSign : c ≠ 'ε' := ne_of_mem_alphabet hAlphabet hc (by decide)
      simp [Tree.stateCount, Atom.stateCount, Tree.addedCount, Tree.repeated, symbolCount, hc,
        hSign]
  | emptySet =>
      rw [hReserved (by decide)]
      rfl
  | emptyWord =>
      rw [hReserved (by decide)]
      rfl
  | group _ ih =>
      rw [List.cons_append, hReserved (by decide), symbolCount_append, hReserved (by decide), ih]
      simp [symbolCount]
  | once _ ih | factor _ ih | summand _ ih => exact ih
  | star _ ih =>
      rw [Tree.stateCount, Tree.addedCount_star, symbolCount_append, hReserved (by decide), ih]
      simp [symbolCount]
      omega
  | juxtapose _ _ ihLeft ihRight =>
      rw [Tree.stateCount, Tree.addedCount_binary, symbolCount_append, ihLeft, ihRight]
      simp
      omega
  | concatenate _ _ ihLeft ihRight | unite _ _ ihLeft ihRight =>
      rw [Tree.stateCount, Tree.addedCount_binary, symbolCount_append, hReserved (by decide),
        ihLeft, ihRight]
      simp
      omega

end Spelling

theorem Spells.automaton_eq (hSpells : Spells r.alphabet phrase t r.expression.toList) :
    r.automaton = .ok (t.automaton r.alphabet) := by
  rw [automaton, hSpells.tree_eq]
  rfl

/-- The automaton of an expression has two states for each symbol, one for each sign of the empty
word, and one for each star of which the operand in the tree of the expression does not describe the
empty word. So it has at most two states for each character. -/
theorem automaton_states_counted {n : Nfa} (hAutomaton : r.automaton = .ok n) :
    ∃ t, (∀ u, Spells r.alphabet .union u r.expression.toList ↔ u = t) ∧
      t.repeated.length = r.expression.toList.count '*' ∧
      n.states.size =
        2 * r.expression.toList.countP (fun c => decide (c ∈ r.alphabet)) +
          r.expression.toList.count 'ε' +
          t.repeated.countP (fun operand => decide ([] ∉ operand.language)) ∧
      n.states.size ≤ 2 * r.expression.length := by
  obtain ⟨t, hSpells, rfl⟩ := exists_spells_of_automaton hAutomaton
  have hAlphabet := r.symbol_not_reserved
  have hUnique : ∀ u, Spells r.alphabet .union u r.expression.toList ↔ u = t := by
    intro u
    constructor
    · intro hOther
      exact hOther.tree_unique hAlphabet hSpells
    · rintro rfl
      exact hSpells
  have hStars := hSpells.length_repeated hAlphabet
  have hSize := Tree.size_automaton hSpells.tree_over
  rw [hSpells.stateCount_eq hAlphabet] at hSize
  refine ⟨t, hUnique, hStars, hSize, ?_⟩
  have hLength := counts_le_length hAlphabet r.expression.toList
  have hAdded := t.addedCount_le
  rw [String.length_toList] at hLength
  omega

/-- Two of the four stars have a state of their own: the one over a group of letters and the one
over the empty set. What the other two repeat describes the empty word already. -/
theorem automaton_states_counted_stars :
    ∃ r n, ofText (Alphabet.ofString "ab") "((a∪b)*)*ε*∪∅*b" = .ok r ∧ r.automaton = .ok n ∧
      n.states.size = 9 := by
  have hAlphabet : ∀ c ∈ Alphabet.ofString "ab", c ∉ reservedSymbols := by
    simp [reservedSymbols]
  have ha : 'a' ∈ Alphabet.ofString "ab" := by decide
  have hb : 'b' ∈ Alphabet.ofString "ab" := by decide
  have hLetters := Spells.group (.unite (.summand (.factor (.once (.symbol ha))))
    (.factor (.once (.symbol hb))))
  have hNested := Spells.star (.once (.group (.summand (.factor (.star (.once hLetters))))))
  have hFirst := Spells.juxtapose (.factor hNested) (.star (.once .emptyWord))
  have hLast := Spells.juxtapose (.factor (.star (.once .emptySet))) (.once (.symbol hb))
  have hSpells : Spells (Alphabet.ofString "ab") .union _ "((a∪b)*)*ε*∪∅*b".toList :=
    .unite (.summand hFirst) hLast
  obtain ⟨r, hText⟩ : ∃ r, ofText (Alphabet.ofString "ab") "((a∪b)*)*ε*∪∅*b" = .ok r :=
    ⟨_, ofText_eq_ok hAlphabet hSpells.known⟩
  obtain ⟨hSame, hExpression⟩ := eq_of_ofText hText
  rw [← hSame, ← hExpression] at hSpells
  obtain ⟨t, hTree, _, hSize, _⟩ := automaton_states_counted hSpells.automaton_eq
  obtain rfl := (hTree _).mp hSpells
  refine ⟨r, _, hText, hSpells.automaton_eq, ?_⟩
  rw [hSize, hSame, hExpression]
  rfl

end Acceptors.Regex
