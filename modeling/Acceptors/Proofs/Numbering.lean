import Acceptors.Proofs.Name

/-! Names for texts that may repeat. Where no text ends in a digit, the first occurrence of a text is
named by the text itself, and each later one by the text and the number of occurrences before it: what
is counted can be read back from such a name, so that it is no other text and no other text's name. -/
namespace Acceptors.Name

variable {base other : String} {taken : SortedSet String} {texts : List String}

/-- A text that does not end in a digit. When it is in use, it is numbered as a whole. -/
def Unnumbered (base : String) : Prop := trailingDigits base.toList = []

/-- The name for a text that has occurred a number of times before. -/
def ofOccurrence (base : String) (earlier : Nat) : String :=
  if earlier = 0 then base else numbered base earlier

theorem ofOccurrence_zero (base : String) : ofOccurrence base 0 = base := if_pos rfl

theorem ofOccurrence_of_pos {earlier : Nat} (hPos : 0 < earlier) :
    ofOccurrence base earlier = numbered base earlier := if_neg (Nat.ne_of_gt hPos)

/-! Reading back the text and the number. -/

/-- Digits behind a text prolong the run of digits at its end. -/
theorem trailingDigits_append {digits : List Char} (hDigits : ∀ c ∈ digits, c.isDigit = true)
    (text : List Char) : trailingDigits (text ++ digits) = trailingDigits text ++ digits := by
  have hReverse : ∀ c ∈ digits.reverse, c.isDigit = true := by
    simpa only [List.mem_reverse] using hDigits
  rw [trailingDigits, List.reverse_append, List.takeWhile_append_of_pos hReverse,
    List.reverse_append, List.reverse_reverse, ← trailingDigits]

theorem stemChars_append {digits : List Char} (hDigits : ∀ c ∈ digits, c.isDigit = true)
    (text : List Char) : stemChars (text ++ digits) = stemChars text := by
  have hReverse : ∀ c ∈ digits.reverse, c.isDigit = true := by
    simpa only [List.mem_reverse] using hDigits
  rw [stemChars, List.reverse_append, List.dropWhile_append_of_pos hReverse, ← stemChars]

theorem isDigit_of_mem_toString {number : Nat} : ∀ c ∈ (toString number).toList, c.isDigit = true := by
  intro c hc
  change c ∈ (String.ofList (Nat.toDigits 10 number)).toList at hc
  rw [String.toList_ofList] at hc
  exact Nat.isDigit_of_mem_toDigits (by omega) (by omega) hc

theorem Unnumbered.stemChars_eq (hBase : Unnumbered base) : stemChars base.toList = base.toList := by
  have hSplit := stemChars_append_trailingDigits base.toList
  rwa [hBase, List.append_nil] at hSplit

/-- The text can be read back from the name of an occurrence. -/
theorem stemChars_ofOccurrence (hBase : Unnumbered base) (earlier : Nat) :
    stemChars (ofOccurrence base earlier).toList = base.toList := by
  rw [ofOccurrence]
  split
  · exact hBase.stemChars_eq
  · rw [numbered, String.toList_append, stemChars_append isDigit_of_mem_toString,
      hBase.stemChars_eq]

/-- The number of earlier occurrences can be read back from the name too. -/
theorem trailingDigits_ofOccurrence (hBase : Unnumbered base) (earlier : Nat) :
    Nat.ofDigitChars 10 (trailingDigits (ofOccurrence base earlier).toList) 0 = earlier := by
  rw [ofOccurrence]
  split
  · rename_i hZero
    rw [hBase, hZero]
    rfl
  · rw [numbered, String.toList_append, trailingDigits_append isDigit_of_mem_toString, hBase,
      List.nil_append, ofDigitChars_toString]

/-- Names of different texts, and names of different occurrences of a text, are different. -/
theorem ofOccurrence_inj (hBase : Unnumbered base) (hOther : Unnumbered other) {m n : Nat}
    (hSame : ofOccurrence base m = ofOccurrence other n) : base = other ∧ m = n := by
  constructor
  · rw [← String.toList_inj, ← stemChars_ofOccurrence hBase m, hSame, stemChars_ofOccurrence hOther]
  · rw [← trailingDigits_ofOccurrence hBase m, hSame, trailingDigits_ofOccurrence hOther]

/-! The search for a name. -/

/-- Without a digit at its end, a text is its own stem. -/
theorem Unnumbered.splitNumber_eq (hBase : Unnumbered base) : splitNumber base = (base, none) := by
  rw [splitNumber, hBase]
  exact if_pos (Or.inl rfl)

/-- If the candidates up to a number are in use and the next is not, then this is the one that is
found, or the search ends before it. -/
theorem firstFree?_eq {stem : String} {start number : Nat} (hStart : start ≤ number)
    (hTaken : ∀ i, start ≤ i → i < number → numbered stem i ∈ taken)
    (hFree : numbered stem number ∉ taken) (count : Nat) :
    firstFree? taken stem start count =
      if number < start + count then some (numbered stem number) else none := by
  rw [firstFree?]
  split
  · rename_i hCount
    rw [List.find?_range'_eq_some.mpr]
    · rfl
    · refine ⟨decide_eq_true hFree, List.mem_range'_1.mpr ⟨hStart, hCount⟩, ?_⟩
      intro i hFrom hBelow
      simpa using hTaken i hFrom hBelow
  · rename_i hCount
    rw [List.find?_range'_eq_none.mpr]
    · rfl
    · intro i hFrom hBelow
      simpa using hTaken i hFrom (by omega)

/-- The names in use are those of all occurrences of these texts. -/
def Names (taken : SortedSet String) (texts : List String) : Prop :=
  ∀ name, name ∈ taken ↔ ∃ text earlier, earlier < texts.count text ∧
    ofOccurrence text earlier = name

theorem names_nil : Names ∅ [] := by
  intro name
  simp

namespace Names

variable (hNames : Names taken texts)
include hNames

/-- Exactly the names of the occurrences so far are in use. -/
theorem ofOccurrence_mem_iff (hTexts : ∀ text ∈ texts, Unnumbered text) (hBase : Unnumbered base)
    {earlier : Nat} : ofOccurrence base earlier ∈ taken ↔ earlier < texts.count base := by
  rw [hNames]
  constructor
  · rintro ⟨text, number, hCount, hSame⟩
    have hText : text ∈ texts := List.count_pos_iff.mp (Nat.zero_lt_of_lt hCount)
    obtain ⟨rfl, rfl⟩ := ofOccurrence_inj (hTexts text hText) hBase hSame
    exact hCount
  · intro hCount
    exact ⟨base, earlier, hCount, rfl⟩

/-- The names of the occurrences of one text are different names in use. -/
theorem count_le_size (hTexts : ∀ text ∈ texts, Unnumbered text) (hBase : Unnumbered base) :
    texts.count base ≤ taken.size := by
  have hNodup : ((List.range (texts.count base)).map (ofOccurrence base)).Nodup :=
    List.nodup_range.map fun _ _ hSame => (ofOccurrence_inj hBase hBase hSame).2
  have hLength := SortedSet.length_le_size hNodup fun name hName => by
    obtain ⟨i, hi, rfl⟩ := List.mem_map.mp hName
    exact (hNames.ofOccurrence_mem_iff hTexts hBase).mpr (List.mem_range.mp hi)
  rwa [List.length_map, List.length_range] at hLength

/-- A fresh name for a text is the name of its next occurrence. -/
theorem fresh_eq (hTexts : ∀ text ∈ texts, Unnumbered text) (hBase : Unnumbered base) :
    fresh taken base = ofOccurrence base (texts.count base) := by
  have hUsed : ∀ i, ofOccurrence base i ∈ taken ↔ i < texts.count base := fun i =>
    hNames.ofOccurrence_mem_iff hTexts hBase
  have hFirst := hUsed 0
  rw [ofOccurrence_zero] at hFirst
  rw [fresh]
  by_cases hCount : 0 < texts.count base
  · rw [if_pos (hFirst.mpr hCount), hBase.splitNumber_eq, ofOccurrence_of_pos hCount]
    have hTaken : ∀ i, 1 ≤ i → i < texts.count base → numbered base i ∈ taken := by
      intro i hi hBelow
      rw [← ofOccurrence_of_pos hi]
      exact (hUsed i).mpr hBelow
    have hFree : numbered base (texts.count base) ∉ taken := by
      rw [← ofOccurrence_of_pos hCount, hUsed]
      exact Nat.lt_irrefl _
    -- The second search goes far enough.
    have hSize := hNames.count_le_size hTexts hBase
    dsimp only [Option.getD_none, Nat.zero_add]
    rw [firstFree?_eq hCount hTaken hFree, firstFree?_eq hCount hTaken hFree,
      if_pos (by omega : texts.count base < 1 + (taken.size + 1))]
    split <;> rfl
  · rw [if_neg fun hMem => hCount (hFirst.mp hMem), Nat.eq_zero_of_not_pos hCount,
      ofOccurrence_zero]

/-- The name of the next occurrence is the only one that is new. -/
theorem insert (base : String) :
    Names (taken.insert (ofOccurrence base (texts.count base))) (texts ++ [base]) := by
  intro name
  rw [SortedSet.mem_insert, hNames]
  constructor
  · rintro (rfl | ⟨text, earlier, hCount, rfl⟩)
    · exact ⟨base, texts.count base, by simp, rfl⟩
    · refine ⟨text, earlier, ?_, rfl⟩
      rw [List.count_append]
      omega
  · rintro ⟨text, earlier, hCount, rfl⟩
    rw [List.count_append, List.count_singleton] at hCount
    by_cases hNew : earlier < texts.count text
    · exact Or.inr ⟨text, earlier, hNew, rfl⟩
    · left
      have hText : base = text := by
        by_contra hOther
        rw [if_neg (by simpa using hOther)] at hCount
        omega
      subst hText
      rw [if_pos (beq_self_eq_true base)] at hCount
      rw [Nat.le_antisymm (Nat.le_of_lt_succ hCount) (Nat.le_of_not_lt hNew)]

/-- Of texts that are named one after another, each is named for its occurrence. -/
theorem getElem?_freshAll (hTexts : ∀ text ∈ texts, Unnumbered text) {before after : List String}
    (hBefore : ∀ text ∈ before, Unnumbered text) (hBase : Unnumbered base) :
    (freshAll taken (before ++ base :: after))[before.length]? =
      some (ofOccurrence base ((texts ++ before).count base)) := by
  induction before generalizing taken texts with
  | nil =>
      rw [List.nil_append, freshAll, hNames.fresh_eq hTexts hBase, List.append_nil]
      rfl
  | cons text before ih =>
      rw [List.forall_mem_cons] at hBefore
      rw [List.cons_append, freshAll, List.length_cons, List.getElem?_cons_succ,
        hNames.fresh_eq hTexts hBefore.1, List.append_cons texts text before]
      apply ih (hNames.insert text) _ hBefore.2
      exact List.forall_mem_append.mpr ⟨hTexts, List.forall_mem_singleton.mpr hBefore.1⟩

end Names

/-- Texts that are not in use and do not repeat keep their names, whatever they end in. -/
theorem freshAll_eq_self {bases : List String} (hNodup : bases.Nodup)
    (hFree : ∀ base ∈ bases, base ∉ taken) : freshAll taken bases = bases := by
  induction bases generalizing taken with
  | nil => rfl
  | cons base bases ih =>
      rw [List.nodup_cons] at hNodup
      rw [List.forall_mem_cons] at hFree
      have hFresh : fresh taken base = base := if_neg hFree.1
      rw [freshAll, hFresh, ih hNodup.2]
      intro other hOther hTaken
      rcases SortedSet.mem_insert.mp hTaken with rfl | hTaken
      · exact hNodup.1 hOther
      · exact hFree.2 other hOther hTaken

end Acceptors.Name
