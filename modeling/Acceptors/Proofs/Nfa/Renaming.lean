import Acceptors.Nfa.Renaming
import Acceptors.Proofs.Name
import Acceptors.Proofs.Nfa.Path

/-! Renaming that keeps the states of an automaton apart keeps its language, and the renaming
of a disjoint copy does keep them apart. -/
namespace Acceptors.Nfa

variable {n other : Nfa} {f : String → String}

section Rename

variable (hn : n.Declared) (hInj : Set.InjOn f {q | q ∈ n.states})
include hn hInj

/-- The table of a renamed automaton has the renamed entries. -/
theorem rename_get?_eq_some_iff {r : String} {a : Char} {targets : SortedSet String} :
    (n.rename f).table.get? (r, a) = some targets ↔
      ∃ q old, n.table.get? (q, a) = some old ∧ f q = r ∧ old.map f = targets := by
  have hEntry : ∀ k v, (k, v) ∈ (n.table.entries.map fun entry =>
      ((f entry.1.1, entry.1.2), entry.2.map f)) ↔
      ∃ q old, n.table.get? (q, k.2) = some old ∧ f q = k.1 ∧ old.map f = v := by
    intro k v
    rw [List.mem_map]
    constructor
    · intro hIn
      obtain ⟨⟨⟨q, b⟩, old⟩, hOld, hEq⟩ := hIn
      cases hEq
      exact ⟨q, old, SortedMap.mem_entries_iff.mp hOld, rfl, rfl⟩
    · intro hIn
      obtain ⟨q, old, hOld, hName, rfl⟩ := hIn
      exact ⟨((q, k.2), old), SortedMap.mem_entries_iff.mpr hOld, by rw [hName]⟩
  change (SortedMap.ofList _).get? (r, a) = _ ↔ _
  rw [SortedMap.get?_ofList_eq_some_iff, hEntry]
  intro k v w hv hw
  obtain ⟨p, first, hFirst, hp, rfl⟩ := (hEntry k v).mp hv
  obtain ⟨q, second, hSecond, hq, rfl⟩ := (hEntry k w).mp hw
  have hSame : p = q := hInj (hn.source_mem p _ (SortedMap.mem_of_get?_eq_some hFirst))
    (hn.source_mem q _ (SortedMap.mem_of_get?_eq_some hSecond)) (hp.trans hq.symm)
  subst hSame
  rw [Option.some.inj (hFirst.symm.trans hSecond)]

/-- From a renamed state, transitions lead to the renamed targets. -/
theorem mem_rename_targets {q r : String} {a : Char} (hq : q ∈ n.states) :
    r ∈ (n.rename f).targets (f q) a ↔ ∃ p ∈ n.targets q a, f p = r := by
  rw [mem_targets]
  constructor
  · intro hTarget
    obtain ⟨targets, hGet, hr⟩ := hTarget
    obtain ⟨s, old, hOld, hName, rfl⟩ := (rename_get?_eq_some_iff hn hInj).mp hGet
    have hSame : s = q := hInj (hn.source_mem s a (SortedMap.mem_of_get?_eq_some hOld)) hq hName
    subst hSame
    obtain ⟨p, hp, hTo⟩ := SortedSet.mem_map.mp hr
    exact ⟨p, mem_targets.mpr ⟨old, hOld, hp⟩, hTo⟩
  · intro hTarget
    obtain ⟨p, hp, rfl⟩ := hTarget
    obtain ⟨old, hOld, hIn⟩ := mem_targets.mp hp
    exact ⟨old.map f, (rename_get?_eq_some_iff hn hInj).mpr ⟨q, old, hOld, rfl, rfl⟩,
      SortedSet.mem_map.mpr ⟨p, hIn, rfl⟩⟩

/-- The paths of a renamed automaton are the renamed paths. -/
theorem rename_path_iff {q r : String} {word : Word} (hq : q ∈ n.states) :
    (n.rename f).Path (f q) word r ↔ ∃ p, n.Path q word p ∧ f p = r := by
  induction word generalizing q with
  | nil => simp
  | cons a word ih =>
      rw [Path.cons_iff]
      constructor
      · intro path
        obtain ⟨s, hs, rest⟩ := path
        obtain ⟨t, ht, rfl⟩ := (mem_rename_targets hn hInj hq).mp hs
        obtain ⟨p, old, hName⟩ := (ih (hn.target_mem_states ht)).mp rest
        exact ⟨p, .cons ht old, hName⟩
      · intro path
        obtain ⟨p, old, hName⟩ := path
        obtain ⟨t, ht, rest⟩ := Path.cons_iff.mp old
        exact ⟨f t, (mem_rename_targets hn hInj hq).mpr ⟨t, ht, rfl⟩,
          (ih (hn.target_mem_states ht)).mpr ⟨p, rest, hName⟩⟩

/-- The names of the states do not matter for the language, as long as they are kept apart. -/
theorem language_rename : (n.rename f).language = n.language := by
  ext word
  change (∃ q ∈ n.start.map f, ∃ r ∈ n.accept.map f, (n.rename f).Path q word r) ↔ _
  rw [mem_language]
  constructor
  · intro hWord
    obtain ⟨q, hq, r, hr, path⟩ := hWord
    obtain ⟨p, hp, rfl⟩ := SortedSet.mem_map.mp hq
    obtain ⟨s, hs, rfl⟩ := SortedSet.mem_map.mp hr
    obtain ⟨t, old, hName⟩ := (rename_path_iff hn hInj (hn.start_mem p hp)).mp path
    have hMem : t ∈ n.states := old.mem_states hn (hn.start_mem p hp)
    have hSame : t = s := hInj hMem (hn.accept_mem s hs) hName
    exact ⟨p, hp, s, hs, hSame ▸ old⟩
  · intro hWord
    obtain ⟨q, hq, r, hr, path⟩ := hWord
    exact ⟨f q, SortedSet.mem_map.mpr ⟨q, hq, rfl⟩, f r, SortedSet.mem_map.mpr ⟨r, hr, rfl⟩,
      (rename_path_iff hn hInj (hn.start_mem q hq)).mpr ⟨r, path, rfl⟩⟩

theorem declared_rename : (n.rename f).Declared where
  start_mem r hr := by
    obtain ⟨q, hq, rfl⟩ := SortedSet.mem_map.mp hr
    exact SortedSet.mem_map.mpr ⟨q, hn.start_mem q hq, rfl⟩
  accept_mem r hr := by
    obtain ⟨q, hq, rfl⟩ := SortedSet.mem_map.mp hr
    exact SortedSet.mem_map.mpr ⟨q, hn.accept_mem q hq, rfl⟩
  source_mem r a hr := by
    obtain ⟨targets, hGet⟩ := SortedMap.exists_get?_of_mem hr
    obtain ⟨q, old, hOld, rfl, _⟩ := (rename_get?_eq_some_iff hn hInj).mp hGet
    have hq := hn.source_mem q a (SortedMap.mem_of_get?_eq_some hOld)
    exact SortedSet.mem_map.mpr ⟨q, hq, rfl⟩
  target_mem r a targets hGet t ht := by
    obtain ⟨q, old, hOld, _, rfl⟩ := (rename_get?_eq_some_iff hn hInj).mp hGet
    obtain ⟨p, hp, rfl⟩ := SortedSet.mem_map.mp ht
    exact SortedSet.mem_map.mpr ⟨p, hn.target_mem q a old hOld p hp, rfl⟩

end Rename

theorem wellFormed_rename (hn : n.WellFormed) (hInj : Set.InjOn f {q | q ∈ n.states}) :
    (n.rename f).WellFormed where
  toDeclared := declared_rename hn.toDeclared hInj
  symbol_mem r a hr := by
    obtain ⟨targets, hGet⟩ := SortedMap.exists_get?_of_mem hr
    obtain ⟨q, old, hOld, _, _⟩ := (rename_get?_eq_some_iff hn.toDeclared hInj).mp hGet
    exact hn.symbol_mem q a (SortedMap.mem_of_get?_eq_some hOld)

/-! The new names of a disjoint copy. -/

/-- A name that is not in use is kept. -/
theorem nameIn_of_not_mem {q : String} (hq : q ∉ n.states) :
    nameIn (n.newNames other) q = q := by
  rw [nameIn]
  cases hName : (n.newNames other).lookup q with
  | none => rfl
  | some name =>
      have hShared := (List.of_mem_zip (mem_of_lookup_eq_some hName)).1
      have hMem := (SortedSet.mem_filter.mp (SortedSet.mem_toList.mp hShared)).2
      exact absurd (of_decide_eq_true hMem) hq

/-- A state that both automata use gets a name that neither uses. -/
theorem exists_newName {q : String} (hq : q ∈ other.states) (hShared : q ∈ n.states) :
    ∃ name, (n.newNames other).lookup q = some name ∧ name ∉ n.states ∪ other.states := by
  have hIn : q ∈ (other.states.filter fun q => decide (q ∈ n.states)).toList :=
    SortedSet.mem_filter.mpr ⟨hq, decide_eq_true hShared⟩
  obtain ⟨name, hName, hLookup⟩ := Name.exists_lookup_zip (Name.length_freshAll _ _).ge hIn
  exact ⟨name, hLookup, Name.not_mem_of_mem_freshAll hName⟩

/-- Whether it is kept or new, no name of a copy is in use. -/
theorem nameIn_not_mem {q : String} (hq : q ∈ other.states) :
    nameIn (n.newNames other) q ∉ n.states := by
  by_cases hShared : q ∈ n.states
  · obtain ⟨name, hLookup, hFresh⟩ := exists_newName hq hShared
    rw [nameIn, hLookup, Option.getD_some]
    intro hUsed
    exact hFresh (SortedSet.mem_union.mpr (Or.inl hUsed))
  · rwa [nameIn_of_not_mem hShared]

/-- A copy has as many names as the original, since a new name is also none of those that are kept.
-/
theorem nameIn_injOn :
    Set.InjOn (nameIn (n.newNames other)) {q | q ∈ other.states} := by
  intro p hp q hq hEq
  have hApart : ∀ {s t : String}, s ∈ other.states → t ∈ other.states → s ∈ n.states →
      t ∉ n.states → nameIn (n.newNames other) s ≠ nameIn (n.newNames other) t := by
    intro s t hs ht hShared hOwn hSame
    obtain ⟨name, hLookup, hFresh⟩ := exists_newName hs hShared
    rw [nameIn, hLookup, Option.getD_some, nameIn_of_not_mem hOwn] at hSame
    exact hFresh (SortedSet.mem_union.mpr (Or.inr (hSame ▸ ht)))
  by_cases hpShared : p ∈ n.states <;> by_cases hqShared : q ∈ n.states
  · obtain ⟨first, hFirst, _⟩ := exists_newName hp hpShared
    obtain ⟨second, hSecond, _⟩ := exists_newName hq hqShared
    rw [nameIn, nameIn, hFirst, hSecond, Option.getD_some, Option.getD_some] at hEq
    rw [← hEq] at hSecond
    exact Name.eq_of_lookup_zip (Name.nodup_freshAll _ _) hFirst hSecond
  · exact absurd hEq (hApart hp hq hpShared hqShared)
  · exact absurd hEq.symm (hApart hq hp hqShared hpShared)
  · rwa [nameIn_of_not_mem hpShared, nameIn_of_not_mem hqShared] at hEq

/-- A disjoint copy has no state of the automaton that it is made for. -/
theorem disjointCopy_disjoint {q : String} (hq : q ∈ (n.disjointCopy other).states) :
    q ∉ n.states := by
  obtain ⟨p, hp, rfl⟩ := SortedSet.mem_map.mp hq
  exact nameIn_not_mem hp

/-- No state is lost beside a disjoint copy, neither of the automaton nor of the copy. -/
theorem size_beside_disjointCopy (n other : Nfa) :
    (n.states ∪ (n.disjointCopy other).states).size = n.states.size + other.states.size := by
  have hCopy : (n.disjointCopy other).states.size = other.states.size :=
    SortedSet.size_map_of_injOn nameIn_injOn
  rw [SortedSet.size_union fun _ => disjointCopy_disjoint, hCopy]

theorem language_disjointCopy (hOther : other.Declared) :
    (n.disjointCopy other).language = other.language :=
  language_rename hOther nameIn_injOn

theorem declared_disjointCopy (hOther : other.Declared) : (n.disjointCopy other).Declared :=
  declared_rename hOther nameIn_injOn

theorem wellFormed_disjointCopy (hOther : other.WellFormed) :
    (n.disjointCopy other).WellFormed :=
  wellFormed_rename hOther nameIn_injOn

end Acceptors.Nfa
