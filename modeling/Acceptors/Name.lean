import Acceptors.Sorted.Set

/-! State names that end in a number, and the choice of names that are not in use. A name
in use is counted upward from the number it ends with; when the numbers below `counterLimit`
run out, the whole name is counted from one, so that a search always has a next candidate. -/
namespace Acceptors.Name

/-- Numbers at the end of a name are counters below this limit. Longer digit strings are
part of the name. -/
def counterLimit : Nat := Nat.pow 2 64

/-- The characters before the longest run of decimal digits at the end of a text. -/
def stemChars (text : List Char) : List Char :=
  (text.reverse.dropWhile Char.isDigit).reverse

/-- The longest run of decimal digits at the end of a text. -/
def trailingDigits (text : List Char) : List Char :=
  (text.reverse.takeWhile Char.isDigit).reverse

theorem stemChars_append_trailingDigits (text : List Char) :
    stemChars text ++ trailingDigits text = text := by
  rw [stemChars, trailingDigits, ← List.reverse_append, List.takeWhile_append_dropWhile,
    List.reverse_reverse]

/-- Split a name into its stem and the number it ends with. A name without final digits has
no number, and neither has one whose number reaches `counterLimit`. -/
def splitNumber (name : String) : String × Option Nat :=
  let digits := trailingDigits name.toList
  let number := Nat.ofDigitChars 10 digits 0
  if digits = [] ∨ counterLimit ≤ number then (name, none)
  else (String.ofList (stemChars name.toList), some number)

/-- A stem followed by a number in decimal. -/
def numbered (stem : String) (number : Nat) : String := stem ++ toString number

/-- The first of `count` consecutively numbered names that is not taken. -/
def firstFree? (taken : SortedSet String) (stem : String) (start count : Nat) :
    Option String :=
  ((List.range' start count).find? fun number => decide (numbered stem number ∉ taken)).map
    (numbered stem)

/-- A name that is not taken: the base itself if it is free, else the first free name when
the number at its end is counted upward, else the first free name when the whole base is
numbered from one. The last search covers one candidate more than there are taken names,
so it never comes back empty. -/
def fresh (taken : SortedSet String) (base : String) : String :=
  if base ∈ taken then
    let (stem, number) := splitNumber base
    let start := number.getD 0 + 1
    let enough := taken.size + 1
    ((firstFree? taken stem start (min enough (counterLimit - start))).or
      (firstFree? taken base 1 enough)).getD base
  else base

/-- Fresh names for a list of bases, each avoiding also the names given before it. -/
def freshAll (taken : SortedSet String) : List String → List String
  | [] => []
  | base :: bases =>
    let name := fresh taken base
    name :: freshAll (taken.insert name) bases

end Acceptors.Name
