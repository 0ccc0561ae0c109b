/-! The orders in which collections list their members. Names compare by code points,
optional symbols put the empty move first, and pairs compare lexicographically. -/
namespace Acceptors

/-- A strict total order with a decision procedure. It is a class of its own, because the
order of a listing is part of what is printed and must not depend on other orders that a
type may carry. -/
class KeyOrder (α : Type) where
  /-- Whether the first key is listed before the second. -/
  before : α → α → Bool
  before_irrefl : ∀ a, before a a = false
  before_trans : ∀ {a b c}, before a b = true → before b c = true → before a c = true
  eq_of_unordered : ∀ {a b}, before a b = false → before b a = false → a = b

namespace KeyOrder

variable {α β : Type}

theorem ne_of_before [KeyOrder α] {a b : α} (hBefore : before a b = true) : a ≠ b := by
  rintro rfl
  rw [before_irrefl] at hBefore
  exact Bool.false_ne_true hBefore

/-- Keys that differ are ordered one way or the other. -/
theorem before_of_ne [KeyOrder α] {a b : α} (hBefore : before a b = false) (hNe : a ≠ b) :
    before b a = true := by
  cases hBack : before b a with
  | true => rfl
  | false => exact absurd (eq_of_unordered hBefore hBack) hNe

theorem before_trichotomy [KeyOrder α] (a b : α) : before a b = true ∨ a = b ∨ before b a = true := by
  cases hBefore : before a b with
  | true => exact .inl rfl
  | false =>
      by_cases hEq : a = b
      · exact .inr (.inl hEq)
      · exact .inr (.inr (before_of_ne hBefore hEq))

theorem not_before_of_before [KeyOrder α] {a b : α} (hBefore : before a b = true) :
    ¬ before b a = true := by
  intro hBack
  exact ne_of_before (before_trans hBefore hBack) rfl

/-- Characters are ordered by code point. -/
instance : KeyOrder Char where
  before a b := decide (a.toNat < b.toNat)
  before_irrefl a := by simp
  before_trans := by
    intro a b c hab hbc
    rw [decide_eq_true_eq] at *
    exact Nat.lt_trans hab hbc
  eq_of_unordered := by
    intro a b hab hba
    rw [decide_eq_false_iff_not] at *
    exact Char.toNat_inj.mp (by omega)

/-- Names are ordered by their code points, a proper beginning of a name before the name. -/
instance : KeyOrder String where
  before a b := decide (a < b)
  before_irrefl a := by simp
  before_trans := by
    intro a b c hab hbc
    rw [decide_eq_true_eq] at *
    exact String.lt_trans hab hbc
  eq_of_unordered := by
    intro a b hab hba
    rw [decide_eq_false_iff_not] at *
    exact String.le_antisymm hba hab

/-- The absent key comes before every present one. -/
instance [KeyOrder α] : KeyOrder (Option α) where
  before
    | none, some _ => true
    | some a, some b => before a b
    | _, none => false
  before_irrefl
    | none => rfl
    | some a => before_irrefl a
  before_trans := by
    intro a b c hab hbc
    match a, b, c, hab, hbc with
    | none, some _, some _, _, _ => rfl
    | some _, some _, some _, hab, hbc => exact before_trans hab hbc
  eq_of_unordered := by
    intro a b hab hba
    match a, b, hab, hba with
    | none, none, _, _ => rfl
    | some _, some _, hab, hba => exact congrArg some (eq_of_unordered hab hba)

/-- Pairs compare by the first component, and by the second where the first is the same. -/
instance [KeyOrder α] [DecidableEq α] [KeyOrder β] : KeyOrder (α × β) where
  before p q := before p.1 q.1 || (decide (p.1 = q.1) && before p.2 q.2)
  before_irrefl p := by simp [before_irrefl]
  before_trans := by
    rintro ⟨a, x⟩ ⟨b, y⟩ ⟨c, z⟩ hab hbc
    simp only [Bool.or_eq_true, Bool.and_eq_true, decide_eq_true_eq] at *
    rcases hab with hab | ⟨rfl, hxy⟩
    · rcases hbc with hbc | ⟨rfl, -⟩
      · exact .inl (before_trans hab hbc)
      · exact .inl hab
    · rcases hbc with hbc | ⟨rfl, hyz⟩
      · exact .inl hbc
      · exact .inr ⟨rfl, before_trans hxy hyz⟩
  eq_of_unordered := by
    rintro ⟨a, x⟩ ⟨b, y⟩ hab hba
    simp only [Bool.or_eq_false_iff, Bool.and_eq_false_imp, decide_eq_true_eq] at *
    obtain rfl := eq_of_unordered hab.1 hba.1
    exact Prod.ext rfl (eq_of_unordered (hab.2 rfl) (hba.2 rfl))

theorem before_mk_iff [KeyOrder α] [DecidableEq α] [KeyOrder β] {a b : α} {x y : β} :
    before (a, x) (b, y) = true ↔ before a b = true ∨ a = b ∧ before x y = true := by
  change (before a b || (decide (a = b) && before x y)) = true ↔ _
  simp

/-- Pairs with the same first component are in the order of their second ones. -/
theorem before_snd_of_fst_eq [KeyOrder α] [DecidableEq α] [KeyOrder β] {a b : α} {x y : β}
    (hBefore : before (a, x) (b, y) = true) (hSame : a = b) : before x y = true := by
  rcases before_mk_iff.mp hBefore with hFirst | ⟨_, hSecond⟩
  · exact absurd hSame (ne_of_before hFirst)
  · exact hSecond

end KeyOrder

end Acceptors
