import Acceptors.Discovery
import Mathlib.Data.Finset.Card
import Mathlib.Data.List.Nodup
import Mathlib.Logic.Relation

/-! Discovery ends, and it finds exactly the items that can be reached, each once. The bound
on expanded items is compared with a loop that has no bound: where only finitely many items
can occur, the bounded loop is the unbounded one. -/
namespace Acceptors.Discovery

variable {α : Type} [DecidableEq α]

@[simp] theorem mem_newcomers {known candidates : List α} {a : α} :
    a ∈ newcomers known candidates ↔ a ∈ candidates ∧ a ∉ known := by
  induction candidates generalizing known with
  | nil => simp [newcomers]
  | cons b candidates ih =>
      rw [newcomers]
      by_cases hb : b ∈ known
      · rw [if_pos hb, ih, List.mem_cons]
        constructor
        · rintro ⟨hIn, hNew⟩
          exact ⟨Or.inr hIn, hNew⟩
        · rintro ⟨rfl | hIn, hNew⟩
          · exact absurd hb hNew
          · exact ⟨hIn, hNew⟩
      · rw [if_neg hb, List.mem_cons, ih, List.mem_cons, List.mem_cons]
        by_cases ha : a = b
        · subst ha
          simp [hb]
        · simp [ha]

/-- Candidates that are new are listed once. -/
theorem nodup_newcomers (known candidates : List α) : (newcomers known candidates).Nodup := by
  induction candidates generalizing known with
  | nil => exact List.nodup_nil
  | cons b candidates ih =>
      rw [newcomers]
      by_cases hb : b ∈ known
      · rw [if_pos hb]
        exact ih known
      · rw [if_neg hb, List.nodup_cons]
        have hNew : b ∉ newcomers (b :: known) candidates := by
          intro hIn
          exact (mem_newcomers.mp hIn).2 List.mem_cons_self
        exact ⟨hNew, ih (b :: known)⟩

@[simp] theorem mem_distinct {l : List α} {a : α} : a ∈ distinct l ↔ a ∈ l := by
  simp [distinct]

theorem nodup_distinct (l : List α) : (distinct l).Nodup := nodup_newcomers [] l

/-- Newcomers extend a list without repetitions to another one. -/
theorem nodup_append_newcomers {known : List α} (hKnown : known.Nodup) (candidates : List α) :
    (known ++ newcomers known candidates).Nodup := by
  apply hKnown.append (nodup_newcomers known candidates)
  intro a ha hNew
  exact (mem_newcomers.mp hNew).2 ha

/-- Only the members of the known items matter. -/
theorem newcomers_congr {known other : List α} (hSame : ∀ a, a ∈ known ↔ a ∈ other)
    (candidates : List α) : newcomers known candidates = newcomers other candidates := by
  induction candidates generalizing known other with
  | nil => rfl
  | cons b candidates ih =>
      have hCons : ∀ a, a ∈ b :: known ↔ a ∈ b :: other := by
        intro a
        rw [List.mem_cons, List.mem_cons, hSame]
      rw [newcomers, newcomers, ih hSame, ih hCons]
      simp only [hSame]

/-- What comes in the first list is not new in the second. -/
theorem newcomers_append (known l m : List α) :
    newcomers known (l ++ m) = newcomers known l ++ newcomers (known ++ l) m := by
  induction l generalizing known with
  | nil => rw [List.append_nil, newcomers, List.nil_append, List.nil_append]
  | cons b l ih =>
      rw [List.cons_append, newcomers, newcomers]
      by_cases hb : b ∈ known
      · rw [if_pos hb, if_pos hb, ih]
        congr 1
        apply newcomers_congr
        intro a
        simp only [List.mem_append, List.mem_cons]
        grind
      · rw [if_neg hb, if_neg hb, ih, List.cons_append]
        congr 2
        apply newcomers_congr
        intro a
        simp only [List.mem_append, List.mem_cons]
        exact or_left_comm

theorem distinct_append (l m : List α) : distinct (l ++ m) = distinct l ++ newcomers l m :=
  newcomers_append [] l m

/-- A search of a list finds nothing else if repetitions are left out. -/
theorem findSome?_newcomers {β : Type} {f : α → Option β} {known : List α}
    (hKnown : ∀ a ∈ known, f a = none) (candidates : List α) :
    (newcomers known candidates).findSome? f = candidates.findSome? f := by
  induction candidates generalizing known with
  | nil => rfl
  | cons b candidates ih =>
      rw [newcomers]
      by_cases hb : b ∈ known
      · rw [if_pos hb, ih hKnown, List.findSome?_cons, hKnown b hb]
      · rw [if_neg hb, List.findSome?_cons, List.findSome?_cons]
        cases hf : f b with
        | some _ => rfl
        | none => exact ih (List.forall_mem_cons.mpr ⟨hf, hKnown⟩)

/-- Repetitions do not matter for what is found first. -/
theorem findSome?_distinct {β : Type} (f : α → Option β) (l : List α) :
    (distinct l).findSome? f = l.findSome? f :=
  findSome?_newcomers (List.forall_mem_nil _) l

/-- The values of a function on an ordered list are listed in the order of the first items that
have them. -/
theorem pairwise_distinct_map {β : Type} {f : β → α} {r : β → β → Prop} {l : List β}
    (hl : l.Pairwise r) :
    (distinct (l.map f)).Pairwise fun a b => ∃ x ∈ l, f x = a ∧ ∀ y ∈ l, f y = b → r x y := by
  induction l using List.reverseRecOn with
  | nil => exact .nil
  | append_singleton l z ih =>
      rw [List.pairwise_append] at hl
      obtain ⟨hl, _, hLast⟩ := hl
      have hLater : ∀ x ∈ l, r x z := fun x hx => hLast x hx z (List.mem_singleton_self z)
      rw [List.map_append, List.map_singleton, distinct_append, List.pairwise_append]
      refine ⟨(ih hl).imp ?_, ?_, ?_⟩
      · intro a b hFirst
        obtain ⟨x, hx, ha, hBefore⟩ := hFirst
        refine ⟨x, List.mem_append_left _ hx, ha, fun y hy hb => ?_⟩
        rcases List.mem_append.mp hy with hy | hy
        · exact hBefore y hy hb
        · exact List.mem_singleton.mp hy ▸ hLater x hx
      · by_cases hOld : f z ∈ l.map f <;> simp [newcomers, hOld]
      · intro a ha b hb
        obtain ⟨x, hx, hValue⟩ := List.mem_map.mp (mem_distinct.mp ha)
        have hNew := (mem_newcomers.mp hb).2
        refine ⟨x, List.mem_append_left _ hx, hValue, fun y hy hSame => ?_⟩
        rcases List.mem_append.mp hy with hy | hy
        · exact absurd (List.mem_map.mpr ⟨y, hy, hSame⟩) hNew
        · exact List.mem_singleton.mp hy ▸ hLater x hx

section Counting

variable {β γ : Type} [DecidableEq β] [DecidableEq γ] {l : List α} {f : α → β} {g : α → γ}

theorem length_distinct (l : List α) : (distinct l).length = l.toFinset.card := by
  rw [← List.toFinset_card_of_nodup (nodup_distinct l)]
  congr 1
  ext a
  simp

theorem length_distinct_le_one_iff :
    (distinct l).length ≤ 1 ↔ ∀ a ∈ l, ∀ b ∈ l, a = b := by
  simp only [length_distinct, Finset.card_le_one, List.mem_toFinset]

/-- Both values of every item. Where `g` decides `f`, these are as many as the values of `g`. -/
private theorem card_pairs (hFiner : ∀ a ∈ l, ∀ b ∈ l, g a = g b → f a = f b) :
    (l.toFinset.image fun a => (f a, g a)).card = (distinct (l.map g)).length := by
  have hValues : (l.map g).toFinset = (l.toFinset.image fun a => (f a, g a)).image Prod.snd := by
    ext c
    simp
  rw [length_distinct, hValues]
  symm
  apply Finset.card_image_of_injOn
  intro x hx y hy hEq
  obtain ⟨a, ha, rfl⟩ := Finset.mem_image.mp hx
  obtain ⟨b, hb, rfl⟩ := Finset.mem_image.mp hy
  exact Prod.ext (hFiner a (List.mem_toFinset.mp ha) b (List.mem_toFinset.mp hb) hEq) hEq

private theorem card_pairs_fst (l : List α) (f : α → β) (g : α → γ) :
    (distinct (l.map f)).length = ((l.toFinset.image fun a => (f a, g a)).image Prod.fst).card := by
  rw [length_distinct]
  congr 1
  ext c
  simp

/-- A finer partition has at least as many classes. -/
theorem length_distinct_map_le (hFiner : ∀ a ∈ l, ∀ b ∈ l, g a = g b → f a = f b) :
    (distinct (l.map f)).length ≤ (distinct (l.map g)).length := by
  rw [← card_pairs hFiner, card_pairs_fst l f g]
  exact Finset.card_image_le

/-- A finer partition with no more classes is the same partition. -/
theorem eq_of_length_distinct_map_le (hFiner : ∀ a ∈ l, ∀ b ∈ l, g a = g b → f a = f b)
    (hLength : (distinct (l.map g)).length ≤ (distinct (l.map f)).length) :
    ∀ a ∈ l, ∀ b ∈ l, f a = f b → g a = g b := by
  have hCard := Nat.le_antisymm (length_distinct_map_le hFiner) hLength
  rw [← card_pairs hFiner, card_pairs_fst l f g, Finset.card_image_iff] at hCard
  intro a ha b hb hEq
  have hPair := hCard (Finset.mem_image_of_mem _ (List.mem_toFinset.mpr ha))
    (Finset.mem_image_of_mem _ (List.mem_toFinset.mpr hb)) hEq
  exact congrArg Prod.snd hPair

end Counting

/-- The loop without a bound, from the items that are expanded and those that wait: it goes
on while an item waits, and the result lists all items in the order of discovery. -/
inductive Finishes (next : α → List α) : List α → List α → List α → Prop where
  | nil (done : List α) : Finishes next done [] done
  | step {done pending result : List α} {a : α}
      (rest : Finishes next (done ++ [a]) (pending ++ newcomers (done ++ a :: pending) (next a))
        result) :
      Finishes next done (a :: pending) result

omit [DecidableEq α] in
/-- The items of the loop before and after one expansion: the same list, extended. -/
private theorem expanded_eq (done pending new : List α) (a : α) :
    (done ++ [a]) ++ (pending ++ new) = (done ++ a :: pending) ++ new := by
  simp

section Bounded

variable {next : α → List α} {inside : α → Prop} {limit : Nat}

/-- If no list without repetitions has more than `limit` items of a closed kind, then a bound
that reaches `limit` together with the expanded items is never the reason to stop. -/
theorem expand_finishes (hNext : ∀ a, inside a → ∀ b ∈ next a, inside b)
    (hLimit : ∀ l : List α, l.Nodup → (∀ a ∈ l, inside a) → l.length ≤ limit)
    {bound : Nat} {done pending : List α} (hNodup : (done ++ pending).Nodup)
    (hInside : ∀ a ∈ done ++ pending, inside a) (hBound : limit ≤ done.length + bound) :
    Finishes next done pending (expand next bound done pending) := by
  induction bound generalizing done pending with
  | zero =>
      have hLength := hLimit _ hNodup hInside
      rw [List.length_append] at hLength
      have hEmpty : pending = [] := List.eq_nil_of_length_eq_zero (by omega)
      subst hEmpty
      rw [expand, List.append_nil]
      exact .nil done
  | succ bound ih =>
      cases pending with
      | nil => exact .nil done
      | cons a pending =>
          rw [expand]
          have ha : inside a := hInside a (by simp)
          apply Finishes.step
          apply ih
          · rw [expanded_eq]
            exact nodup_append_newcomers hNodup (next a)
          · intro b hb
            rw [expanded_eq, List.mem_append] at hb
            rcases hb with hb | hb
            · exact hInside b hb
            · exact hNext a ha b (mem_newcomers.mp hb).1
          · rw [List.length_append, List.length_singleton]
            omega

/-- Where only finitely many items can occur, discovery ends before its bound does. -/
theorem discover_finishes (hNext : ∀ a, inside a → ∀ b ∈ next a, inside b)
    (hLimit : ∀ l : List α, l.Nodup → (∀ a ∈ l, inside a) → l.length ≤ limit)
    {start : α} (hStart : inside start) {bound : Nat} (hBound : limit ≤ bound) :
    Finishes next [] [start] (discover next bound start) := by
  have hInside : ∀ a ∈ [] ++ [start], inside a := by
    intro a ha
    rw [List.nil_append, List.mem_singleton] at ha
    rwa [ha]
  exact expand_finishes hNext hLimit (List.nodup_singleton start) hInside (by simpa using hBound)

end Bounded

namespace Finishes

variable {next : α → List α} {done pending result : List α}

/-- No item is discovered twice. -/
theorem nodup (run : Finishes next done pending result) (hNodup : (done ++ pending).Nodup) :
    result.Nodup := by
  induction run with
  | nil done => simpa using hNodup
  | step rest ih =>
      apply ih
      rw [expanded_eq]
      exact nodup_append_newcomers hNodup _

/-- Items stay in the order in which they have been found. -/
theorem isPrefix (run : Finishes next done pending result) : done ++ pending <+: result := by
  induction run with
  | nil done => exact (List.append_nil done).symm ▸ List.prefix_rfl
  | step rest ih =>
      rw [expanded_eq] at ih
      exact (List.prefix_append _ _).trans ih

/-- When the loop ends, every item has been expanded. -/
theorem closed (run : Finishes next done pending result)
    (hDone : ∀ a ∈ done, ∀ b ∈ next a, b ∈ done ++ pending) :
    ∀ a ∈ result, ∀ b ∈ next a, b ∈ result := by
  induction run with
  | nil done => simpa using hDone
  | @step done pending result c rest ih =>
      apply ih
      intro a ha b hb
      rw [expanded_eq, List.mem_append]
      by_cases hOld : b ∈ done ++ c :: pending
      · exact Or.inl hOld
      · rcases List.mem_append.mp ha with ha | ha
        · exact Or.inl (hDone a ha b hb)
        · rw [List.mem_singleton] at ha
          subst ha
          exact Or.inr (mem_newcomers.mpr ⟨hb, hOld⟩)

/-- What holds of the items at hand and passes on to successors holds of all that is found. -/
theorem invariant {P : α → Prop} (run : Finishes next done pending result)
    (hStep : ∀ a, P a → ∀ b ∈ next a, P b) (hInit : ∀ a ∈ done ++ pending, P a) :
    ∀ a ∈ result, P a := by
  induction run with
  | nil done => simpa using hInit
  | @step done pending result c rest ih =>
      apply ih
      intro b hb
      rw [expanded_eq, List.mem_append] at hb
      rcases hb with hb | hb
      · exact hInit b hb
      · exact hStep c (hInit c (by simp)) b (mem_newcomers.mp hb).1

/-- Items are found in the order in which they first occur as the start or as successors, when the
items that are found are expanded one after another. -/
theorem eq_distinct {start : α} (run : Finishes next done pending result)
    (hFound : done ++ pending = distinct (start :: done.flatMap next)) :
    result = distinct (start :: result.flatMap next) := by
  induction run with
  | nil done => rwa [List.append_nil] at hFound
  | @step done pending result c rest ih =>
      apply ih
      rw [expanded_eq, List.flatMap_append, ← List.cons_append, distinct_append, ← hFound,
        List.flatMap_singleton]
      congr 1
      apply newcomers_congr
      intro a
      rw [hFound, mem_distinct]

/-- The items that are found are those that steps lead to. -/
theorem mem_iff_reachable {start : α} (run : Finishes next [] [start] result) {a : α} :
    a ∈ result ↔ Relation.ReflTransGen (fun a b => b ∈ next a) start a := by
  constructor
  · have hInit : ∀ b ∈ [] ++ [start], Relation.ReflTransGen (fun a b => b ∈ next a) start b := by
      intro b hb
      rw [List.nil_append, List.mem_singleton] at hb
      rw [hb]
    exact run.invariant (fun b hReach c hc => hReach.tail hc) hInit a
  · intro hReach
    induction hReach with
    | refl => exact run.isPrefix.subset (by simp)
    | tail _ hStep ih => exact run.closed (by simp) _ ih _ hStep

end Finishes

end Acceptors.Discovery
