import Acceptors.Proofs.Regex.Grammar

/-! The reading of infix notation. The postfix listing of infix tokens is the postorder of the
tree that they list, and the stack of operands turns a postorder back into its tree. -/
namespace Acceptors.Regex

variable {level : Nat} {tokens : List Token} {pending : List Operator} {stack : List Waiting}

/-- No operator on top of the stack binds as tightly as a level. -/
def Settled (level : Nat) : List Waiting → Prop
  | .operator o :: _ => o.precedence < level
  | _ => True

theorem Settled.mono {other : Nat} (hSettled : Settled level stack) (hLe : level ≤ other) :
    Settled other stack := by
  cases stack with
  | nil => trivial
  | cons top rest =>
      cases top with
      | operator o => exact Nat.lt_of_lt_of_le hSettled hLe
      | opening => trivial

/-- Nothing is released where the operator on top binds less tightly. -/
theorem release_settled (hSettled : Settled level stack) : release level stack = ([], stack) := by
  cases stack with
  | nil => rfl
  | cons top rest =>
      cases top with
      | operator o => exact if_neg (Nat.not_le_of_lt hSettled)
      | opening => rfl

/-- An operator releases all that bind as tightly, down to a settled stack. -/
theorem release_pending (hTight : ∀ o ∈ pending, level ≤ o.precedence)
    (hSettled : Settled level stack) :
    release level (pending.map .operator ++ stack) = (pending.map .operator, stack) := by
  induction pending with
  | nil => exact release_settled hSettled
  | cons o pending ih =>
      rw [List.forall_mem_cons] at hTight
      rw [List.map_cons, List.cons_append, release, if_pos hTight.1, ih hTight.2]
      rfl

/-- A closing parenthesis releases what waits above the opening one, and drops this one. -/
theorem releaseGroup_pending :
    releaseGroup (pending.map .operator ++ .opening :: stack) =
      .ok (pending.map .operator, stack) := by
  induction pending with
  | nil => rfl
  | cons o pending ih =>
      rw [List.map_cons, List.cons_append, releaseGroup, ih]
      rfl

theorem releaseAll_pending :
    releaseAll (pending.map .operator) = .ok (pending.map .operator) := by
  induction pending with
  | nil => rfl
  | cons o pending ih =>
      rw [List.map_cons, releaseAll, ih]
      rfl

/-- Above every stack that is settled at a level, tokens list `body` and leave operators that
bind at least as tightly waiting. -/
structure Lists (level : Nat) (tokens : List Token) (body : List Instruction)
    (pending : List Operator) : Prop where
  tight : ∀ o ∈ pending, level ≤ o.precedence
  reads : ∀ output stack rest, Settled level stack →
    postfixFrom output stack (tokens ++ rest) =
      postfixFrom (body.reverse ++ output) (pending.map .operator ++ stack) rest

namespace Lists

variable {body : List Instruction}

theorem atom (a : Atom) : Lists level [.atom a] [.atom a] [] where
  tight _ ho := absurd ho List.not_mem_nil
  reads _ _ _ _ := rfl

/-- What lists tokens at a level does so at the level below. -/
theorem loosen (hLists : Lists (level + 1) tokens body pending) :
    Lists level tokens body pending where
  tight o ho := Nat.le_of_succ_le (hLists.tight o ho)
  reads output stack rest hSettled :=
    hLists.reads output stack rest (hSettled.mono (Nat.le_succ level))

/-- A closing parenthesis releases all that waits since its partner. -/
theorem group (hLists : Lists level tokens body pending) (other : Nat) :
    Lists other (.opening :: tokens ++ [.closing]) (body ++ pending.map .operator) [] where
  tight _ ho := absurd ho List.not_mem_nil
  reads output stack rest _ := by
    have hInner := hLists.reads output (.opening :: stack) (.closing :: rest) trivial
    rw [List.cons_append, List.cons_append, List.append_assoc, postfixFrom,
      List.singleton_append, hInner, postfixFrom, releaseGroup_pending]
    simp

theorem star (hLists : Lists level tokens body []) :
    Lists level (tokens ++ [.star]) (body ++ [.star]) [] where
  tight := hLists.tight
  reads output stack rest hSettled := by
    rw [List.append_assoc, hLists.reads output stack _ hSettled, List.singleton_append]
    simp [postfixFrom]

/-- An operator releases what waits of its left operand, and waits for its right operand. -/
theorem binary {o : Operator} {others : List Token} {next : List Instruction}
    {waiting : List Operator} (hLeft : Lists o.precedence tokens body pending)
    (hRight : Lists (o.precedence + 1) others next waiting) :
    Lists o.precedence (tokens ++ .operator o :: others)
      (body ++ pending.map .operator ++ next) (waiting ++ [o]) where
  tight := by
    intro other hOther
    rcases List.mem_append.mp hOther with hWaiting | hLast
    · exact Nat.le_of_succ_le (hRight.tight other hWaiting)
    · obtain rfl := List.mem_singleton.mp hLast
      exact Nat.le_refl _
  reads output stack rest hSettled := by
    have hOperator : Settled (o.precedence + 1) (.operator o :: stack) := Nat.lt_succ_self _
    rw [List.append_assoc, hLeft.reads output stack _ hSettled, List.cons_append, postfixFrom,
      release_pending hLeft.tight hSettled]
    dsimp only
    rw [hRight.reads _ _ rest hOperator]
    simp

end Lists

theorem precedence_lt_three (o : Operator) : o.precedence < 3 := by
  cases o <;> decide

/-- Nothing waits where no operator binds tightly enough. -/
theorem Lists.pending_eq_nil {body : List Instruction} (hLists : Lists 3 tokens body pending) :
    pending = [] := by
  apply List.eq_nil_iff_forall_not_mem.mpr
  intro o ho
  exact Nat.not_le_of_lt (precedence_lt_three o) (hLists.tight o ho)

/-- Infix tokens list the postorder of their tree, up to operators that wait. -/
theorem Infix.lists {t : Tree} (hInfix : Infix level t tokens) :
    ∃ body pending, body ++ pending.map .operator = t.postorder ∧
      Lists level tokens body pending := by
  induction hInfix with
  | atom a => exact ⟨[.atom a], [], rfl, .atom a⟩
  | @group t tokens _ ih =>
      obtain ⟨body, pending, hBody, hLists⟩ := ih
      have hGroup := hLists.group 3
      rw [hBody] at hGroup
      exact ⟨t.postorder, [], List.append_nil _, hGroup⟩
  | star _ ih =>
      obtain ⟨body, pending, hBody, hLists⟩ := ih
      obtain rfl := hLists.pending_eq_nil
      rw [List.map_nil, List.append_nil] at hBody
      refine ⟨body ++ [.star], [], ?_, hLists.star⟩
      rw [hBody, List.map_nil, List.append_nil, Tree.postorder]
  | @binary o t u tokens others _ _ ihLeft ihRight =>
      obtain ⟨body, pending, hBody, hLeft⟩ := ihLeft
      obtain ⟨next, waiting, hNext, hRight⟩ := ihRight
      refine ⟨body ++ pending.map .operator ++ next, waiting ++ [o], ?_, hLeft.binary hRight⟩
      rw [Tree.postorder, hBody, List.map_append, List.append_assoc, ← List.append_assoc next,
        hNext, List.append_assoc]
      rfl
  | loosen _ ih =>
      obtain ⟨body, pending, hBody, hLists⟩ := ih
      exact ⟨body, pending, hBody, hLists.loosen⟩

/-- The postfix listing of infix tokens is the postorder of their tree. -/
theorem postfixOf_eq_postorder {t : Tree} (hInfix : Infix level t tokens) :
    postfixOf tokens = .ok t.postorder := by
  obtain ⟨body, pending, hBody, hLists⟩ := hInfix.lists
  have hReads := hLists.reads [] [] [] trivial
  rw [List.append_nil, List.append_nil, List.append_nil] at hReads
  rw [postfixOf, hReads, postfixFrom, releaseAll_pending]
  simp [← hBody]

/-- The instructions of a tree put the tree on the stack of operands. -/
theorem performAll_postorder (t : Tree) (rest : List Instruction) (operands : List Tree) :
    performAll (t.postorder ++ rest) operands = performAll rest (t :: operands) := by
  induction t generalizing rest operands with
  | atom a => rfl
  | star t ih =>
      rw [Tree.postorder, List.append_assoc, ih]
      rfl
  | binary o t u ihLeft ihRight =>
      rw [Tree.postorder, List.append_assoc, List.append_assoc, ihLeft, ihRight]
      rfl

/-- No tree is lost when it is listed: the stack of operands builds it again. -/
theorem ofPostfix_postorder (t : Tree) : Tree.ofPostfix t.postorder = .ok t := by
  have hStack := performAll_postorder t [] []
  rw [List.append_nil] at hStack
  rw [Tree.ofPostfix, hStack]
  rfl

/-- Different trees have different postorders. -/
theorem postorder_injective : Function.Injective Tree.postorder := by
  intro t u hSame
  have hTree := ofPostfix_postorder t
  rw [hSame, ofPostfix_postorder] at hTree
  exact (Except.ok.inj hTree).symm

/-- Infix notation lists one tree only, whatever the level it is read at. -/
theorem Infix.tree_unique {other : Nat} {t u : Tree} (hFirst : Infix level t tokens)
    (hSecond : Infix other u tokens) : t = u := by
  have hSame := postfixOf_eq_postorder hFirst
  rw [postfixOf_eq_postorder hSecond] at hSame
  exact postorder_injective (Except.ok.inj hSame).symm

end Acceptors.Regex
