import Acceptors.Pda.Basic

/-! Runs of pushdown automata. A run is a depth-first search: it follows the first move of a
configuration before it tries the others, and moves that read a symbol come before those that
do not. Moves that read nothing can grow the stack forever, so that a search may have no end;
it is given a budget of configurations to explore. -/
namespace Acceptors.Pda

/-- A point of a run: the state, the stack from the top down, and the input not yet read. -/
structure Configuration where
  state : String
  stack : List Char
  unread : Word
deriving DecidableEq

/-- Where the search for a word starts. -/
def initial (p : Pda) (word : Word) : Configuration :=
  ⟨p.start, [p.initialItem], word⟩

/-- Whether a configuration has read its input and accepts. -/
def accepts (p : Pda) (c : Configuration) : Bool :=
  c.unread.isEmpty &&
    match p.acceptance with
    | .finalState accept => decide (c.state ∈ accept)
    | .emptyStack => c.stack.isEmpty

/-- Replace the stack top, of which `below` is left, by the items of a move. -/
def Move.apply (move : Move) (below : List Char) (unread : Word) : Configuration :=
  ⟨move.state, move.push.reverse ++ below, unread⟩

/-- The configurations after one move that reads the next symbol. -/
def readingSteps (p : Pda) (c : Configuration) : List Configuration :=
  match c.stack, c.unread with
  | top :: below, a :: word => (p.moves c.state (some a) top).map fun move => move.apply below word
  | _, _ => []

/-- The configurations after one move that reads nothing. -/
def silentSteps (p : Pda) (c : Configuration) : List Configuration :=
  match c.stack with
  | top :: below => (p.moves c.state none top).map fun move => move.apply below c.unread
  | [] => []

/-- The configurations after one move, in the order in which they are tried. An empty stack
allows no move. -/
def children (p : Pda) (c : Configuration) : List Configuration :=
  p.readingSteps c ++ p.silentSteps c

/-- The symbol that a configuration is about to read, if the alphabet lacks it. With an empty
stack nothing is read. -/
def foreign? (p : Pda) (c : Configuration) : Option Char :=
  match c.stack, c.unread with
  | _ :: _, a :: _ => if a ∈ p.alphabet then none else some a
  | _, _ => none

/-- Explore pending configurations, the first one first, until one accepts or none is left.
There is no answer if the budget is used up before. -/
def search (p : Pda) (word : Word) : Nat → List Configuration → Option Answer
  | _, [] => some (p.alphabet.reject word)
  | 0, _ :: _ => none
  | budget + 1, c :: pending =>
    if p.accepts c then some (.ok true)
    else
      match p.foreign? c with
      | some a => some (.error (.symbolNotInAlphabet a))
      | none => p.search word budget (p.children c ++ pending)

/-- The answer for a word, if it is found within a budget of configurations. -/
def answerWithin (p : Pda) (budget : Nat) (word : Word) : Option Answer :=
  p.search word budget [p.initial word]

/-- The answer for a word, where a search that exceeds the limit is given up. -/
def runWithLimit (p : Pda) (limit : Nat) (word : Word) : Answer :=
  (p.answerWithin limit word).getD (.error (.stepLimitExceeded limit))

/-- The answer for a word under an optional limit. A search without a limit may have no end,
so it has an answer only if the budget suffices; with a limit there always is one. -/
def runWith (p : Pda) (budget : Nat) (limit : Option Nat) (word : Word) :
    Option Answer :=
  match limit with
  | some limit => some (p.runWithLimit limit word)
  | none => p.answerWithin budget word

/-- The answer for a word under the limit of the automaton. -/
def run (p : Pda) (budget : Nat) (word : Word) : Option Answer :=
  p.runWith budget p.stepLimit word

end Acceptors.Pda
