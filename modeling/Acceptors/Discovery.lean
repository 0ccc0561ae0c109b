/-! Breadth-first discovery of everything that can be reached from a start. Each item is
found once, and items are listed in the order in which they are found. The bound counts
expanded items, so a bound on the number of reachable items is always enough. The same order
of first occurrence numbers the classes of equivalent states. -/
namespace Acceptors.Discovery

variable {α : Type} [DecidableEq α]

/-- The candidates that are not known yet, each once, in their order. -/
def newcomers (known : List α) : List α → List α
  | [] => []
  | a :: candidates =>
    if a ∈ known then newcomers known candidates
    else a :: newcomers (a :: known) candidates

/-- The members of a list, each once, in the order in which they first occur. -/
def distinct (l : List α) : List α := newcomers [] l

/-- Expand pending items, first come first served. The items in `done` have been expanded. -/
def expand (next : α → List α) : Nat → List α → List α → List α
  | 0, done, pending => done ++ pending
  | _ + 1, done, [] => done
  | bound + 1, done, a :: pending =>
    expand next bound (done ++ [a]) (pending ++ newcomers (done ++ a :: pending) (next a))

/-- All items reachable from a start, in the order of discovery. -/
def discover (next : α → List α) (bound : Nat) (start : α) : List α :=
  expand next bound [] [start]

end Acceptors.Discovery
