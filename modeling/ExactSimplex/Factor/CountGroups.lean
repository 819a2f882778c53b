import ExactSimplex.Table

/-! # Indices grouped by a count

Every present index belongs to the group of its count. The indices of a group form a ring: each one
knows the next and the previous one, and after the last comes the first, the head of the group. An
index joins a ring at its end, so that the indices stand in the order in which they arrived there, at
first by index. An index that is removed never comes back; its own links stay as they were.
-/
namespace ExactSimplex

/-- Indices below `size` in groups numbered from zero to `bound`. -/
structure CountGroups (size bound : Nat) where
  next : Vector (Fin size) size
  previous : Vector (Fin size) size
  /-- The group of each index that is present. -/
  count : Vector (Option (Fin (bound + 1))) size
  heads : Vector (Option (Fin size)) (bound + 1)
  /-- How many indices are present. -/
  length : Nat

/-- A walk along a ring: where it started and where it is, nowhere once it is back at its start. -/
structure Cursor (size : Nat) where
  head : Option (Fin size)
  current : Option (Fin size)
  deriving DecidableEq

namespace CountGroups

variable {size bound : Nat}

/-- Groups without any index. -/
def empty (size bound : Nat) : CountGroups size bound where
  next := Vector.ofFn id
  previous := Vector.ofFn id
  count := Vector.replicate size none
  heads := Vector.replicate (bound + 1) none
  length := 0

/-- Let an absent index join the ring of a group, between its tail and its head. -/
def insert (g : CountGroups size bound) (i : Fin size) (c : Fin (bound + 1)) :
    CountGroups size bound :=
  let count := put g.count i (some c)
  match g.heads.get c with
  | some head =>
    let tail := g.previous.get head
    { g with
      next := put (put g.next tail i) i head
      previous := put (put g.previous i tail) head i
      count := count
      length := g.length + 1 }
  | none =>
    { next := put g.next i i
      previous := put g.previous i i
      count := count
      heads := put g.heads c (some i)
      length := g.length + 1 }

/-- All indices, each in the group of its count. -/
def ofCounts (counts : Vector (Fin (bound + 1)) size) : CountGroups size bound :=
  (List.finRange size).foldl (fun g i => g.insert i (counts.get i)) (empty size bound)

def contains (g : CountGroups size bound) (i : Fin size) : Bool := (g.count.get i).isSome

/-- Take an index out of its ring; nothing happens if it is gone already. -/
def remove (g : CountGroups size bound) (i : Fin size) : CountGroups size bound :=
  match g.count.get i with
  | none => g
  | some c =>
    let count := put g.count i none
    let before := g.previous.get i
    let after := g.next.get i
    if after = i then
      { g with count := count, heads := put g.heads c none, length := g.length - 1 }
    else
      { next := put g.next before after
        previous := put g.previous after before
        count := count
        heads := if g.heads.get c = some i then put g.heads c (some after) else g.heads
        length := g.length - 1 }

/-- Give a present index a new count; with an unchanged count it keeps its place. -/
def update (g : CountGroups size bound) (i : Fin size) (c : Fin (bound + 1)) :
    CountGroups size bound :=
  if g.count.get i = some c then g else (g.remove i).insert i c

/-- A walk along the ring of a group. -/
def walk (g : CountGroups size bound) (c : Nat) : Cursor size :=
  let head := if h : c < bound + 1 then g.heads.get ⟨c, h⟩ else none
  ⟨head, head⟩

/-- The index at which a walk is, and the rest of the walk. -/
def advance (g : CountGroups size bound) (cursor : Cursor size) : Option (Fin size × Cursor size) :=
  cursor.current.map fun i =>
    let next := some (g.next.get i)
    (i, { cursor with current := if next = cursor.head then none else next })

/-- The indices that a walk comes to in so many steps. -/
def visited (g : CountGroups size bound) : Nat → Cursor size → List (Fin size)
  | 0, _ => []
  | steps + 1, cursor =>
    match g.advance cursor with
    | none => []
    | some (i, rest) => i :: g.visited steps rest

/-- The indices with a count. A ring has no more indices than there are, so that the walk is over
after that many steps. -/
def withCount (g : CountGroups size bound) (c : Nat) : List (Fin size) := g.visited size (g.walk c)

end CountGroups

end ExactSimplex
