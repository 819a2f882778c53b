import ExactSimplex.Vec

/-! # Elementary row operations

An eta stands for the identity plus multipliers in the column of its pivot. Scattering adds
multiples of the pivot row to other rows; gathering is the transpose and adds multiples of other
rows to the pivot row.
-/
namespace ExactSimplex

structure Eta (m : Nat) where
  pivot : Fin m
  multipliers : SparseVec m
  deriving DecidableEq

namespace Eta

variable {m : Nat}

/-- Add multiples of the pivot value to the other entries. -/
def scatter (e : Eta m) (w : Vec m) : Vec m :=
  if w.get e.pivot = 0 then w else SparseVec.addTo e.multipliers (w.get e.pivot) w

/-- Add multiples of the other entries to the pivot value. -/
def gather (e : Eta m) (w : Vec m) : Vec m :=
  Vec.addAt w e.pivot (SparseVec.dot e.multipliers w)

/-- Keep an elimination unless it does nothing. -/
def append (etas : List (Eta m)) (e : Eta m) : List (Eta m) :=
  if e.multipliers.isEmpty then etas else etas ++ [e]

def valueCount (etas : List (Eta m)) : Nat :=
  etas.foldl (fun total e => total + e.multipliers.length) 0

end Eta

end ExactSimplex
