import ExactSimplex.Table

/-! # Dense and sparse vectors

A sparse vector lists entries in any order; an index may occur more than once, and then its values
add up wherever the vector is used as a summand.
-/
namespace ExactSimplex

abbrev Vec (m : Nat) := Vector Rat m

abbrev SparseVec (m : Nat) := List (Fin m × Rat)

variable {m : Nat}

namespace Vec

def zero (m : Nat) : Vec m := Vector.replicate m 0

def addAt (w : Vec m) (i : Fin m) (v : Rat) : Vec m := put w i (w.get i + v)

def unit (i : Fin m) : Vec m := put (zero m) i 1

@[simp] theorem get_zero (i : Fin m) : (zero m).get i = 0 := by
  change (Vector.replicate m (0 : Rat))[i.val] = 0
  simp

@[simp] theorem get_addAt (w : Vec m) (i j : Fin m) (v : Rat) :
    (addAt w i v).get j = if i = j then w.get j + v else w.get j := by
  by_cases h : i = j
  · subst h; simp [addAt]
  · simp [addAt, h]

@[simp] theorem get_unit (i j : Fin m) : (unit i).get j = if i = j then 1 else 0 := by
  simp [unit]

/-- The nonzero entries by increasing index. -/
def support (w : Vec m) : SparseVec m :=
  ((List.finRange m).map fun i => (i, w.get i)).filter fun e => e.2 ≠ 0

def normSq (w : Vec m) : Rat := w.foldl (fun total v => total + v * v) 0

end Vec

namespace SparseVec

def addTo (s : SparseVec m) (factor : Rat) (w : Vec m) : Vec m :=
  s.foldl (fun w e => Vec.addAt w e.1 (e.2 * factor)) w

def dot (s : SparseVec m) (w : Vec m) : Rat :=
  s.foldl (fun total e => total + e.2 * w.get e.1) 0

/-- Write the entries over a dense vector, the last one of an index counting. -/
def writeTo (s : SparseVec m) (w : Vec m) : Vec m :=
  s.foldl (fun w e => put w e.1 e.2) w

def without (s : SparseVec m) (i : Fin m) : SparseVec m := s.filter fun e => e.1 ≠ i

end SparseVec

end ExactSimplex
