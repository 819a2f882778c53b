/-! # Tables of fixed size

A table of `m` values is read and written at an index below `m`.
-/
namespace ExactSimplex

variable {α : Type} {m : Nat}

def put (table : Vector α m) (i : Fin m) (a : α) : Vector α m := table.set i.val a i.isLt

@[simp] theorem get_put (table : Vector α m) (i j : Fin m) (a : α) :
    (put table i a).get j = if i = j then a else table.get j := by
  change (table.set i.val a i.isLt)[j.val] = if i = j then a else table[j.val]
  simp [Vector.getElem_set, Fin.ext_iff]

def tableOf (xs : List α) (h : xs.length = m) : Vector α m :=
  ⟨xs.toArray, List.size_toArray.trans h⟩

/-- The entries of a list as a table of the given size, if their number is right. -/
def tableOf? (m : Nat) (xs : List α) : Option (Vector α m) :=
  if h : xs.length = m then some (tableOf xs h) else none

end ExactSimplex
