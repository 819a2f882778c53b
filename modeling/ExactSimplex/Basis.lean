import ExactSimplex.Variable

/-! # Bases

A basis lists one basic variable per row position and the other variables at nonbasic positions,
and knows the place of every variable in these lists. In a machine the places are noted in two
lists of their own.
-/
namespace ExactSimplex

inductive Place (n m : Nat) where
  | basic (i : Fin m)
  | nonbasic (k : Fin n)
  deriving DecidableEq, Repr

structure Basis (n m : Nat) where
  basic : Vector (Var n m) m
  nonbasic : Vector (Var n m) n
  place : PerVar (Place n m) n m
  deriving DecidableEq

namespace Basis

variable {n m : Nat}

/-- The slacks are basic, each at the position of its row. -/
def slack (n m : Nat) : Basis n m where
  basic := Vector.ofFn .slack
  nonbasic := Vector.ofFn .structural
  place := ⟨Vector.ofFn .nonbasic, Vector.ofFn .basic⟩

def placeBasic (basic : Vector (Var n m) m) (place : PerVar (Place n m) n m) :
    PerVar (Place n m) n m :=
  (List.finRange m).foldl (fun place i => place.set (basic.get i) (.basic i)) place

def placeNonbasic (nonbasic : Vector (Var n m) n) (place : PerVar (Place n m) n m) :
    PerVar (Place n m) n m :=
  (List.finRange n).foldl (fun place k => place.set (nonbasic.get k) (.nonbasic k)) place

def ofLists (basic : Vector (Var n m) m) (nonbasic : Vector (Var n m) n) : Basis n m :=
  ⟨basic, nonbasic, placeNonbasic nonbasic (placeBasic basic (slack n m).place)⟩

/-- The variable at nonbasic position `k` and the one at basis position `r` change places. -/
def exchange (b : Basis n m) (r : Fin m) (k : Fin n) : Basis n m :=
  let leaving := b.basic.get r
  let entering := b.nonbasic.get k
  { basic := put b.basic r entering
    nonbasic := put b.nonbasic k leaving
    place := (b.place.set entering (.basic r)).set leaving (.nonbasic k) }

/-- Move the variable at basis position `order[i]` to position `i`. -/
def reorder (b : Basis n m) (order : Vector (Fin m) m) : Basis n m :=
  let basic := order.map fun k => b.basic.get k
  { b with basic := basic, place := placeBasic basic b.place }

def isBasic (b : Basis n m) (v : Var n m) : Bool :=
  match b.place.get v with
  | .basic _ => true
  | .nonbasic _ => false

end Basis

end ExactSimplex
