import ExactSimplex.Table

/-! # Variables

A problem with `n` structural variables and `m` rows has `n + m` variables: the structural ones
come first, then the slack of every row.
-/
namespace ExactSimplex

inductive Var (n m : Nat) where
  | structural (j : Fin n)
  | slack (i : Fin m)
  deriving DecidableEq, Repr

namespace Var

variable {n m : Nat}

/-- The position of a variable in the common numbering. -/
def index : Var n m → Nat
  | structural j => j
  | slack i => n + i

def all (n m : Nat) : List (Var n m) :=
  (List.finRange n).map structural ++ (List.finRange m).map slack

theorem length_all : (all n m).length = n + m := by simp [all]

theorem mem_all (v : Var n m) : v ∈ all n m := by
  cases v <;> simp [all]

end Var

structure PerVar (α : Type) (n m : Nat) where
  structural : Vector α n
  slack : Vector α m
  deriving DecidableEq

namespace PerVar

variable {α β : Type} {n m : Nat}

def const (a : α) : PerVar α n m := ⟨Vector.replicate n a, Vector.replicate m a⟩

def get (t : PerVar α n m) : Var n m → α
  | .structural j => t.structural.get j
  | .slack i => t.slack.get i

def set (t : PerVar α n m) : Var n m → α → PerVar α n m
  | .structural j, a => { t with structural := put t.structural j a }
  | .slack i, a => { t with slack := put t.slack i a }

def map (f : α → β) (t : PerVar α n m) : PerVar β n m :=
  ⟨t.structural.map f, t.slack.map f⟩

def add (t : PerVar Rat n m) (v : Var n m) (change : Rat) : PerVar Rat n m :=
  t.set v (t.get v + change)

@[simp] theorem get_set (t : PerVar α n m) (v w : Var n m) (a : α) :
    (t.set v a).get w = if v = w then a else t.get w := by
  cases v <;> cases w <;> simp [set, get]

@[simp] theorem get_add (t : PerVar Rat n m) (v w : Var n m) (change : Rat) :
    (t.add v change).get w = if v = w then t.get w + change else t.get w := by
  by_cases h : v = w
  · subst h; simp [add]
  · simp [add, h]

end PerVar

end ExactSimplex
