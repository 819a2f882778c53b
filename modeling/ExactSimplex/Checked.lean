import ExactSimplex.Error

/-! # Checked steps

Plain lists are read, written and cut at any numbers; one outside of the list is a failure, as are a
division by zero and an assertion that does not hold. An action works on a state: when it is refused it
keeps the state that it has reached, and when it fails there is none.
-/
namespace ExactSimplex

variable {σ τ α β : Type}

def read (xs : List α) (i : Nat) : Except Failure α :=
  match xs[i]? with
  | some a => .ok a
  | none => .error .outside

def write (xs : List α) (i : Nat) (a : α) : Except Failure (List α) :=
  if i < xs.length then .ok (xs.set i a) else .error .outside

def change (xs : List α) (i : Nat) (f : α → α) : Except Failure (List α) := do
  write xs i (f (← read xs i))

/-- The entries from one place to before another. -/
def slice (xs : List α) (start stop : Nat) : Except Failure (List α) :=
  if start ≤ stop ∧ stop ≤ xs.length then .ok ((xs.drop start).take (stop - start))
  else .error .outside

/-- A list without the entries from one place to before another. -/
def drain (xs : List α) (start stop : Nat) : Except Failure (List α) :=
  if start ≤ stop ∧ stop ≤ xs.length then .ok (xs.take start ++ xs.drop stop)
  else .error .outside

def removeAt (xs : List α) (i : Nat) : Except Failure (List α) :=
  if i < xs.length then .ok (xs.eraseIdx i) else .error .outside

/-- Change the entries of a list along with those of another one, from a place on, as far as both go. -/
def changeAlong (f : Nat → α → β → Except Failure α) : Nat → List α → List β → Except Failure (List α)
  | i, a :: as, b :: bs => return (← f i a b) :: (← changeAlong f (i + 1) as bs)
  | _, as, _ => .ok as

def subtract (a b : Nat) : Except Failure Nat :=
  if b ≤ a then .ok (a - b) else .error .outside

def divide (a b : Rat) : Except Failure Rat :=
  if b = 0 then .error .divisionByZero else .ok (a / b)

def addUp (values : List Rat) : Rat := values.foldl (· + ·) 0

def ensure (p : Prop) [Decidable p] : Except Failure Unit :=
  if p then .ok () else .error .assertion

/-- Refuse unless a condition holds. -/
def require (p : Prop) [Decidable p] (cause : Error) : Except Failure Unit :=
  if p then .ok () else .error (.refused cause)

def requireLength (what : Quantity) (expected : Nat) (xs : List α) : Except Failure Unit :=
  require (xs.length = expected) (.wrongLength what xs.length expected)

def requireIndex (what : Entity) (count index : Nat) : Except Failure Unit :=
  require (index < count) (.outOfRange what index count)

/-- A computation on a state. It fails, or it ends in a state with a value or with a refusal. -/
structure Action (σ α : Type) where
  run : σ → Except Failure (Except Error α × σ)

namespace Action

instance : Monad (Action σ) where
  pure a := ⟨fun s => .ok (.ok a, s)⟩
  bind p f := ⟨fun s =>
    match p.run s with
    | .ok (.ok a, t) => (f a).run t
    | .ok (.error cause, t) => .ok (.error cause, t)
    | .error failure => .error failure⟩

/-- A computation that does not touch the state; a refusal leaves the state as it is. -/
instance : MonadLift (Except Failure) (Action σ) where
  monadLift x := ⟨fun s =>
    match x with
    | .ok a => .ok (.ok a, s)
    | .error (.refused cause) => .ok (.error cause, s)
    | .error failure => .error failure⟩

instance : MonadStateOf σ (Action σ) where
  get := ⟨fun s => .ok (.ok s, s)⟩
  set t := ⟨fun _ => .ok (.ok (), t)⟩
  modifyGet f := ⟨fun s => .ok (.ok (f s).1, (f s).2)⟩

/-- Go on after a refusal, which becomes a value. -/
def attempt (p : Action σ α) : Action σ (Except Error α) :=
  ⟨fun s => (p.run s).map fun r => (.ok r.1, r.2)⟩

/-- Work on a part of the state. -/
def within (part : σ → τ) (replace : σ → τ → σ) (p : Action τ α) : Action σ α :=
  ⟨fun s => (p.run (part s)).map fun r => (r.1, replace s r.2)⟩

end Action

end ExactSimplex
