import ExactSimplex.Solver.Edit

/-! # Solving

A solve starts from the basis at hand. Without one, the provider is asked for a suggestion, and
failing that the slack basis is used. A ray guess is checked first: if it proves infeasible,
nothing has to be searched. The answer is always verified exactly.
-/
namespace ExactSimplex

/-- What a solve answers: the verdict or why there is none, the solver afterwards, the events, and
the problem that the provider was shown, if it was asked. -/
structure Report (n m : Nat) where
  outcome : Except Failure Verdict
  solver : Solver n m
  events : Array Event
  shown : Option (Problem n m)

namespace Solver

variable {n m : Nat}

def follow (S : Solver n m) (suggestion : Suggestion) : Solver n m × Array Event :=
  let (S, events) := match S.setStatuses suggestion.structural suggestion.slack with
    | .ok next => (next, #[Event.importedBasis])
    | .error cause => (S, #[Event.ignoredBasis cause])
  match suggestion.ray with
  | none => (S, events)
  | some ray =>
    match S.setGuess ray with
    | .ok next => (next, events)
    | .error cause => (S, events.push (.ignoredRay cause))

/-- Ask the provider, if there is one, for its next suggestion. -/
def consult (S : Solver n m) : Solver n m × Array Event × Option (Problem n m) :=
  match S.provider with
  | none => (S, #[], none)
  | some [] => (S, #[], some S.problem)
  | some (none :: rest) => ({ S with provider := some rest }, #[], some S.problem)
  | some (some suggestion :: rest) =>
    let (next, events) := ({ S with provider := some rest } : Solver n m).follow suggestion
    (next, events, some S.problem)

/-- The search state of the slack basis, in which every row of the inverse has norm one. -/
def slackState (S : Solver n m) (log : Array Event) : Except Failure (State n m) :=
  State.ofPoint S.problem S.config.searchLimit (Point.origin n m) 0
    (some (Vector.replicate m 1)) none log

/-- The search state that a solve starts from. An imported basis that is singular is given up. -/
def startState (S : Solver n m) (log : Array Event) : Except Failure (State n m) :=
  match S.start with
  | .cold => S.slackState log
  | .warm state => .ok { state with stuck := none, log := log }
  | .imported point =>
    match State.ofPoint S.problem S.config.searchLimit point 0 none none log with
    | .ok state => .ok state
    | .error (.refused cause) => S.slackState (log.push (.unusableBasis cause))
    | .error failure => .error failure

def report (S : Solver n m) (shown : Option (Problem n m)) (outcome : Except Failure Verdict)
    (state : State n m) : Report n m :=
  ⟨outcome, { S with start := .warm { state with log := #[] } }, state.log, shown⟩

def search (S : Solver n m) (shown : Option (Problem n m)) (state : State n m) : Report n m :=
  match S.problem.contradictory? with
  | some v =>
    let state := (state.record (.contradictoryBounds v.index)).record (.finished .infeasible)
    ({ S with proof := some (Vec.zero m) } : Solver n m).report shown (.ok .infeasible) state
  | none =>
    match state.solve S.problem S.config with
    | .error halt => S.report shown (.error halt.failure) halt.state
    | .ok (state, verdict) =>
      let S := if verdict = .optimal then { S with guess := none } else S
      S.report shown (.ok verdict) (state.record (.finished verdict))

def searchWithGuess (S : Solver n m) (shown : Option (Problem n m)) (state : State n m) :
    Report n m :=
  match S.guess with
  | none => S.search shown state
  | some guess =>
    match S.problem.checkGuess S.config state guess with
    | none => S.report shown (.error .divisionByZero) state
    | some (.error event) => S.search shown (state.record event)
    | some (.ok y) =>
      match state.recompute S.problem with
      | none => S.report shown (.error .divisionByZero) state
      | some state =>
        ({ S with proof := some y } : Solver n m).report shown (.ok .infeasible)
          (state.record .guessVerified)

def optimize (S : Solver n m) : Report n m :=
  let S := S.withoutProof
  let (S, events, shown) := match S.start with
    | .cold => S.consult
    | _ => (S, #[], none)
  match S.startState events with
  | .error failure => ⟨.error failure, S, events, shown⟩
  | .ok state => S.searchWithGuess shown state

end Solver

end ExactSimplex
