import ExactSimplex.Machine.Point
import ExactSimplex.Proofs.Machine.Contents
import ExactSimplex.Proofs.Machine.Steps

/-! # Where an action leads, whatever the threads do

The threads of a machine decide who does a job and when, but not what comes of it. An action leads from some
contents to others if it does so for all threads that have nothing left to do, or have just the one job that
is known to be under way; afterwards that is so again.
-/
namespace ExactSimplex
open ExactSimplex.Action
variable {α β : Type} {n m n' m' n'' m'' : ℕ}

namespace Helper
variable {h : Helper α} {a : α}

/-- No job is under way. -/
def Idle (h : Helper α) : Prop := h.pending = none ∧ h.inFlight = []

/-- One job is under way, and this is what it gives. -/
def Carries (h : Helper α) (a : α) : Prop :=
  (h.pending = some a ∧ h.inFlight = []) ∨ (h.pending = none ∧ h.connected = true ∧ h.inFlight = [.ok a])

theorem idle_spawn (started : Bool) : (spawn started : Helper α).Idle := ⟨rfl, rfl⟩

/-- A helper without a job takes the next one, or the caller does it. -/
theorem Idle.submit (hidle : h.Idle) (turn : Turn) (a : α) :
    ∃ h', h.submit turn (.ok a) = .ok h' ∧ h'.Carries a := by
  obtain ⟨hp, hf⟩ := hidle
  have hnone : ensure (h.pending.isNone = true) = .ok () := if_pos (by rw [hp]; rfl)
  unfold Helper.submit
  rw [hnone]
  by_cases ht : h.takes turn = true
  · refine ⟨{ h with inFlight := h.inFlight ++ [.ok a] }, if_pos ht, .inr ⟨hp, ?_, ?_⟩⟩
    · exact (Bool.and_eq_true _ _ ▸ ht : _ ∧ _).1
    · rw [hf]
      rfl
  · exact ⟨{ h with connected := false, pending := some a }, if_neg ht, .inl ⟨rfl, hf⟩⟩

/-- The result of the one job is waited for. -/
theorem Carries.wait (hc : h.Carries a) : ∃ h', h.wait = .ok (a, h') ∧ h'.Idle := by
  rcases hc with ⟨hp, hf⟩ | ⟨hp, hconnected, hf⟩
  · refine ⟨{ h with pending := none }, ?_, rfl, hf⟩
    unfold Helper.wait
    rw [hp]
  · refine ⟨{ h with inFlight := [] }, ?_, hp, rfl⟩
    unfold Helper.wait
    rw [hp, hconnected, hf]
    rfl

end Helper

namespace Contents
variable {C : Contents n m} {D : Contents n' m'} {E : Contents n'' m''} {s t : Machine} {threads : Threads}

/-- The threads have nothing left to do, apart from the job that is known to be under way. -/
structure Meets (C : Contents n m) (threads : Threads) : Prop where
  multiplier : threads.multiplier.Idle
  idle : C.tau = none → ∀ h, threads.steepestEdge = some h → h.Idle
  carries : ∀ tau, C.tau = some tau → ∃ h, threads.steepestEdge = some h ∧ h.Carries tau.toList

theorem Meets.congr (h : C.Meets threads) (ht : D.tau.map Vector.toList = C.tau.map Vector.toList) :
    D.Meets threads where
  multiplier := h.multiplier
  idle hd := h.idle (by simpa [hd] using ht.symm)
  carries tau hd := by
    rw [hd, Option.map_some] at ht
    obtain ⟨tau', hc, hlist⟩ := Option.map_eq_some_iff.mp ht.symm
    rw [← hlist]
    exact h.carries tau' hc

/-- An action ends with a value in a machine with these contents. -/
def Reaches (p : Action Machine α) (s : Machine) (a : α) (D : Contents n' m') : Prop :=
  ∃ threads, D.Meets threads ∧ p.run s = .ok (.ok a, D.machine threads)

/-- From these contents an action leads to others. -/
def Leads (p : Action Machine α) (C : Contents n m) (a : α) (D : Contents n' m') : Prop :=
  ∀ threads, C.Meets threads → Reaches p (C.machine threads) a D

section Rules
variable {p : Action Machine α} {f : α → Action Machine β} {a : α} {b : β}

theorem Reaches.bind (hp : Reaches p s a D) (hf : Leads (f a) D b E) : Reaches (p >>= f) s b E := by
  obtain ⟨threads, hmeets, hrun⟩ := hp
  obtain ⟨threads', hmeets', hrun'⟩ := hf threads hmeets
  exact ⟨threads', hmeets', (run_bind_of_value hrun).trans hrun'⟩

theorem Leads.bind (hp : Leads p C a D) (hf : Leads (f a) D b E) : Leads (p >>= f) C b E :=
  fun threads hmeets => (hp threads hmeets).bind hf

theorem Meets.reaches_pure (h : C.Meets threads) (a : α) : Reaches (pure a) (C.machine threads) a C :=
  ⟨threads, h, rfl⟩

theorem leads_pure (C : Contents n m) (a : α) : Leads (pure a) C a C := fun _ h => h.reaches_pure a

theorem leads_get_bind {g : Machine → Action Machine β} (h : ∀ threads, Leads (g (C.machine threads)) C b E) :
    Leads (get >>= g) C b E := fun threads hmeets => h threads threads hmeets

theorem reaches_get_bind {g : Machine → Action Machine β} (h : Reaches (g s) s b E) : Reaches (get >>= g) s b E := h

theorem reaches_lift_bind {x : Except Failure α} (hx : x = .ok a) (hf : Reaches (f a) s b E) :
    Reaches (liftM x >>= f) s b E := by
  obtain ⟨threads, hmeets, hrun⟩ := hf
  exact ⟨threads, hmeets, (run_lift_bind hx).trans hrun⟩

theorem reaches_set_bind {g : PUnit → Action Machine β} (ht : t = D.machine threads) (hmeets : D.Meets threads)
    (hg : Leads (g ()) D b E) : Reaches (set t >>= g) s b E := by
  subst ht
  exact hg threads hmeets

theorem leads_lift {x : Except Failure α} (hx : x = .ok a) : Leads (liftM x) C a C :=
  fun threads hmeets => ⟨threads, hmeets, run_lift hx _⟩

theorem leads_lift_bind {x : Except Failure α} (hx : x = .ok a) (hf : Leads (f a) C b E) :
    Leads (liftM x >>= f) C b E := (leads_lift hx).bind hf

theorem leads_step {f : Machine → Except Failure Machine}
    (h : ∀ threads, f (C.machine threads) = .ok (D.machine threads))
    (ht : D.tau.map Vector.toList = C.tau.map Vector.toList) : Leads (Machine.step f) C () D :=
  fun threads hmeets => ⟨threads, hmeets.congr ht, Machine.run_step (h threads)⟩

theorem leads_modify {g : Machine → Machine} (h : ∀ threads, g (C.machine threads) = D.machine threads)
    (ht : D.tau.map Vector.toList = C.tau.map Vector.toList) : Leads (modify g) C () D :=
  fun threads hmeets => ⟨threads, hmeets.congr ht, by rw [run_modify, h]⟩

theorem leads_attempt (hp : Leads p C a D) : Leads p.attempt C (.ok a) D := by
  intro threads hmeets
  obtain ⟨threads', hmeets', hrun⟩ := hp threads hmeets
  exact ⟨threads', hmeets', by rw [run_attempt, hrun]; rfl⟩

theorem leads_record (C : Contents n m) (e : Event) :
    Leads (Machine.record e) C () { C with log := C.log.push e } := leads_modify (fun _ => rfl) rfl

end Rules

/-- Whatever happens outside next, the contents stay. -/
theorem reaches_nextTurn (h : C.Meets threads) :
    ∃ turn schedule, Machine.nextTurn.run (C.machine threads) =
      .ok (.ok turn, C.machine { threads with schedule := schedule }) ∧
      C.Meets { threads with schedule := schedule } := by
  cases hs : threads.schedule with
  | nil =>
    refine ⟨{}, threads.schedule, ?_, ⟨h.multiplier, h.idle, h.carries⟩⟩
    rw [Machine.nextTurn, run_get_bind]
    simp only [machine, hs]
    rfl
  | cons turn rest =>
    refine ⟨turn, rest, ?_, ⟨h.multiplier, h.idle, h.carries⟩⟩
    rw [Machine.nextTurn, run_get_bind]
    simp only [machine, hs]
    rfl

end Contents

end ExactSimplex
