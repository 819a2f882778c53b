import ExactSimplex.Checked
import Mathlib.Data.List.Forall2

/-! # Checked steps and actions

A step that is within its bounds gives what the plain operation gives. An action is followed piece by
piece: what comes after a piece depends only on how that piece has ended.
-/
namespace ExactSimplex
variable {σ τ α β : Type}

theorem read_eq_ok_iff {xs : List α} {i : ℕ} {a : α} : read xs i = .ok a ↔ xs[i]? = some a := by
  unfold read
  cases xs[i]? <;> simp

theorem read_eq_outside_iff {xs : List α} {i : ℕ} : read xs i = .error .outside ↔ xs.length ≤ i := by
  unfold read
  cases h : xs[i]? with
  | none => simpa using h
  | some a =>
    have hi : i < xs.length := (List.getElem?_eq_some_iff.mp h).1
    simp [hi]

theorem read_of_lt {xs : List α} {i : ℕ} (h : i < xs.length) : read xs i = .ok xs[i] :=
  read_eq_ok_iff.mpr (List.getElem?_eq_getElem h)

/-- Lists that read the same everywhere are the same. -/
theorem ext_read {xs ys : List α} (h : ∀ i, read xs i = read ys i) : xs = ys := by
  refine List.ext_getElem? fun i => ?_
  cases hy : ys[i]? with
  | some a => exact read_eq_ok_iff.mp ((h i).trans (read_eq_ok_iff.mpr hy))
  | none =>
    have hlong := (h i).trans (read_eq_outside_iff.mpr (List.getElem?_eq_none_iff.mp hy))
    exact List.getElem?_eq_none_iff.mpr (read_eq_outside_iff.mp hlong)

theorem write_of_lt {xs : List α} {i : ℕ} (h : i < xs.length) (a : α) :
    write xs i a = .ok (xs.set i a) := if_pos h

theorem write_eq_ok_iff {xs ys : List α} {i : ℕ} {a : α} :
    write xs i a = .ok ys ↔ i < xs.length ∧ ys = xs.set i a := by
  unfold write
  split
  · next h => simp [h, eq_comm]
  · next h => simp [h]

theorem length_of_write {xs ys : List α} {i : ℕ} {a : α} (h : write xs i a = .ok ys) :
    ys.length = xs.length := by
  unfold write at h
  split at h
  · cases h
    exact List.length_set
  · cases h

theorem length_of_change {xs ys : List α} {i : ℕ} {f : α → α} (h : change xs i f = .ok ys) :
    ys.length = xs.length := by
  unfold change at h
  cases hread : read xs i with
  | error failure =>
    rw [hread] at h
    cases h
  | ok a =>
    rw [hread] at h
    exact length_of_write h

theorem length_of_removeAt {xs ys : List α} {i : ℕ} (h : removeAt xs i = .ok ys) :
    ys.length = xs.length - 1 := by
  unfold removeAt at h
  split at h
  · next hi =>
    cases h
    rw [List.length_eraseIdx, if_pos hi]
  · cases h

theorem length_of_changeAlong {f : ℕ → α → β → Except Failure α} {i : ℕ} {xs ys : List α}
    {bs : List β} (h : changeAlong f i xs bs = .ok ys) : ys.length = xs.length := by
  induction xs generalizing i bs ys with
  | nil =>
    cases h
    rfl
  | cons a xs ih =>
    cases bs with
    | nil =>
      cases h
      rfl
    | cons b bs =>
      rw [changeAlong] at h
      cases hb : f i a b with
      | error failure =>
        rw [hb] at h
        cases h
      | ok c =>
        cases hrest : changeAlong f (i + 1) xs bs with
        | error failure =>
          rw [hb, hrest] at h
          cases h
        | ok zs =>
          rw [hb, hrest] at h
          cases h
          simp [ih hrest]

theorem changeAlong_of_getElem {f : ℕ → α → β → Except Failure α} {i : ℕ} {xs ys : List α} {bs : List β}
    (hb : bs.length = xs.length) (hy : ys.length = xs.length)
    (h : ∀ k (hk : k < xs.length), f (i + k) xs[k] (bs.get ⟨k, hb ▸ hk⟩) = .ok (ys.get ⟨k, hy ▸ hk⟩)) :
    changeAlong f i xs bs = .ok ys := by
  induction xs generalizing i bs ys with
  | nil =>
    cases List.length_eq_zero_iff.mp hy
    rfl
  | cons a xs ih =>
    obtain ⟨b, bs, rfl⟩ := List.exists_cons_of_length_eq_add_one hb
    obtain ⟨c, ys, rfl⟩ := List.exists_cons_of_length_eq_add_one hy
    have hrest : changeAlong f (i + 1) xs bs = .ok ys := ih (by simpa using hb) (by simpa using hy) fun k hk => by
      have hk' := h (k + 1) (by simpa using hk)
      simpa [Nat.add_comm, Nat.add_left_comm] using hk'
    have hhead : f i a b = .ok c := h 0 (Nat.succ_pos _)
    rw [changeAlong, hhead, hrest]
    rfl

theorem bind_of_ok {ε : Type} {x : Except ε α} {f : α → Except ε β} {a : α} (h : x = .ok a) :
    x >>= f = f a := by
  rw [h]
  rfl

theorem ensure_eq_ok_iff {p : Prop} [Decidable p] {u : Unit} : ensure p = .ok u ↔ p := by
  unfold ensure
  split
  · next h => simp [h]
  · next h => simp [h]

theorem subtract_eq_ok_iff {a b c : ℕ} : subtract a b = .ok c ↔ b ≤ a ∧ c = a - b := by
  unfold subtract
  split
  · next h => simp [h, eq_comm]
  · next h => simp [h]

/-- What every step of a loop keeps is true of its result. -/
theorem of_foldlM {ε : Type} {f : α → β → Except ε α} {I : α → Prop} {bs : List β} {a c : α}
    (h : bs.foldlM f a = .ok c) (ha : I a) (hstep : ∀ a, ∀ b ∈ bs, ∀ c, I a → f a b = .ok c → I c) :
    I c := by
  induction bs generalizing a with
  | nil =>
    cases h
    exact ha
  | cons b bs ih =>
    rw [List.foldlM_cons] at h
    cases hb : f a b with
    | error failure =>
      rw [hb] at h
      cases h
    | ok a' =>
      rw [hb] at h
      exact ih h (hstep a b List.mem_cons_self a' ha hb)
        fun a b' hb' c => hstep a b' (List.mem_cons_of_mem b hb') c

/-- A loop has a result if every step has one that allows for the next step. -/
theorem exists_foldlM {ε : Type} {f : α → β → Except ε α} {I : α → Prop} {l : List β} {a : α} (ha : I a)
    (hstep : ∀ a, ∀ b ∈ l, I a → ∃ c, f a b = .ok c ∧ I c) : ∃ c, l.foldlM f a = .ok c := by
  induction l generalizing a with
  | nil => exact ⟨a, rfl⟩
  | cons b l ih =>
    obtain ⟨c, hc, hI⟩ := hstep a b List.mem_cons_self ha
    rw [List.foldlM_cons, hc]
    exact ih hI fun a b' hb' => hstep a b' (List.mem_cons_of_mem b hb')

section MapM
variable {ε : Type} {f : α → Except ε β} {g : α → β} {xs : List α} {ys : List β}

theorem forall₂_of_mapM (h : xs.mapM f = .ok ys) : List.Forall₂ (fun x y => f x = .ok y) xs ys := by
  induction xs generalizing ys with
  | nil =>
    cases h
    exact .nil
  | cons x xs ih =>
    rw [List.mapM_cons] at h
    cases hx : f x with
    | error failure =>
      rw [hx] at h
      cases h
    | ok y =>
      cases hrest : xs.mapM f with
      | error failure =>
        rw [hx, hrest] at h
        cases h
      | ok zs =>
        rw [hx, hrest] at h
        cases h
        exact .cons hx (ih hrest)

theorem mapM_of_forall₂ (h : List.Forall₂ (fun x y => f x = .ok y) xs ys) : xs.mapM f = .ok ys := by
  induction h with
  | nil => rfl
  | cons hx _ ih =>
    rw [List.mapM_cons, hx, ih]
    rfl

theorem mapM_of_forall (h : ∀ x ∈ xs, f x = .ok (g x)) : xs.mapM f = .ok (xs.map g) :=
  mapM_of_forall₂ (List.forall₂_map_right_iff.mpr (List.forall₂_same.mpr h))

end MapM

theorem require_of {p : Prop} [Decidable p] (h : p) (cause : Error) : require p cause = .ok () :=
  if_pos h

theorem require_of_not {p : Prop} [Decidable p] (h : ¬ p) (cause : Error) :
    require p cause = .error (.refused cause) := if_neg h

theorem requireLength_of {xs : List α} {k : ℕ} (h : xs.length = k) (what : Quantity) :
    requireLength what k xs = .ok () := require_of h _

theorem requireLength_of_ne {xs : List α} {k : ℕ} (h : xs.length ≠ k) (what : Quantity) :
    requireLength what k xs = .error (.refused (.wrongLength what xs.length k)) := require_of_not h _

theorem requireIndex_of_lt {i k : ℕ} (h : i < k) (what : Entity) : requireIndex what k i = .ok () :=
  require_of h _

theorem requireIndex_of_not_lt {i k : ℕ} (h : ¬ i < k) (what : Entity) :
    requireIndex what k i = .error (.refused (.outOfRange what i k)) := require_of_not h _

theorem require_eq_ok_iff {p : Prop} [Decidable p] {cause : Error} {u : Unit} :
    require p cause = .ok u ↔ p := by
  unfold require
  split
  · next h => simp [h]
  · next h => simp [h]

theorem requireLength_eq_ok_iff {what : Quantity} {k : ℕ} {xs : List α} {u : Unit} :
    requireLength what k xs = .ok u ↔ xs.length = k := require_eq_ok_iff

theorem requireIndex_eq_ok_iff {what : Entity} {k i : ℕ} {u : Unit} :
    requireIndex what k i = .ok u ↔ i < k := require_eq_ok_iff

/-- A step may fail, but it is not refused. -/
def NeverRefused (x : Except Failure α) : Prop := ∀ cause, x ≠ .error (.refused cause)

section NeverRefused
variable {x : Except Failure α} {f : α → Except Failure β}

theorem neverRefused_ok (a : α) : NeverRefused (.ok a) := fun _ h => by cases h

theorem NeverRefused.bind (hx : NeverRefused x) (hf : ∀ a, NeverRefused (f a)) :
    NeverRefused (x >>= f) := by
  cases x with
  | ok a => exact hf a
  | error failure => exact fun cause h => hx cause (by cases h; rfl)

theorem neverRefused_foldlM {g : β → α → Except Failure β} (hg : ∀ b a, NeverRefused (g b a))
    (as : List α) (b : β) : NeverRefused (as.foldlM g b) := by
  induction as generalizing b with
  | nil => exact neverRefused_ok b
  | cons a as ih =>
    rw [List.foldlM_cons]
    exact (hg b a).bind ih

theorem neverRefused_mapM (hf : ∀ a, NeverRefused (f a)) (as : List α) : NeverRefused (as.mapM f) := by
  induction as with
  | nil => exact neverRefused_ok _
  | cons a as ih =>
    rw [List.mapM_cons]
    exact (hf a).bind fun b => ih.bind fun bs => neverRefused_ok _

theorem neverRefused_read (xs : List α) (i : ℕ) : NeverRefused (read xs i) := by
  unfold read
  split
  · exact neverRefused_ok _
  · exact fun _ h => by cases h

theorem neverRefused_write (xs : List α) (i : ℕ) (a : α) : NeverRefused (write xs i a) := by
  unfold write
  split
  · exact neverRefused_ok _
  · exact fun _ h => by cases h

theorem neverRefused_change (xs : List α) (i : ℕ) (g : α → α) : NeverRefused (change xs i g) :=
  (neverRefused_read xs i).bind fun _ => neverRefused_write xs i _

theorem neverRefused_removeAt (xs : List α) (i : ℕ) : NeverRefused (removeAt xs i) := by
  unfold removeAt
  split
  · exact neverRefused_ok _
  · exact fun _ h => by cases h

theorem neverRefused_slice (xs : List α) (start stop : ℕ) : NeverRefused (slice xs start stop) := by
  unfold slice
  split
  · exact neverRefused_ok _
  · exact fun _ h => by cases h

end NeverRefused

namespace Action
variable {p : Action σ α} {f : α → Action σ β} {s t : σ} {a : α}

theorem run_bind_of_value (h : p.run s = .ok (.ok a, t)) : (p >>= f).run s = (f a).run t := by
  simp only [bind, h]

theorem run_bind_of_refused {cause : Error} (h : p.run s = .ok (.error cause, t)) :
    (p >>= f).run s = .ok (.error cause, t) := by
  simp only [bind, h]

theorem run_bind_of_failure {failure : Failure} (h : p.run s = .error failure) :
    (p >>= f).run s = .error failure := by
  simp only [bind, h]

@[simp] theorem run_modify (g : σ → σ) (s : σ) :
    (modify g : Action σ PUnit).run s = .ok (.ok (), g s) := rfl

@[simp] theorem run_get_bind (g : σ → Action σ β) (s : σ) :
    ((get : Action σ σ) >>= g).run s = (g s).run s := rfl

@[simp] theorem run_modify_bind (h : σ → σ) (g : PUnit → Action σ β) (s : σ) :
    ((modify h : Action σ PUnit) >>= g).run s = (g ()).run (h s) := rfl

theorem run_lift {x : Except Failure α} (h : x = .ok a) (s : σ) :
    (liftM x : Action σ α).run s = .ok (.ok a, s) := by
  rw [h]
  rfl

theorem run_lift_bind {x : Except Failure α} (h : x = .ok a) :
    ((liftM x : Action σ α) >>= f).run s = (f a).run s := by
  rw [h]
  rfl

theorem run_lift_bind_of_refused {x : Except Failure α} {cause : Error}
    (h : x = .error (.refused cause)) :
    ((liftM x : Action σ α) >>= f).run s = .ok (.error cause, s) := by
  rw [h]
  rfl

/-- What an action gives, unless it fails or is refused. -/
def value? (p : Action σ α) (s : σ) : Option (α × σ) :=
  match p.run s with
  | .ok (.ok a, t) => some (a, t)
  | _ => none

/-- Whatever an action comes to, unless it fails, its outcome and the state that it leaves satisfy a
condition. -/
def Ends (p : Action σ α) (s : σ) (K : Except Error α → σ → Prop) : Prop :=
  ∀ r t, p.run s = .ok (r, t) → K r t

theorem Ends.mono {J K : Except Error α → σ → Prop} (h : p.Ends s J) (hJK : ∀ r t, J r t → K r t) :
    p.Ends s K := fun r t hrun => hJK r t (h r t hrun)

theorem Ends.and {J K : Except Error α → σ → Prop} (hJ : p.Ends s J) (hK : p.Ends s K) :
    p.Ends s fun r t => J r t ∧ K r t := fun r t hrun => ⟨hJ r t hrun, hK r t hrun⟩

/-- An action keeps a property of the state, whatever it comes to. -/
def Keeps (I : σ → Prop) (p : Action σ α) : Prop := ∀ s, I s → p.Ends s fun _ => I

section Ends
variable {J : Except Error α → σ → Prop} {K : Except Error β → σ → Prop}

theorem Ends.bind (hp : p.Ends s J) (hvalue : ∀ a t, J (.ok a) t → (f a).Ends t K)
    (hrefused : ∀ cause t, J (.error cause) t → K (.error cause) t) : (p >>= f).Ends s K := by
  intro r t h
  cases hrun : p.run s with
  | error failure =>
    rw [run_bind_of_failure hrun] at h
    cases h
  | ok e =>
    obtain ⟨a | a, u⟩ := e
    · rw [run_bind_of_refused hrun] at h
      cases h
      exact hrefused a _ (hp _ _ hrun)
    · rw [run_bind_of_value hrun] at h
      exact hvalue a u (hp _ _ hrun) r t h

theorem ends_bind_of_value (h : p.run s = .ok (.ok a, t)) (hf : (f a).Ends t K) :
    (p >>= f).Ends s K := by
  rw [Ends, run_bind_of_value h]
  exact hf

theorem ends_get_bind {g : σ → Action σ β} (h : (g s).Ends s K) :
    ((get : Action σ σ) >>= g).Ends s K := h

theorem ends_set_bind {g : PUnit → Action σ β} (h : (g ()).Ends t K) :
    ((set t : Action σ PUnit) >>= g).Ends s K := h

theorem ends_modify_bind {h : σ → σ} {g : PUnit → Action σ β} (hg : (g ()).Ends (h s) K) :
    ((modify h : Action σ PUnit) >>= g).Ends s K := hg

theorem ends_lift {x : Except Failure α} (hvalue : ∀ a, x = .ok a → J (.ok a) s)
    (hrefused : ∀ cause, x = .error (.refused cause) → J (.error cause) s) :
    (liftM x : Action σ α).Ends s J := by
  intro r t h
  cases hx : x with
  | ok a =>
    rw [hx] at h
    cases h
    exact hvalue a hx
  | error failure =>
    rw [hx] at h
    cases failure <;> cases h
    exact hrefused _ hx

theorem ends_lift_bind {x : Except Failure α} (hvalue : ∀ a, x = .ok a → (f a).Ends s K)
    (hrefused : ∀ cause, x = .error (.refused cause) → K (.error cause) s) :
    ((liftM x : Action σ α) >>= f).Ends s K := by
  have hx : (liftM x : Action σ α).Ends s fun r t =>
      t = s ∧ match r with
        | .ok a => x = .ok a
        | .error cause => x = .error (.refused cause) :=
    ends_lift (fun _ ha => ⟨rfl, ha⟩) fun _ hc => ⟨rfl, hc⟩
  exact hx.bind (fun a t h => h.1 ▸ hvalue a h.2) fun cause t h => h.1 ▸ hrefused cause h.2

theorem run_attempt (p : Action σ α) (s : σ) :
    p.attempt.run s = (p.run s).map fun e => (.ok e.1, e.2) := rfl

theorem Ends.attempt_bind {g : Except Error α → Action σ β} (hp : p.Ends s J)
    (hg : ∀ r t, J r t → (g r).Ends t K) : (p.attempt >>= g).Ends s K := by
  intro r t h
  cases hrun : p.run s with
  | error failure =>
    rw [run_bind_of_failure (by rw [run_attempt, hrun]; rfl)] at h
    cases h
  | ok e =>
    rw [run_bind_of_value (by rw [run_attempt, hrun]; rfl)] at h
    exact hg e.1 e.2 (hp _ _ hrun) r t h

end Ends

section Keeps
variable {I : σ → Prop}

theorem Keeps.bind (hp : p.Keeps I) (hf : ∀ a, (f a).Keeps I) : (p >>= f).Keeps I :=
  fun s hs => (hp s hs).bind (fun a t ht => hf a t ht) fun _ _ ht => ht

theorem keeps_get_bind {g : σ → Action σ β} (hg : ∀ s, I s → (g s).Keeps I) :
    ((get : Action σ σ) >>= g).Keeps I := fun s hs => ends_get_bind (hg s hs s hs)

theorem keeps_pure (a : α) : (pure a : Action σ α).Keeps I := by
  intro s hs r t h
  cases h
  exact hs

theorem keeps_lift (x : Except Failure α) : (liftM x : Action σ α).Keeps I :=
  fun _ hs => ends_lift (fun _ _ => hs) fun _ _ => hs

theorem keeps_modify {h : σ → σ} (hI : ∀ s, I s → I (h s)) : (modify h : Action σ PUnit).Keeps I := by
  intro s hs r t hrun
  cases hrun
  exact hI s hs

theorem keeps_set {t : σ} (ht : I t) : (set t : Action σ PUnit).Keeps I := by
  intro s _ r u hrun
  cases hrun
  exact ht

theorem Keeps.attempt_bind {g : Except Error α → Action σ β} (hp : p.Keeps I)
    (hg : ∀ r, (g r).Keeps I) : (p.attempt >>= g).Keeps I :=
  fun s hs => (hp s hs).attempt_bind fun r t ht => hg r t ht

theorem keeps_forM {g : β → Action σ PUnit} (hg : ∀ b, (g b).Keeps I) (bs : List β) :
    (bs.forM g).Keeps I := by
  induction bs with
  | nil => exact keeps_pure _
  | cons b bs ih => exact (hg b).bind fun _ => ih

end Keeps

theorem exists_of_run_bind {b : β} {u : σ} (h : (p >>= f).run s = .ok (.ok b, u)) :
    ∃ a t, p.run s = .ok (.ok a, t) ∧ (f a).run t = .ok (.ok b, u) := by
  cases hrun : p.run s with
  | error failure =>
    rw [run_bind_of_failure hrun] at h
    cases h
  | ok e =>
    obtain ⟨a | a, t⟩ := e
    · rw [run_bind_of_refused hrun] at h
      cases h
    · rw [run_bind_of_value hrun] at h
      exact ⟨a, t, rfl, h⟩

theorem exists_of_run_lift_bind {x : Except Failure α} {b : β} {u : σ}
    (h : ((liftM x : Action σ α) >>= f).run s = .ok (.ok b, u)) :
    ∃ a, x = .ok a ∧ (f a).run s = .ok (.ok b, u) := by
  obtain ⟨a, t, hx, h⟩ := exists_of_run_bind h
  cases x with
  | ok a =>
    cases hx
    exact ⟨a, rfl, h⟩
  | error failure => cases failure <;> cases hx

/-- An action is never refused. -/
def Accepts (p : Action σ α) : Prop := ∀ s, p.Ends s fun r _ => ∃ a, r = .ok a

/-- When an action is refused, it leaves the state as it was. -/
def Intact (p : Action σ α) : Prop := ∀ s, p.Ends s fun r t => ∀ cause, r = .error cause → t = s

section Intact

theorem accepts_modify (g : σ → σ) : (modify g : Action σ PUnit).Accepts := by
  rintro s r t ⟨⟩
  exact ⟨_, rfl⟩

theorem accepts_set (t : σ) : (set t : Action σ PUnit).Accepts := by
  rintro s r u ⟨⟩
  exact ⟨_, rfl⟩

theorem Accepts.bind (hp : p.Accepts) (hf : ∀ a, (f a).Accepts) : (p >>= f).Accepts :=
  fun s => (hp s).bind (fun a t _ => hf a t) fun _ _ h => by cases h.choose_spec

theorem Accepts.intact (hp : p.Accepts) : p.Intact :=
  fun s => (hp s).mono fun _ _ h _ hr => by cases h.choose_spec.symm.trans hr

/-- What comes after the first change must not be refused. -/
theorem Intact.bind (hp : p.Intact) (hf : ∀ a, (f a).Accepts) : (p >>= f).Intact :=
  fun s => (hp s).bind (fun a t _ => (hf a t).mono fun _ _ h _ hr => by cases h.choose_spec.symm.trans hr)
    fun cause _ h _ _ => h cause rfl

theorem intact_lift_bind {x : Except Failure α} (hf : ∀ a, (f a).Intact) :
    ((liftM x : Action σ α) >>= f).Intact :=
  fun s => ends_lift_bind (fun a _ => hf a s) fun _ _ _ _ => rfl

theorem intact_get_bind {g : σ → Action σ β} (hg : ∀ s, (g s).Intact) :
    ((get : Action σ σ) >>= g).Intact := fun s => ends_get_bind (hg s s)

/-- A property is kept if it is by the calls that succeed. -/
theorem Intact.keeps {I : σ → Prop} (hp : p.Intact)
    (h : ∀ s a t, I s → p.run s = .ok (.ok a, t) → I t) : p.Keeps I := by
  intro s hs r t hrun
  cases r with
  | ok a => exact h s a t hs hrun
  | error cause =>
    rw [hp s _ t hrun cause rfl]
    exact hs

end Intact

end Action

end ExactSimplex
