/-!
# Results of steps

A sequence of steps gives a result exactly when each step gives one to the next. Two
sequences have the same outcome when they fail together, in whatever words.
-/

namespace BitRecords

variable {ε α β : Type}

theorem bind_eq_ok {x : Except ε α} {f : α → Except ε β} {b : β} :
    x >>= f = .ok b ↔ ∃ a, x = .ok a ∧ f a = .ok b := by
  cases x with
  | error e =>
    constructor
    · intro h
      cases h
    · rintro ⟨_, h, _⟩
      cases h
  | ok a =>
    constructor
    · intro h
      exact ⟨a, rfl, h⟩
    · rintro ⟨_, same, h⟩
      cases same
      exact h

theorem pure_eq_ok {a b : α} : (pure a : Except ε α) = .ok b ↔ a = b :=
  ⟨Except.ok.inj, congrArg _⟩

/-- Both give an error, or they give results that are related. -/
inductive SameOutcome (R : α → β → Prop) : Except ε α → Except ε β → Prop where
  | ok {a : α} {b : β} : R a b → SameOutcome R (.ok a) (.ok b)
  | error {e e' : ε} : SameOutcome R (.error e) (.error e')

namespace SameOutcome

variable {γ δ : Type} {R : α → β → Prop} {Q : γ → δ → Prop} {x : Except ε α} {y : Except ε β}

/-- The results are related when each success of the one is a success of the other. -/
theorem of_ok {f : α → β} (each : ∀ b, y = .ok b ↔ ∃ a, x = .ok a ∧ b = f a) :
    SameOutcome (fun a b => b = f a) x y := by
  cases x with
  | ok a =>
    obtain rfl := (each (f a)).mpr ⟨a, rfl, rfl⟩
    exact .ok rfl
  | error e =>
    cases y with
    | ok b =>
      obtain ⟨a, none, -⟩ := (each b).mp rfl
      cases none
    | error e' => exact .error

theorem of_eq {x y : Except ε α} (same : y = x) : SameOutcome (fun a b => b = a) x y := by
  obtain rfl := same
  cases y with
  | ok a => exact .ok rfl
  | error e => exact .error

theorem map {f : α → γ} {g : β → δ} (same : SameOutcome R x y)
    (each : ∀ a b, R a b → Q (f a) (g b)) : SameOutcome Q (x.map f) (y.map g) := by
  cases same with
  | ok related => exact .ok (each _ _ related)
  | error => exact .error

theorem bind {f : α → Except ε γ} {g : β → Except ε δ} (first : SameOutcome R x y)
    (rest : ∀ a b, R a b → SameOutcome Q (f a) (g b)) : SameOutcome Q (x >>= f) (y >>= g) := by
  cases first with
  | ok related => exact rest _ _ related
  | error => exact .error

theorem mapM {f g : γ → Except ε α} (each : ∀ c, SameOutcome (fun a b => b = a) (f c) (g c))
    (cs : List γ) : SameOutcome (fun a b => b = a) (cs.mapM f) (cs.mapM g) := by
  induction cs with
  | nil => exact .ok rfl
  | cons c rest ih =>
    rw [List.mapM_cons, List.mapM_cons]
    refine (each c).bind fun a b same => ih.bind fun others others' rest => ?_
    rw [same, rest]
    exact .ok rfl

end SameOutcome

end BitRecords
