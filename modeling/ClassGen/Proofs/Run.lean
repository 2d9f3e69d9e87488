/-! Successful runs of computations with a state that outlives failures: what a run of a composite
computation consists of. -/

namespace ClassGen.Run

variable {ε σ α β : Type} {s t : σ} {b : β}

theorem bind_ok {x : EStateM ε σ α} {f : α → EStateM ε σ β} :
    (x >>= f) s = .ok b t ↔ ∃ a r, x s = .ok a r ∧ f a r = .ok b t := by
  constructor
  · intro h
    simp only [bind, EStateM.bind] at h
    split at h
    · next a r hx => exact ⟨a, r, hx, h⟩
    · simp at h
  · rintro ⟨a, r, hx, hf⟩
    simp [bind, EStateM.bind, hx, hf]

/-- After a first computation that succeeds. -/
theorem bind_of_ok {x : EStateM ε σ α} {f : α → EStateM ε σ β} {a : α} (hx : x s = .ok a t) :
    (x >>= f) s = f a t := by
  simp [bind, EStateM.bind, hx]

/-- A first computation that fails is all. -/
theorem bind_of_error {x : EStateM ε σ α} {f : α → EStateM ε σ β} {e : ε} (hx : x s = .error e t) :
    (x >>= f) s = .error e t := by
  simp [bind, EStateM.bind, hx]

theorem pure_ok {a : β} : (pure a : EStateM ε σ β) s = .ok b t ↔ a = b ∧ s = t := by
  simp [pure, EStateM.pure]

theorem throw_ok {e : ε} : (throw e : EStateM ε σ β) s = .ok b t ↔ False := by
  constructor
  · intro h
    cases h
  · exact False.elim

theorem map_ok {x : EStateM ε σ α} {f : α → β} :
    (f <$> x) s = .ok b t ↔ ∃ a, x s = .ok a t ∧ f a = b := by
  rw [map_eq_pure_bind, bind_ok]
  constructor
  · rintro ⟨a, r, hx, hp⟩
    obtain ⟨rfl, rfl⟩ := pure_ok.mp hp
    exact ⟨a, hx, rfl⟩
  · rintro ⟨a, hx, rfl⟩
    exact ⟨a, t, hx, pure_ok.mpr ⟨rfl, rfl⟩⟩

theorem get_ok {a : σ} : (get : EStateM ε σ σ) s = .ok a t ↔ s = a ∧ s = t :=
  Iff.of_eq (EStateM.Result.ok.injEq s s a t)

theorem set_ok {r : σ} {u : PUnit} : (set r : EStateM ε σ PUnit) s = .ok u t ↔ r = t := by
  show EStateM.Result.ok PUnit.unit r = .ok u t ↔ r = t
  simp

theorem modify_ok {f : σ → σ} {u : PUnit} :
    (modify f : EStateM ε σ PUnit) s = .ok u t ↔ f s = t := by
  show EStateM.Result.ok PUnit.unit (f s) = .ok u t ↔ f s = t
  simp

theorem ofExcept_ok {x : Except ε β} :
    (MonadExcept.ofExcept x : EStateM ε σ β) s = .ok b t ↔ x = .ok b ∧ s = t := by
  cases x with
  | error e => simp [MonadExcept.ofExcept, throw_ok]
  | ok a => simp [MonadExcept.ofExcept, pure_ok]

end ClassGen.Run
