import Mathlib.Data.List.Basic

/-!
# Computations that can fail

Inversion of a successful sequence of steps into its successful steps.
-/

namespace Library.Fallible

universe u v

variable {ε : Type u} {α β : Type v}

theorem bind_eq_ok {x : Except ε α} {f : α → Except ε β} {b : β} :
    (x >>= f) = .ok b ↔ ∃ a, x = .ok a ∧ f a = .ok b := by
  constructor
  · intro h
    cases x with
    | error e => cases h
    | ok a => exact ⟨a, rfl, h⟩
  · rintro ⟨a, rfl, h⟩
    exact h

theorem mapM_cons_eq_ok {f : α → Except ε β} {a : α} {as : List α} {bs : List β} :
    (a :: as).mapM f = .ok bs ↔ ∃ b bs', bs = b :: bs' ∧ f a = .ok b ∧ as.mapM f = .ok bs' := by
  rw [List.mapM_cons]
  constructor
  · intro h
    obtain ⟨b, hb, h⟩ := bind_eq_ok.mp h
    obtain ⟨bs', hbs, h⟩ := bind_eq_ok.mp h
    exact ⟨b, bs', (Except.ok.inj h).symm, hb, hbs⟩
  · rintro ⟨b, bs', rfl, hb, hbs⟩
    exact bind_eq_ok.mpr ⟨b, hb, bind_eq_ok.mpr ⟨bs', hbs, rfl⟩⟩

end Library.Fallible
