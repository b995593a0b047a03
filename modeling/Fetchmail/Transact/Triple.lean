import Fetchmail.Transact.Dialogue

/-!
# Triples for Code that Talks

Pre- and postconditions for `Talk`. Control may leave by an exception, so a triple has a
condition for that case, too. One rule for each construct; a property that the code does not
touch goes through any triple by `Keeps`.
-/

namespace Fetchmail.Transact

open Fetchmail.Lib

namespace Talk

variable {σ ω C α β : Type}

/-- From a connection with `P`, `x` returns with `Q`, or leaves with `E`. -/
def Triple (P : Dialogue σ ω C → Prop) (x : Talk σ ω C α)
    (Q : α → Dialogue σ ω C → Prop) (E : Dialogue σ ω C → Prop) : Prop :=
  ∀ d, P d →
    match (x.exec d).val with
    | .ok a => Q a (x.exec d).state
    | .error _ => E (x.exec d).state

variable {P P' : Dialogue σ ω C → Prop} {Q Q' : α → Dialogue σ ω C → Prop}
  {E E' : Dialogue σ ω C → Prop}

theorem Triple.pure {a : α} (h : ∀ d, P d → Q a d) : Triple P (Pure.pure a) Q E := h

theorem Triple.bind {x : Talk σ ω C α} {f : α → Talk σ ω C β} {R : β → Dialogue σ ω C → Prop}
    (hx : Triple P x Q E) (hf : ∀ a, Triple (Q a) (f a) R E) : Triple P (x >>= f) R E := by
  intro d hd
  have h := hx d hd
  rw [Talk.exec_bind]
  cases hval : (x.exec d).val with
  | error t =>
    rw [hval] at h
    exact h
  | ok a =>
    rw [hval] at h
    exact hf a _ h

theorem Triple.ite {c : Prop} [Decidable c] {x y : Talk σ ω C α}
    (hx : c → Triple P x Q E) (hy : ¬ c → Triple P y Q E) :
    Triple P (if c then x else y) Q E := by
  split
  · exact hx ‹_›
  · exact hy ‹_›

/-- The rule of consequence. -/
theorem Triple.mono {x : Talk σ ω C α} (h : Triple P x Q E) (hP : ∀ d, P' d → P d)
    (hQ : ∀ a d, Q a d → Q' a d) (hE : ∀ d, E d → E' d) : Triple P' x Q' E' := by
  intro d hd
  have h' := h d (hP d hd)
  cases hval : (x.exec d).val with
  | error t =>
    rw [hval] at h'
    exact hE _ h'
  | ok a =>
    rw [hval] at h'
    exact hQ a _ h'

/-- A value that the code reads at the start. -/
theorem Triple.gets_bind {γ : Type} {f : Dialogue σ ω C → γ} {g : γ → Talk σ ω C α}
    (h : ∀ a, Triple (fun d => P d ∧ f d = a) (g a) Q E) : Triple P (Talk.gets f >>= g) Q E :=
  Triple.bind (Q := fun a d => P d ∧ f d = a) (fun _ hd => ⟨hd, rfl⟩) h

/-- What the code leaves alone is there afterwards. -/
theorem Triple.of_keeps {γ : Type} {f : Dialogue σ ω C → γ} {p : γ → Prop} {x : Talk σ ω C α}
    (h : Keeps f x) : Triple (fun d => p (f d)) x (fun _ d => p (f d)) (fun d => p (f d)) := by
  intro d hd
  have hsame : p (f (x.exec d).state) := (h d).symm ▸ hd
  cases (x.exec d).val with
  | error t => exact hsame
  | ok a => exact hsame

end Talk

end Fetchmail.Transact
