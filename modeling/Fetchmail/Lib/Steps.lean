import Fetchmail.Lib.Act

/-!
# What an Action Does to the State

`Act.Steps R x`: wherever it starts, `x` leads to a state that is related to the first by `R`.
For a reflexive and transitive relation this is proved along the structure of the action, one
operation at a time, whatever the values are that are passed on.
-/

namespace Fetchmail.Lib.Act

variable {σ ε α β : Type}

/-- Every execution of the action is a step of the relation. -/
def Steps (R : σ → σ → Prop) (x : Act σ ε α) : Prop := ∀ s, R s (x.run s).state

variable {R : σ → σ → Prop}

theorem steps_pure (hrefl : ∀ s, R s s) (a : α) : Steps R (pure a : Act σ ε α) := hrefl

theorem steps_gets (hrefl : ∀ s, R s s) (f : σ → α) : Steps R (gets f : Act σ ε α) := hrefl

theorem steps_emit (hrefl : ∀ s, R s s) (e : ε) : Steps R (emit e : Act σ ε Unit) := hrefl

theorem steps_modify {f : σ → σ} (h : ∀ s, R s (f s)) : Steps R (modify f : Act σ ε Unit) := h

theorem steps_lift {f : σ → α × σ} (h : ∀ s, R s (f s).2) : Steps R (lift f : Act σ ε α) := h

theorem Steps.bind (htrans : ∀ {s s' s''}, R s s' → R s' s'' → R s s'') {x : Act σ ε α}
    {f : α → Act σ ε β} (hx : Steps R x) (hf : ∀ a, Steps R (f a)) : Steps R (x >>= f) :=
  fun s => htrans (hx s) (hf _ _)

theorem Steps.ite {c : Prop} [Decidable c] {x y : Act σ ε α} (hx : Steps R x) (hy : Steps R y) :
    Steps R (if c then x else y) := by
  split
  · exact hx
  · exact hy

/-- What holds before an action and is kept by the relation holds afterwards. -/
theorem Steps.wp {x : Act σ ε α} (h : Steps R x) {P Q : σ → Prop} {s : σ} (hs : P s)
    (hkeep : ∀ s', R s s' → P s → Q s') : x.wp (fun _ s' _ => Q s') s :=
  hkeep _ (h s) hs

end Fetchmail.Lib.Act
