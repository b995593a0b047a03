import Mathlib.Tactic.Common

/-!
# Actions with a State and a Trace

An `Act σ ε α` is a deterministic component of a larger system: from a state in `σ` it
produces a value, the next state, and the list of events (in `ε`) it emitted on the way.
The environment of the component is part of `σ`, so an arbitrary environment is an
arbitrary `σ` together with arbitrary actions over it.

The file provides:

- the monad structure, with `run` lemmas for every operation;
- the weakest precondition `Act.wp`, which reads value, final state and emitted trace;
- guarded traces, the form in which "`e` happens only after ..." is stated.
-/

namespace Fetchmail.Lib

/-! ## Outcomes and actions -/

/-- What one execution of an action leaves behind. -/
structure Outcome (σ ε α : Type) where
  /-- The value returned -/
  val : α
  /-- The state after the execution -/
  state : σ
  /-- The events emitted, oldest first -/
  trace : List ε

/-- A deterministic action over states `σ` that emits events in `ε`. -/
structure Act (σ ε α : Type) where
  /-- Execute from a given state. -/
  run : σ → Outcome σ ε α

namespace Act

variable {σ ε α β γ : Type}

@[ext]
theorem ext {x y : Act σ ε α} (h : ∀ s, x.run s = y.run s) : x = y := by
  cases x
  cases y
  congr
  funext s
  exact h s

/-- Sequencing: the second action starts where the first stopped and its events follow. -/
protected def bind (x : Act σ ε α) (f : α → Act σ ε β) : Act σ ε β where
  run s :=
    let first := x.run s
    let second := (f first.val).run first.state
    ⟨second.val, second.state, first.trace ++ second.trace⟩

instance : Monad (Act σ ε) where
  pure a := ⟨fun s => ⟨a, s, []⟩⟩
  bind := Act.bind

/-- Emit one event. -/
def emit (e : ε) : Act σ ε Unit := ⟨fun s => ⟨(), s, [e]⟩⟩

/-- Read the state through `f`. -/
def gets (f : σ → α) : Act σ ε α := ⟨fun s => ⟨f s, s, []⟩⟩

/-- Update the state. -/
def modify (f : σ → σ) : Act σ ε Unit := ⟨fun s => ⟨(), f s, []⟩⟩

/-- Read and update the state in one go, silently. -/
def lift (f : σ → α × σ) : Act σ ε α := ⟨fun s => ⟨(f s).1, (f s).2, []⟩⟩

@[simp]
theorem run_pure (a : α) (s : σ) : (pure a : Act σ ε α).run s = ⟨a, s, []⟩ := rfl

@[simp]
theorem run_bind (x : Act σ ε α) (f : α → Act σ ε β) (s : σ) :
    (x >>= f).run s =
      ⟨((f (x.run s).val).run (x.run s).state).val,
        ((f (x.run s).val).run (x.run s).state).state,
        (x.run s).trace ++ ((f (x.run s).val).run (x.run s).state).trace⟩ := rfl

@[simp]
theorem run_emit (e : ε) (s : σ) : (emit e : Act σ ε Unit).run s = ⟨(), s, [e]⟩ := rfl

@[simp]
theorem run_gets (f : σ → α) (s : σ) : (gets f : Act σ ε α).run s = ⟨f s, s, []⟩ := rfl

@[simp]
theorem run_modify (f : σ → σ) (s : σ) : (modify f : Act σ ε Unit).run s = ⟨(), f s, []⟩ := rfl

@[simp]
theorem run_lift (f : σ → α × σ) (s : σ) :
    (lift f : Act σ ε α).run s = ⟨(f s).1, (f s).2, []⟩ := rfl

/-! ## Weakest preconditions -/

/-- `x.wp Q s`: executed from `s`, action `x` ends in a value, a state and a trace
satisfying `Q`. -/
def wp (x : Act σ ε α) (Q : α → σ → List ε → Prop) (s : σ) : Prop :=
  Q (x.run s).val (x.run s).state (x.run s).trace

variable {Q R : α → σ → List ε → Prop} {s : σ}

theorem wp_mono {x : Act σ ε α} (h : x.wp Q s) (hQR : ∀ a s' t, Q a s' t → R a s' t) :
    x.wp R s :=
  hQR _ _ _ h

theorem wp_and {x : Act σ ε α} (hQ : x.wp Q s) (hR : x.wp R s) :
    x.wp (fun a s' t => Q a s' t ∧ R a s' t) s :=
  ⟨hQ, hR⟩

@[simp]
theorem wp_pure (a : α) : (pure a : Act σ ε α).wp Q s ↔ Q a s [] := Iff.rfl

@[simp]
theorem wp_bind (x : Act σ ε β) (f : β → Act σ ε α) :
    (x >>= f).wp Q s ↔
      x.wp (fun b s' t => (f b).wp (fun a s'' t' => Q a s'' (t ++ t')) s') s := Iff.rfl

@[simp]
theorem wp_emit (e : ε) {Q : Unit → σ → List ε → Prop} :
    (emit e : Act σ ε Unit).wp Q s ↔ Q () s [e] := Iff.rfl

@[simp]
theorem wp_gets (f : σ → α) : (gets f : Act σ ε α).wp Q s ↔ Q (f s) s [] := Iff.rfl

@[simp]
theorem wp_modify (f : σ → σ) {Q : Unit → σ → List ε → Prop} :
    (modify f : Act σ ε Unit).wp Q s ↔ Q () (f s) [] := Iff.rfl

@[simp]
theorem wp_lift (f : σ → α × σ) : (lift f : Act σ ε α).wp Q s ↔ Q (f s).1 (f s).2 [] := Iff.rfl

@[simp]
theorem wp_ite (c : Prop) [Decidable c] (x y : Act σ ε α) :
    (if c then x else y).wp Q s ↔ (c → x.wp Q s) ∧ (¬ c → y.wp Q s) := by
  split <;> simp [*]

/-! ## Events of a kind -/

/-- All events that `x` emits satisfy `P`. -/
def Emits (P : ε → Prop) (x : Act σ ε α) : Prop := ∀ s, ∀ e ∈ (x.run s).trace, P e

section Emits

variable {P : ε → Prop}

theorem emits_pure (a : α) : Emits P (pure a : Act σ ε α) := by
  intro s e he
  simp at he

theorem emits_lift (f : σ → α × σ) : Emits P (lift f : Act σ ε α) := by
  intro s e he
  simp at he

theorem emits_emit {e : ε} (h : P e) : Emits P (emit e : Act σ ε Unit) := by
  intro s e' he'
  obtain rfl : e' = e := by simpa using he'
  exact h

theorem Emits.bind {x : Act σ ε α} {f : α → Act σ ε β} (hx : Emits P x)
    (hf : ∀ a, Emits P (f a)) : Emits P (x >>= f) := by
  intro s e he
  rw [run_bind, List.mem_append] at he
  rcases he with he | he
  · exact hx s e he
  · exact hf _ _ e he

theorem Emits.ite {c : Prop} [Decidable c] {x y : Act σ ε α} (hx : Emits P x)
    (hy : Emits P y) : Emits P (if c then x else y) := by
  split
  · exact hx
  · exact hy

end Emits

end Act

/-! ## Guarded traces -/

section Guarded

variable {ε : Type}

/-- Every event of the trace is allowed by the events before it. -/
def Guarded (allowed : List ε → ε → Prop) (tr : List ε) : Prop :=
  ∀ pre e post, tr = pre ++ e :: post → allowed pre e

variable {allowed : List ε → ε → Prop}

@[simp]
theorem guarded_nil : Guarded allowed [] := by
  intro pre e post h
  simp at h

theorem guarded_append {t₁ t₂ : List ε} :
    Guarded allowed (t₁ ++ t₂) ↔
      Guarded allowed t₁ ∧ Guarded (fun pre e => allowed (t₁ ++ pre) e) t₂ := by
  constructor
  · intro h
    refine ⟨fun pre e post ht => h pre e (post ++ t₂) (by simp [ht]), ?_⟩
    exact fun pre e post ht => h (t₁ ++ pre) e post (by simp [ht])
  · rintro ⟨h₁, h₂⟩ pre e post ht
    rcases List.append_eq_append_iff.mp ht with ⟨as, hpre, ht₂⟩ | ⟨bs, ht₁, hpost⟩
    · exact hpre ▸ h₂ as e post ht₂
    · cases bs with
      | nil =>
        have h := h₂ [] e post (by simpa using hpost.symm)
        simpa [ht₁] using h
      | cons b bs =>
        obtain ⟨rfl, rfl⟩ : e = b ∧ post = bs ++ t₂ := by simpa using hpost
        exact h₁ pre e bs ht₁

@[simp]
theorem guarded_cons {e : ε} {tr : List ε} :
    Guarded allowed (e :: tr) ↔
      allowed [] e ∧ Guarded (fun pre e' => allowed (e :: pre) e') tr := by
  have h := @guarded_append ε allowed [e] tr
  have hsingle : Guarded allowed [e] ↔ allowed [] e := by
    constructor
    · exact fun hg => hg [] e [] rfl
    · intro ha pre e' post ht
      cases pre with
      | nil => simp_all
      | cons _ _ => simp at ht
  simpa [hsingle] using h

end Guarded

end Fetchmail.Lib
