import Fetchmail.Transact.Confidential

/-!
# Code That Cannot Tell Two Connections Apart

Two connections that differ in static variables only, and not in what a view `p` shows of these,
are treated alike by code that reads the static variables through `p`: it returns and sends the
same, and leaves two connections of which the same can be said. The rules are those of a
relational logic in which both sides run the same program.
-/

namespace Fetchmail.Transact

open Fetchmail.Lib

variable {σ ω C α β γ δ : Type}

/-- Two connections outside of `IDLE` that differ in static variables that `p` does not show. -/
structure Twins (p : σ → γ) (d₁ d₂ : Dialogue σ ω C) : Prop where
  stage : d₁.stage ≠ .idle
  view : p d₁.statics = p d₂.statics
  same : d₂ = { d₁ with statics := d₂.statics }

/-- `x` cannot tell connections apart on which `p` agrees; `q` agrees on those it leaves. -/
def Blind (p : σ → γ) (q : σ → δ) (x : Talk σ ω C α) : Prop :=
  ∀ d₁ d₂, Twins p d₁ d₂ → (x.exec d₁).val = (x.exec d₂).val ∧
    (x.exec d₁).trace = (x.exec d₂).trace ∧ Twins q (x.exec d₁).state (x.exec d₂).state

variable {p : σ → γ} {q : σ → δ} {x y : Talk σ ω C α}

/-- A value is returned. -/
theorem blind_pure (a : α) : Blind p p (pure a : Talk σ ω C α) := fun _ _ h => ⟨rfl, rfl, h⟩

/-- An exception leaves before anything more is seen. -/
theorem blind_throw (t : Throw) : Blind p p (Talk.throw t : Talk σ ω C α) :=
  fun _ _ h => ⟨rfl, rfl, h⟩

/-- What is read is the same on both sides, as far as the rest of the code is concerned. -/
theorem Blind.gets {f : Dialogue σ ω C → β} {g : β → Talk σ ω C α} (hg : ∀ b, Blind p q (g b))
    (hsame : ∀ d s, p d.statics = p s → g (f { d with statics := s }) = g (f d)) :
    Blind p q (Talk.gets f >>= g) := by
  intro d₁ d₂ h
  have heq : g (f d₂) = g (f d₁) := by
    rw [h.same]
    exact hsame d₁ _ h.view
  have hnext := hg (f d₁) d₁ d₂ h
  rw [Talk.exec_bind, Talk.exec_bind, Talk.exec_gets, Talk.exec_gets]
  dsimp only
  rw [heq]
  exact hnext

/-- A change of the connection that looks at the static variables through `p` at most. -/
theorem blind_modify {f : Dialogue σ ω C → Dialogue σ ω C} (hstage : ∀ d, (f d).stage = d.stage)
    (hview : ∀ d s, p d.statics = p s → q (f d).statics = q (f { d with statics := s }).statics)
    (hsame : ∀ d s, f { d with statics := s } =
      { f d with statics := (f { d with statics := s }).statics }) :
    Blind p q (Talk.modify f) := by
  intro d₁ d₂ h
  refine ⟨rfl, rfl, ?_, ?_, ?_⟩
  · exact fun heq => h.stage ((hstage d₁).symm.trans heq)
  · have hd := hview d₁ d₂.statics h.view
    rw [← h.same] at hd
    exact hd
  · have hd := hsame d₁ d₂.statics
    rw [← h.same] at hd
    exact hd

/-- The static variables are left alone. -/
theorem blind_connection {f : Dialogue σ ω C → Dialogue σ ω C}
    (hstage : ∀ d, (f d).stage = d.stage) (hstatics : ∀ d, (f d).statics = d.statics)
    (hsame : ∀ d s, f { d with statics := s } = { f d with statics := s }) :
    Blind p p (Talk.modify f) := by
  apply blind_modify hstage
  · intro d s h
    rw [hsame, hstatics]
    exact h
  · intro d s
    rw [hsame]

/-- A mark that is not taken from the static variables. -/
theorem blind_emit {f : Dialogue σ ω C → Event C}
    (hsame : ∀ d s, f { d with statics := s } = f d) : Blind p p (Talk.emit f) := by
  intro d₁ d₂ h
  refine ⟨rfl, ?_, h⟩
  have hd := hsame d₁ d₂.statics
  rw [← h.same] at hd
  simp [hd]

/-- One part after the other, the second for every value that the first may return. -/
theorem Blind.bind {ε : Type} {r : σ → ε} {z : Talk σ ω C β} {f : β → Talk σ ω C α}
    (hz : Blind p r z) (hf : ∀ b, Blind r q (f b)) (hweak : ∀ s₁ s₂, r s₁ = r s₂ → q s₁ = q s₂) :
    Blind p q (z >>= f) := by
  intro d₁ d₂ h
  obtain ⟨hval, htrace, htwins⟩ := hz d₁ d₂ h
  rw [Talk.exec_bind, Talk.exec_bind, ← hval]
  cases hv : (z.exec d₁).val with
  | error t =>
    exact ⟨rfl, htrace, htwins.stage, hweak _ _ htwins.view, htwins.same⟩
  | ok b =>
    obtain ⟨hval', htrace', htwins'⟩ := hf b _ _ htwins
    exact ⟨hval', congrArg₂ (· ++ ·) htrace htrace', htwins'⟩

/-- Less is agreed on behind the code. -/
theorem Blind.weaken {ε : Type} {r : σ → ε} (hx : Blind p r x)
    (hweak : ∀ s₁ s₂, r s₁ = r s₂ → q s₁ = q s₂) : Blind p q x := by
  intro d₁ d₂ h
  obtain ⟨hval, htrace, htwins⟩ := hx d₁ d₂ h
  exact ⟨hval, htrace, htwins.stage, hweak _ _ htwins.view, htwins.same⟩

/-- More is agreed on before it. -/
theorem Blind.strengthen {ε : Type} {r : σ → ε} (hx : Blind r q x)
    (hstrong : ∀ s₁ s₂, p s₁ = p s₂ → r s₁ = r s₂) : Blind p q x :=
  fun d₁ d₂ h => hx d₁ d₂ ⟨h.stage, hstrong _ _ h.view, h.same⟩

/-- Parts with the same view. -/
theorem Blind.seq {z : Talk σ ω C β} {f : β → Talk σ ω C α} (hz : Blind p p z)
    (hf : ∀ b, Blind p p (f b)) : Blind p p (z >>= f) := hz.bind hf fun _ _ h => h

/-- Both branches. -/
theorem Blind.ite {c : Prop} [Decidable c] (hx : Blind p q x) (hy : Blind p q y) :
    Blind p q (if c then x else y) := by
  split
  · exact hx
  · exact hy

/-! ## The functions of `transact.c` -/

/-- The server gets the same line and gives the same answer. -/
theorem blind_sockWrite (c : C) : Blind p p (sockWrite c : Talk σ ω C Unit) := by
  apply Blind.seq (blind_emit (by intro d s; rfl))
  exact fun _ => blind_connection (by intro d; rfl) (by intro d; rfl) (by intro d s; rfl)

/-- `gen_send`, with its tag. -/
theorem blind_genSend (c : C) : Blind p p (genSend c : Talk σ ω C Unit) := by
  refine Blind.gets (fun tagged => Blind.ite ?_ (blind_sockWrite c)) fun _ _ _ => rfl
  apply Blind.seq (blind_connection (by intro d; rfl) (by intro d; rfl) (by intro d s; rfl))
  intro _
  apply Blind.seq (blind_emit (by intro d s; rfl))
  exact fun _ => blind_connection (by intro d; rfl) (by intro d; rfl) (by intro d s; rfl)

/-- A line that is read. -/
theorem blind_accept (r : Recv) (rest : List Recv) : Blind p p (accept r rest : Talk σ ω C _) := by
  apply Blind.seq (blind_connection (by intro d; rfl) (by intro d; rfl) (by intro d s; rfl))
  intro _
  cases r with
  | line text late => exact blind_pure _
  | silence =>
    exact Blind.gets (fun stage => Blind.ite (blind_pure _) (blind_throw _)) fun _ _ _ => rfl

/-- `gen_recv` -/
theorem blind_genRecv : Blind p p (genRecv : Talk σ ω C _) := by
  apply Blind.gets _ fun _ _ _ => rfl
  intro lines
  cases lines with
  | nil => exact blind_pure _
  | cons r rest => exact blind_accept r rest

/-- `gen_transact`, when the parser of responses hides as much. -/
theorem blind_genTransact {parseResponse : Talk σ ω C Ps} (c : C)
    (hparse : Blind p p parseResponse) : Blind p p (genTransact parseResponse c) :=
  (blind_genSend c).seq fun _ => hparse

/-- Code that is run without tags. -/
theorem Blind.suppressingTags (hx : Blind p p x) : Blind p p (suppressingTags x) := by
  apply Blind.seq (blind_connection (by intro d; rfl) (by intro d; rfl) (by intro d s; rfl))
  intro _
  apply hx.seq
  intro a
  apply Blind.seq (blind_connection (by intro d; rfl) (by intro d; rfl) (by intro d s; rfl))
  exact fun _ => blind_pure a

/-- `SSLOpen` -/
theorem blind_sslOpen (h : Handshake) (remotename : Bytes) :
    Blind p p (sslOpen h remotename : Talk σ ω C _) := by
  cases h with
  | fails => exact blind_pure _
  | hangs => exact blind_throw _
  | succeeds commonname =>
    apply Blind.seq (blind_connection (by intro d; rfl) (by intro d; rfl) (by intro d s; rfl))
    exact fun _ => blind_pure _

end Fetchmail.Transact
