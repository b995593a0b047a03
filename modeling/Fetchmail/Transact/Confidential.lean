import Fetchmail.Transact.Dialogue

/-!
# Credentials and TLS

`SSLOpen`, and what it means that credentials are kept off a connection in the clear. The
rules at the end are about code that does not open TLS itself: what it sends, it sends
under the protection it found.
-/

namespace Fetchmail.Transact

open Fetchmail.Lib

variable {σ ω C α β : Type}

/-! ## `SSLOpen` -/

/-- How the TLS handshake goes. -/
inductive Handshake where
  | fails
  /-- `SSLOpen` is still waiting when the alarm goes off -/
  | hangs
  /-- the client certificate may have a common name -/
  | succeeds (commonname : Option Bytes)
  deriving DecidableEq, Repr

/-- `SSLOpen`: the user name afterwards, which an empty one takes from the certificate;
`none` is the result `-1`. -/
def sslOpen (h : Handshake) (remotename : Bytes) : Talk σ ω C (Option Bytes) := do
  match h with
  | .fails => return none
  | .hangs => Talk.throw .timeout
  | .succeeds commonname =>
    Talk.modify fun d => { d with tls := true }
    return some (if remotename = [] then commonname.getD [] else remotename)

/-! ## Safety -/

/-- No credentials were sent in the clear, and success was not reported without TLS. -/
structure TlsSafe (credential : C → Bool) (success : α → Prop)
    (o : Outcome (Dialogue σ ω C) (Event C) (Except Throw α)) : Prop where
  secret : ∀ tls tag c, .sent tls tag c ∈ o.trace → credential c = true → tls = true
  protect : ∀ a, o.val = .ok a → success a → o.state.tls = true

/-- Everything that `x` sends satisfies `P`, and `x` leaves the connection as secure as it
was. -/
def Sends (P : C → Prop) (x : Talk σ ω C α) : Prop :=
  ∀ d, (x.exec d).state.tls = d.tls ∧
    ∀ e ∈ (x.exec d).trace, ∃ tag c, e = .sent d.tls tag c ∧ P c

variable {P : C → Prop} {x y : Talk σ ω C α}

theorem sends_of_silent (h : ∀ d, (x.exec d).state.tls = d.tls ∧ (x.exec d).trace = []) :
    Sends P x := by
  intro d
  obtain ⟨htls, htrace⟩ := h d
  rw [htrace]
  exact ⟨htls, by simp⟩

theorem sends_pure (a : α) : Sends P (pure a : Talk σ ω C α) :=
  sends_of_silent fun _ => ⟨rfl, rfl⟩

theorem sends_throw (t : Throw) : Sends P (Talk.throw t : Talk σ ω C α) :=
  sends_of_silent fun _ => ⟨rfl, rfl⟩

theorem sends_gets (f : Dialogue σ ω C → α) : Sends P (Talk.gets f) :=
  sends_of_silent fun _ => ⟨rfl, rfl⟩

theorem sends_modify {f : Dialogue σ ω C → Dialogue σ ω C} (h : ∀ d, (f d).tls = d.tls) :
    Sends P (Talk.modify f) :=
  sends_of_silent fun d => ⟨h d, rfl⟩

theorem sends_emit {c : C} (tag : Dialogue σ ω C → Bytes) (h : P c) :
    Sends P (Talk.emit fun d => .sent d.tls (tag d) c) := by
  intro d
  refine ⟨rfl, fun e he => ?_⟩
  have he' : e = .sent d.tls (tag d) c := by simpa using he
  exact ⟨tag d, c, he', h⟩

theorem Sends.bind {z : Talk σ ω C β} {f : β → Talk σ ω C α} (hz : Sends P z)
    (hf : ∀ b, Sends P (f b)) : Sends P (z >>= f) := by
  intro d
  obtain ⟨htls, htrace⟩ := hz d
  rw [Talk.exec_bind]
  cases hval : (z.exec d).val with
  | error t => exact ⟨htls, htrace⟩
  | ok b =>
    obtain ⟨htls', htrace'⟩ := hf b (z.exec d).state
    refine ⟨htls'.trans htls, fun e he => ?_⟩
    rcases List.mem_append.mp he with he | he
    · exact htrace e he
    · rw [htls] at htrace'
      exact htrace' e he

theorem Sends.ite {c : Prop} [Decidable c] (hx : Sends P x) (hy : Sends P y) :
    Sends P (if c then x else y) := by
  split
  · exact hx
  · exact hy

/-! ## The functions of `transact.c` -/

theorem sends_sockWrite {c : C} (h : P c) : Sends P (sockWrite c : Talk σ ω C Unit) :=
  (sends_emit (fun _ => []) h).bind fun _ => sends_modify (by intro d; rfl)

theorem sends_genSend {c : C} (h : P c) : Sends P (genSend c : Talk σ ω C Unit) := by
  refine (sends_gets _).bind fun tagged => Sends.ite ?_ (sends_sockWrite h)
  refine Sends.bind (sends_modify (by intro d; rfl)) fun _ => ?_
  exact (sends_emit Dialogue.tag h).bind fun _ => sends_modify (by intro d; rfl)

theorem sends_accept (r : Recv) (rest : List Recv) :
    Sends P (accept r rest : Talk σ ω C _) := by
  refine Sends.bind (sends_modify (by intro d; rfl)) fun _ => ?_
  cases r with
  | line text late => exact sends_pure _
  | silence =>
    refine (sends_gets _).bind fun stage => ?_
    exact Sends.ite (sends_pure _) (sends_throw _)

theorem sends_genRecv : Sends P (genRecv : Talk σ ω C _) := by
  refine (sends_gets _).bind fun lines => ?_
  cases lines with
  | nil => exact sends_pure _
  | cons r rest => exact sends_accept r rest

theorem sends_genTransact {parseResponse : Talk σ ω C Ps} {c : C} (hc : P c)
    (hparse : Sends P parseResponse) : Sends P (genTransact parseResponse c) :=
  (sends_genSend hc).bind fun _ => hparse

theorem Sends.suppressingTags (hx : Sends P x) : Sends P (suppressingTags x) := by
  refine Sends.bind (sends_modify (by intro d; rfl)) fun _ => hx.bind fun a => ?_
  exact Sends.bind (sends_modify (by intro d; rfl)) fun _ => sends_pure a

/-! ## Deriving safety -/

section

variable {credential : C → Bool} {good : α → Prop} {d : Dialogue σ ω C}

/-- Code that sends no credentials. -/
theorem Sends.tlsSafe (hx : Sends (fun c => credential c = false) x)
    (hgood : ∀ a, (x.exec d).val = .ok a → good a → d.tls = true) :
    TlsSafe credential good (x.exec d) where
  secret := by
    intro tls tag c hmem hcred
    obtain ⟨tag', c', heq, hpublic⟩ := (hx d).2 _ hmem
    cases heq
    rw [hpublic] at hcred
    cases hcred
  protect := by
    intro a hval ha
    rw [(hx d).1]
    exact hgood a hval ha

/-- Code that runs under TLS. -/
theorem Sends.tlsSafe_of_tls (hx : Sends (fun _ => True) x) (htls : d.tls = true) :
    TlsSafe credential good (x.exec d) where
  secret := by
    intro tls tag c hmem _
    obtain ⟨tag', c', heq, -⟩ := (hx d).2 _ hmem
    cases heq
    exact htls
  protect := by
    intro a _ _
    rw [(hx d).1]
    exact htls

/-- The first part hands its protection on to the second. -/
theorem TlsSafe.bind {z : Talk σ ω C β} {f : β → Talk σ ω C α} {good' : β → Prop}
    (hz : TlsSafe credential good' (z.exec d))
    (hf : ∀ b, (z.exec d).val = .ok b → (good' b → (z.exec d).state.tls = true) →
      TlsSafe credential good ((f b).exec (z.exec d).state)) :
    TlsSafe credential good ((z >>= f).exec d) := by
  rw [Talk.exec_bind]
  cases hval : (z.exec d).val with
  | error t =>
    refine ⟨hz.secret, fun a ha => ?_⟩
    cases ha
  | ok b =>
    have hrest := hf b hval (hz.protect b hval)
    refine ⟨fun tls tag c hmem => ?_, hrest.protect⟩
    rcases List.mem_append.mp hmem with hmem | hmem
    · exact hz.secret tls tag c hmem
    · exact hrest.secret tls tag c hmem

/-- The first part sends nothing secret. -/
theorem TlsSafe.bind_public {z : Talk σ ω C β} {f : β → Talk σ ω C α}
    (hz : Sends (fun c => credential c = false) z)
    (hf : ∀ b, (z.exec d).val = .ok b → TlsSafe credential good ((f b).exec (z.exec d).state)) :
    TlsSafe credential good ((z >>= f).exec d) := by
  have hnone : TlsSafe credential (fun _ => False) (z.exec d) :=
    hz.tlsSafe fun _ _ hfalse => hfalse.elim
  exact hnone.bind fun b hb _ => hf b hb

end

end Fetchmail.Transact
