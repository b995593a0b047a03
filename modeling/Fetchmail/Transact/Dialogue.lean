import Fetchmail.Basic
import Fetchmail.Lib.Act
import Fetchmail.Lib.Bytes

/-!
# Talking to the Mail Server

`gen_send`, `gen_recv` and their state in `transact.c`, for a protocol whose commands are of
type `C` and whose source file keeps static variables of type `σ`. The server is a process
with states in `ω` that answers each line sent to it; a server that has all its lines in
store from the start is the special case that answers nothing.

Code that talks may be cut short by the alarm clock (`siglongjmp` to `do_session`), so it
lives in `Talk`, the exception monad over the actions of `Lib.Act`. Every line sent leaves
an event that says whether the connection was under TLS at that time.
-/

namespace Fetchmail.Transact

open Fetchmail.Lib

/-! ## The connection -/

/-- The `STAGE_` constants, in their order. -/
inductive Stage where
  | getauth
  | getrange
  | getsizes
  | fetch
  | idle
  | logout
  deriving DecidableEq, Repr

/-- What waiting for the server brings. -/
inductive Recv where
  /-- a line, as `gen_recv` stores it; `late` tells that the idle period was over by then -/
  | line (text : Bytes) (late : Bool)
  /-- nothing, until the alarm goes off -/
  | silence
  deriving DecidableEq, Repr

/-- The idle period was over when this arrived. -/
def Recv.late : Recv → Bool
  | .line _ late => late
  | .silence => false

/-- Why control leaves the code that talks. -/
inductive Throw where
  /-- `siglongjmp(restart, THROW_TIMEOUT)` -/
  | timeout
  /-- a loop of the source that does not end -/
  | spin
  deriving DecidableEq, Repr

/-- A connection, with the variables of `transact.c` and of the protocol. -/
structure Dialogue (σ ω C : Type) where
  /-- the global `stage` -/
  stage : Stage
  /-- the static variables of the protocol -/
  statics : σ
  /-- `protocol->tagged` -/
  tagged : Bool
  suppressTags : Bool
  tagnum : Nat
  tag : Bytes
  /-- lines the server has sent or will send unasked; none are left when it hung up -/
  lines : List Recv
  peer : ω
  /-- how the server answers a line with its tag -/
  answer : Bytes → C → ω → List Recv × ω
  /-- `SSLOpen` has succeeded -/
  tls : Bool

/-- What an observer on the wire sees of the client. -/
inductive Event (C : Type) where
  | sent (tls : Bool) (tag : Bytes) (c : C)
  deriving DecidableEq, Repr

/-- Code that talks to the server. -/
abbrev Talk (σ ω C : Type) := ExceptT Throw (Act (Dialogue σ ω C) (Event C))

namespace Talk

variable {σ ω C α β : Type}

/-- Execute from a given state of the connection. -/
def exec (x : Talk σ ω C α) (d : Dialogue σ ω C) :
    Outcome (Dialogue σ ω C) (Event C) (Except Throw α) :=
  Act.run (ExceptT.run x) d

/-- Read the connection through `f`. -/
def gets (f : Dialogue σ ω C → α) : Talk σ ω C α := ExceptT.mk (Act.gets fun d => .ok (f d))

/-- Update the connection. -/
def modify (f : Dialogue σ ω C → Dialogue σ ω C) : Talk σ ω C Unit :=
  ExceptT.mk (Act.lift fun d => (.ok (), f d))

/-- Leave a mark in the trace. -/
def emit (f : Dialogue σ ω C → Event C) : Talk σ ω C Unit :=
  ExceptT.mk ⟨fun d => ⟨.ok (), d, [f d]⟩⟩

/-- Leave for `do_session`. -/
def throw (t : Throw) : Talk σ ω C α := ExceptT.mk (pure (.error t))

@[ext]
theorem ext {x y : Talk σ ω C α} (h : ∀ d, x.exec d = y.exec d) : x = y :=
  Act.ext h

@[simp]
theorem exec_pure (a : α) (d : Dialogue σ ω C) :
    (pure a : Talk σ ω C α).exec d = ⟨.ok a, d, []⟩ := rfl

@[simp]
theorem exec_throw (t : Throw) (d : Dialogue σ ω C) :
    (throw t : Talk σ ω C α).exec d = ⟨.error t, d, []⟩ := rfl

@[simp]
theorem exec_gets (f : Dialogue σ ω C → α) (d : Dialogue σ ω C) :
    (gets f).exec d = ⟨.ok (f d), d, []⟩ := rfl

@[simp]
theorem exec_modify (f : Dialogue σ ω C → Dialogue σ ω C) (d : Dialogue σ ω C) :
    (modify f).exec d = ⟨.ok (), f d, []⟩ := rfl

@[simp]
theorem exec_emit (f : Dialogue σ ω C → Event C) (d : Dialogue σ ω C) :
    (emit f).exec d = ⟨.ok (), d, [f d]⟩ := rfl

@[simp]
theorem exec_ite (c : Prop) [Decidable c] (x y : Talk σ ω C α) (d : Dialogue σ ω C) :
    exec (if c then x else y) d = if c then x.exec d else y.exec d := by
  split <;> rfl

/-- The second part runs where the first returned; an exception passes it by. -/
@[simp]
theorem exec_bind (x : Talk σ ω C α) (f : α → Talk σ ω C β) (d : Dialogue σ ω C) :
    (x >>= f).exec d =
      match (x.exec d).val with
      | .ok a => ⟨((f a).exec (x.exec d).state).val, ((f a).exec (x.exec d).state).state,
          (x.exec d).trace ++ ((f a).exec (x.exec d).state).trace⟩
      | .error t => ⟨.error t, (x.exec d).state, (x.exec d).trace⟩ := by
  simp only [exec, ExceptT.run_bind, Act.run_bind]
  cases (Act.run (ExceptT.run x) d).val with
  | ok a => rfl
  | error t => simp

end Talk

/-- Assign to the variables of the code that talks. -/
def assign {σ ω C : Type} (f : σ → σ) : Talk σ ω C Unit :=
  Talk.modify fun d => { d with statics := f d.statics }

@[simp]
theorem exec_assign {σ ω C : Type} (f : σ → σ) (d : Dialogue σ ω C) :
    (assign f).exec d = ⟨.ok (), { d with statics := f d.statics }, []⟩ := rfl

/-! ## Sending and receiving -/

section

variable {σ ω C : Type}

/-- `TAGMOD` -/
def tagmod : Nat := 10000

/-- `sprintf(tag, "A%04d", n)` -/
def tagText (n : Nat) : Bytes :=
  Bytes.lit "A" ++ [n / 1000 % 10, n / 100 % 10, n / 10 % 10, n % 10].map Bytes.digit

/-- A new `tag`. -/
def Dialogue.gensym (d : Dialogue σ ω C) : Dialogue σ ω C :=
  { d with tagnum := d.tagnum + 1, tag := tagText ((d.tagnum + 1) % tagmod) }

/-- The line `c` arrives at the server under a tag, and is answered. -/
def Dialogue.deliver (tag : Bytes) (c : C) (d : Dialogue σ ω C) : Dialogue σ ω C :=
  { d with lines := d.lines ++ (d.answer tag c d.peer).1, peer := (d.answer tag c d.peer).2 }

/-- `SockWrite` of a whole line, without a tag. -/
def sockWrite (c : C) : Talk σ ω C Unit := do
  Talk.emit fun d => .sent d.tls [] c
  Talk.modify (Dialogue.deliver [] c)

/-- The line is sent with a tag. -/
def Dialogue.tags (d : Dialogue σ ω C) : Bool := d.tagged && !d.suppressTags

/-- `gen_send` -/
def genSend (c : C) : Talk σ ω C Unit := do
  if ← Talk.gets Dialogue.tags then
    Talk.modify Dialogue.gensym
    Talk.emit fun d => .sent d.tls d.tag c
    Talk.modify fun d => d.deliver d.tag c
  else sockWrite c

/-- What `gen_recv` makes of `r`, when `rest` is yet to come. -/
def accept (r : Recv) (rest : List Recv) : Talk σ ω C (Except Ps Bytes) := do
  Talk.modify fun d => { d with lines := rest }
  match r with
  | .line text _ => return .ok text
  | .silence =>
    if (← Talk.gets Dialogue.stage) = .idle then return .error .idletimeout
    else Talk.throw .timeout

/-- `gen_recv`: a line, or why there is none. -/
def genRecv : Talk σ ω C (Except Ps Bytes) := do
  match ← Talk.gets Dialogue.lines with
  | [] => return .error .socket
  | r :: rest => accept r rest

/-- `gen_transact`, with the response parser of the protocol. -/
def genTransact (parseResponse : Talk σ ω C Ps) (c : C) : Talk σ ω C Ps := do
  genSend c
  parseResponse

/-- Between `suppress_tags = TRUE` and `suppress_tags = FALSE`. -/
def suppressingTags {α : Type} (x : Talk σ ω C α) : Talk σ ω C α := do
  Talk.modify fun d => { d with suppressTags := true }
  let a ← x
  Talk.modify fun d => { d with suppressTags := false }
  return a

/-! ## Parts of the connection that code leaves alone -/

/-- `x` does not change what `f` shows of the connection. -/
def Keeps {α γ : Type} (f : Dialogue σ ω C → γ) (x : Talk σ ω C α) : Prop :=
  ∀ d, f (x.exec d).state = f d

variable {α β γ : Type} {f : Dialogue σ ω C → γ}

theorem keeps_pure (a : α) : Keeps f (pure a : Talk σ ω C α) := fun _ => rfl

theorem keeps_throw (t : Throw) : Keeps f (Talk.throw t : Talk σ ω C α) := fun _ => rfl

theorem keeps_gets (g : Dialogue σ ω C → α) : Keeps f (Talk.gets g) := fun _ => rfl

theorem keeps_modify {g : Dialogue σ ω C → Dialogue σ ω C} (h : ∀ d, f (g d) = f d) :
    Keeps f (Talk.modify g) := h

theorem Keeps.bind {x : Talk σ ω C α} {g : α → Talk σ ω C β} (hx : Keeps f x)
    (hg : ∀ a, Keeps f (g a)) : Keeps f (x >>= g) := by
  intro d
  rw [Talk.exec_bind]
  cases (x.exec d).val with
  | error t => exact hx d
  | ok a => exact (hg a _).trans (hx d)

theorem Keeps.ite {c : Prop} [Decidable c] {x y : Talk σ ω C α} (hx : Keeps f x)
    (hy : Keeps f y) : Keeps f (if c then x else y) := by
  split
  · exact hx
  · exact hy

theorem keeps_sockWrite {c : C} (h : ∀ d, f (d.deliver [] c) = f d) :
    Keeps f (sockWrite c : Talk σ ω C Unit) := by
  have hemit : Keeps f (Talk.emit fun d => .sent d.tls [] c : Talk σ ω C Unit) := fun _ => rfl
  exact hemit.bind fun _ => keeps_modify h

theorem keeps_accept (h : ∀ d lines, f { d with lines := lines } = f d) (r : Recv)
    (rest : List Recv) : Keeps f (accept r rest : Talk σ ω C _) := by
  refine Keeps.bind (keeps_modify (by intro d; exact h d rest)) fun _ => ?_
  cases r with
  | line text late => exact keeps_pure _
  | silence =>
    refine (keeps_gets _).bind fun stage => ?_
    exact Keeps.ite (keeps_pure _) (keeps_throw _)

end

end Fetchmail.Transact
