import Fetchmail.Driver.FetchMessages

/-!
# Reasoning Rules for the Fetch Loop

Rules with which a property of the world is carried through `fetch_messages`. A client
gives assertions for the stages of one iteration and shows that the protocol methods and
the transaction layer respect them, one obligation for each; `judge_rule` carries them to
`flagthemail`, and `fetchFrom_rule` is the induction over the messages.
-/

namespace Fetchmail.Driver

open Fetchmail.Lib

/-- Calls of which the rules ask nothing. -/
def Call.Plain : Call → Prop
  | .getpartialsizes .. | .deleteMsg .. | .markSeen .. => False
  | _ => True

/-- Assertions for message `num`: `A` until its headers are read, `H f` from then to the
end of the message, `Z f` at `flagthemail`, `E` where the pass is left; and `Ok` for the
calls made. -/
structure JudgeRule {σ : Type} (m : Method σ) (t : Transact σ) (count num : Nat)
    (A : σ → Prop) (H Z : Flags → σ → Prop) (E : σ → Prop) (Ok : Call → Prop) : Prop where
  plain : ∀ e : Call, e.Plain → Ok e
  leave : ∀ s, A s → E s
  leaveBody : ∀ f s, H f s → E s
  old : ∀ s, A s → Z ⟨.old, false, false, false⟩ s
  toolarge : ∀ b s, A s → Z ⟨.toolarge, b, false, false⟩ s
  isOld : ∀ f, m.isOld = some f → ∀ s, A s → A (f num s).2
  getpartialsizes : ∀ f, m.getpartialsizes = some f → ∀ last sizes s, num ≤ last → last ≤ count →
    last < num + sizes.length → A s → E (f num last sizes s).2 ∧
      Ok (.getpartialsizes num last (f num last sizes s).1.1 (f num last sizes s).1.2) ∧
      ((f num last sizes s).1.1 = .success → A (f num last sizes s).2)
  fetchHeaders : ∀ s, A s → A (m.fetchHeaders num s).2
  readheaders : ∀ len size b s, A s →
    E (t.readheaders len size num b s).2 ∧
      ∀ f, headerFlags (t.readheaders len size num b s).1.err = some f →
        H f (t.readheaders len size num b s).2
  trail : ∀ g, m.trail = some g → ∀ f s, H f s → H f (g s).2
  fetchBody : ∀ g, m.fetchBody = some g → ∀ f s, H f s → H f (g num s).2
  readbody : ∀ len f s, H f s →
    H (f.afterBody (t.readbody (!f.suppressForward) len s).1)
      (t.readbody (!f.suppressForward) len s).2
  closeSink : ∀ f s, H f s →
    Z { f with suppressDelete := f.suppressDelete || !(t.closeSink (!f.suppressForward) s).1 }
      (t.closeSink (!f.suppressForward) s).2

section

variable {σ : Type} {c : Ctl} {m : Method σ} {t : Transact σ} {count num : Nat}
  {A : σ → Prop} {H Z : Flags → σ → Prop} {E : σ → Prop} {Ok : Call → Prop} {s : σ}

/-- What a rule promises about a part of the loop body. -/
def JudgePost (A : σ → Prop) (Z : Flags → σ → Prop) (E : σ → Prop) (Ok : Call → Prop)
    (next : Next) (s : σ) (tr : List Call) : Prop :=
  (∀ e ∈ tr, Ok e) ∧
    match next with
    | .nextMessage _ => A s
    | .leave _ _ => E s
    | .flagthemail f _ => Z f s

/-- Calls made before a part of the loop body may be counted to the part. -/
theorem JudgePost.prepend {next : Next} {tr₁ tr₂ : List Call} (h : JudgePost A Z E Ok next s tr₂)
    (h₁ : ∀ e ∈ tr₁, Ok e) : JudgePost A Z E Ok next s (tr₁ ++ tr₂) := by
  refine ⟨fun e he => ?_, h.2⟩
  rcases List.mem_append.mp he with he | he
  · exact h₁ e he
  · exact h.1 e he

variable (R : JudgeRule m t count num A H Z E Ok)
include R

theorem JudgeRule.ok_singleton {e : Call} (he : e.Plain) : ∀ e' ∈ [e], Ok e' := by
  simpa using R.plain e he

theorem JudgeRule.eatTrailer {f : Flags} (hs : H f s) :
    (eatTrailer m num).wp (fun _ s' tr => (∀ e ∈ tr, Ok e) ∧ H f s') s := by
  unfold Driver.eatTrailer
  cases htrail : m.trail with
  | none => simpa using hs
  | some trail =>
    simp only [Act.wp_bind, Act.wp_lift, Act.wp_emit, Act.wp_pure, List.nil_append, List.append_nil,
      List.mem_singleton, forall_eq]
    exact ⟨R.plain _ trivial, R.trail trail htrail f s hs⟩

theorem JudgeRule.headerTrailer {f : Flags} (hs : H f s) :
    (headerTrailer m num).wp (fun _ s' tr => (∀ e ∈ tr, Ok e) ∧ H f s') s := by
  unfold Driver.headerTrailer
  split
  · exact R.eatTrailer hs
  · simpa using hs

theorem JudgeRule.requestBody {f : Flags} (len msgsize msglen : Int) (hs : H f s) :
    (requestBody m num len msgsize msglen).wp (fun _ s' tr => (∀ e ∈ tr, Ok e) ∧ H f s') s := by
  unfold Driver.requestBody
  cases hbody : m.fetchBody with
  | none => simpa using hs
  | some fetchBody =>
    simp only [Act.wp_bind, Act.wp_lift, Act.wp_emit, Act.wp_pure, List.nil_append, List.append_nil,
      List.mem_singleton, forall_eq]
    exact ⟨R.plain _ trivial, R.fetchBody fetchBody hbody f s hs⟩

theorem JudgeRule.processBody {f : Flags} (len msgsize msglen : Int) (hs : H f s) :
    (processBody m t num (!f.suppressForward) len msgsize msglen).wp
      (fun r s' tr => (∀ e ∈ tr, Ok e) ∧ E s' ∧ ∀ err, r = .ok err → H (f.afterBody err) s') s := by
  unfold Driver.processBody
  simp only [Act.wp_bind]
  refine Act.wp_mono (R.requestBody len msgsize msglen hs) fun r s₁ tr₁ h₁ => ?_
  cases r with
  | error err => simpa using ⟨h₁.1, R.leaveBody f s₁ h₁.2⟩
  | ok len =>
    have hread := R.readbody len f s₁ h₁.2
    simp only [Act.wp_bind, Act.wp_lift, Act.wp_emit, Act.wp_ite, Act.wp_pure, List.nil_append,
      List.append_nil]
    refine ⟨fun _ => ?_, fun _ => ⟨?_, R.leaveBody _ _ hread, by simp⟩⟩
    -- the trailer is read behind a body that was taken
    · refine Act.wp_mono (R.eatTrailer hread) fun trailErr s₂ tr₂ h₂ => ⟨?_, ?_, ?_⟩
      · intro e he
        simp only [List.mem_append, List.mem_singleton] at he
        rcases he with he | rfl | he
        · exact h₁.1 e he
        · exact R.plain _ trivial
        · exact h₂.1 e he
      · exact R.leaveBody _ _ h₂.2
      · intro err herr
        split at herr
        · cases herr
          exact h₂.2
        · cases herr
    · intro e he
      simp only [List.mem_append, List.mem_singleton] at he
      rcases he with he | rfl
      · exact h₁.1 e he
      · exact R.plain _ trivial

theorem JudgeRule.finishMessage {f : Flags} (l : Loop) (hs : H f s) :
    (finishMessage t num f l).wp (JudgePost A Z E Ok) s := by
  unfold Driver.finishMessage
  simp only [Act.wp_bind, Act.wp_lift, Act.wp_emit, Act.wp_pure, List.nil_append, List.append_nil]
  exact ⟨R.ok_singleton trivial, R.closeSink f s hs⟩

theorem JudgeRule.retrieveBody {f : Flags} (sb : Bool) (len msgsize msglen : Int) (l : Loop)
    (hs : H f s) :
    (retrieveBody m t num f sb len msgsize msglen l).wp (JudgePost A Z E Ok) s := by
  unfold Driver.retrieveBody
  simp only [Act.wp_bind]
  refine Act.wp_mono (R.headerTrailer hs) fun trailErr s₁ tr₁ h₁ => ?_
  simp only [Act.wp_ite, Act.wp_pure, List.append_nil]
  refine ⟨fun _ => ⟨h₁.1, R.leaveBody f s₁ h₁.2⟩, fun _ => ⟨fun _ => ?_, fun _ => ?_⟩⟩
  · exact Act.wp_mono (R.finishMessage l h₁.2) fun next s₂ tr₂ h₂ => h₂.prepend h₁.1
  · simp only [Act.wp_bind]
    refine Act.wp_mono (R.processBody len msgsize msglen h₁.2) fun r s₂ tr₂ h₂ => ?_
    cases r with
    | error err =>
      have hleave : JudgePost A Z E Ok (.leave err l) s₂ tr₂ := ⟨h₂.1, h₂.2.1⟩
      simpa using hleave.prepend h₁.1
    | ok err =>
      refine Act.wp_mono (R.finishMessage _ (h₂.2.2 err rfl)) fun next s₃ tr₃ h₃ => ?_
      exact (h₃.prepend h₂.1).prepend h₁.1

theorem JudgeRule.retrieve (msgsize : Int) (l : Loop) (hs : A s) :
    (retrieve m t num msgsize l).wp (JudgePost A Z E Ok) s := by
  unfold Driver.retrieve
  have hfetch := R.fetchHeaders s hs
  simp only [Act.wp_bind, Act.wp_lift, Act.wp_emit, Act.wp_ite, Act.wp_pure, List.nil_append,
    List.append_nil]
  have hplain : ∀ e ∈ [Call.fetchHeaders num (m.fetchHeaders num s).1.1], Ok e :=
    R.ok_singleton trivial
  refine ⟨fun _ => ⟨hplain, hfetch⟩, fun _ => ⟨fun _ => ⟨hplain, R.leave _ hfetch⟩, fun _ => ?_⟩⟩
  generalize (if (m.fetchHeaders num s).1.2 = -1 then msgsize
    else (m.fetchHeaders num s).1.2) = len
  obtain ⟨hleave, hflags⟩ := R.readheaders len msgsize (!m.fetchBody.isSome) _ hfetch
  generalize t.readheaders len msgsize num _ _ = r at hleave hflags ⊢
  refine JudgePost.prepend ?_ hplain
  cases hf : headerFlags r.1.err with
  | none => exact ⟨R.ok_singleton trivial, hleave⟩
  | some f =>
    exact (R.retrieveBody _ _ _ _ _ (hflags f hf)).prepend (R.ok_singleton trivial)

theorem JudgeRule.checkOld (hs : A s) :
    (checkOld c m num).wp (fun _ s' tr => (∀ e ∈ tr, Ok e) ∧ A s') s := by
  unfold Driver.checkOld
  split
  · simpa using hs
  cases hold : m.isOld with
  | none => simpa using hs
  | some isOld =>
    simp only [Act.wp_bind, Act.wp_lift, Act.wp_emit, Act.wp_pure, List.nil_append, List.append_nil]
    exact ⟨R.ok_singleton trivial, R.isOld isOld hold s hs⟩

theorem JudgeRule.getSizes (l : Loop) (hnum : num ≤ count) (hs : A s) :
    (getSizes c m count num l).wp
      (fun r s' tr => (∀ e ∈ tr, Ok e) ∧ E s' ∧ ∀ l', r = .ok l' → A s') s := by
  have hsame : E s ∧ ∀ l', (Except.ok l : Except Ps Loop) = .ok l' → A s := ⟨R.leave s hs, fun _ _ => hs⟩
  unfold Driver.getSizes
  cases hget : m.getpartialsizes with
  | none => simpa using hsame
  | some getpartialsizes =>
    simp only [Act.wp_ite, Act.wp_bind, Act.wp_lift, Act.wp_emit, Act.wp_pure, List.nil_append,
      List.append_nil]
    refine ⟨fun hlim => ?_, fun _ => by simpa using hsame⟩
    simp only [Bool.and_eq_true, numNonzero_iff] at hlim
    have hone := one_le_sizeLimit hlim.1
    obtain ⟨hleave, hok, hsuccess⟩ := R.getpartialsizes getpartialsizes hget
      (min (num + c.sizeLimit - 1) count) (List.replicate c.sizeLimit 0) s (by omega) (by omega)
      (by rw [List.length_replicate]; omega) hs
    refine ⟨by simpa using hok, hleave, fun l' hl' => ?_⟩
    split at hl'
    · exact hsuccess ‹_›
    · cases hl'

/-- A message that is not old. -/
theorem JudgeRule.judgeNew (l : Loop) (hnum : num ≤ count) (hs : A s) :
    (do
      match ← Driver.getSizes c m count num l with
      | .error err => return .leave err l
      | .ok l =>
        let msgsize := l.msgsize num
        if c.oversized msgsize then return .flagthemail ⟨.toolarge, !c.limitflush, false, false⟩ l
        else Driver.retrieve m t num msgsize l : Act σ Call Next).wp (JudgePost A Z E Ok) s := by
  simp only [Act.wp_bind]
  refine Act.wp_mono (R.getSizes l hnum hs) fun r s₁ tr₁ h₁ => ?_
  cases r with
  | error err => simpa using ⟨h₁.1, h₁.2.1⟩
  | ok l' =>
    have hs₁ := h₁.2.2 l' rfl
    dsimp only
    split
    · simpa using ⟨h₁.1, R.toolarge _ s₁ hs₁⟩
    · exact (R.retrieve _ l' hs₁).prepend h₁.1

/-- **Rule for the loop body** up to `flagthemail`. -/
theorem judge_rule (l : Loop) (hnum : num ≤ count) (hs : A s) :
    (judge c m t count num l).wp (JudgePost A Z E Ok) s := by
  unfold judge
  rw [Act.wp_bind]
  refine Act.wp_mono (R.checkOld hs) fun old s₁ tr₁ h₁ => ?_
  simp only [Act.wp_ite, Act.wp_pure, List.append_nil]
  refine ⟨fun _ => ⟨h₁.1, R.old s₁ h₁.2⟩, fun _ => ?_⟩
  exact Act.wp_mono (R.judgeNew l hnum h₁.2) fun next s₂ tr₂ h₂ => h₂.prepend h₁.1

omit R

/-! ## Disposal -/

/-- The call removes message `num` from the view of later passes. -/
def Call.Disposes (num : Nat) : Call → Prop
  | .deleteMsg n _ | .markSeen n _ => n = num
  | _ => False

/-- The settings under which a message that was delivered is disposed of. -/
def Ctl.disposes (c : Ctl) (m : Method σ) : Prop :=
  (m.deleteMsg.isSome = true ∧ c.keep = false) ∨ (m.markSeen.isSome = true ∧ c.keep = true)

/-- Flags that protect the message. -/
theorem dispose_of_suppressDelete {f : Flags} {l : Loop} (hf : f.suppressDelete = true) :
    dispose c m num f l = pure (.success, l) := by
  have hdel : c.wantsDelete f = false := by simp [Ctl.wantsDelete, hf]
  have hseen : maybeMarkSeen c m num f = pure .success := by
    unfold maybeMarkSeen
    split
    · rfl
    · simp [Ctl.wantsSeen, hf]
  unfold dispose
  rw [hseen]
  split
  · rfl
  · split
    · rfl
    · rw [hdel]
      rfl

/-- Disposal concerns the message at hand only, and keeps what the methods keep. -/
theorem dispose_frame {I : σ → Prop} {f : Flags} {l : Loop}
    (hdel : ∀ g, m.deleteMsg = some g → ∀ s, I s → I (g num s).2)
    (hseen : ∀ g, m.markSeen = some g → ∀ s, I s → I (g num s).2) (hs : I s) :
    (dispose c m num f l).wp
      (fun _ s' tr => I s' ∧ ∀ e ∈ tr, ∀ n, e.Disposes n → n = num) s := by
  have hmark : (maybeMarkSeen c m num f).wp
      (fun _ s' tr => I s' ∧ ∀ e ∈ tr, ∀ n, e.Disposes n → n = num) s := by
    unfold maybeMarkSeen
    cases hm : m.markSeen with
    | none => simpa using hs
    | some markSeen =>
      simp only [Act.wp_ite, Act.wp_bind, Act.wp_lift, Act.wp_emit, Act.wp_pure]
      refine ⟨fun _ => ⟨hseen markSeen hm s hs, ?_⟩, fun _ => by simpa using hs⟩
      simp [Call.Disposes]
  unfold dispose
  split
  · simpa using hs
  cases hd : m.deleteMsg with
  | none => simpa using hmark
  | some deleteMsg =>
    simp only [Act.wp_ite, Act.wp_bind, Act.wp_lift, Act.wp_emit, Act.wp_pure]
    refine ⟨fun _ => ⟨hdel deleteMsg hd s hs, ?_⟩, fun _ => by simpa using hmark⟩
    simp [Call.Disposes]

/-- A message whose flags say that it was delivered is disposed of exactly if the settings
want that of any. -/
theorem dispose_delivered {l : Loop} :
    (dispose c m num ⟨.unknown, false, false, false⟩ l).wp
      (fun _ _ tr => (∃ e ∈ tr, e.Disposes num) ↔ c.disposes m) s := by
  unfold dispose maybeMarkSeen Ctl.disposes Ctl.wantsDelete Ctl.wantsSeen
  cases m.deleteMsg <;> cases m.markSeen <;> cases c.keep <;> simp [Call.Disposes]

/-- The end of the loop body adds nothing to the disposal. -/
theorem flagthemail_rule {maxfetch : Int} {f : Flags} {l : Loop} {P : σ → List Call → Prop}
    (h : (dispose c m num (c.softbounceFlags f) l).wp (fun _ s' tr => P s' tr) s) :
    (flagthemail c m maxfetch count num f l).wp (fun _ s' tr => P s' tr) s := by
  unfold flagthemail
  simp only [Act.wp_bind]
  refine Act.wp_mono h fun r s₁ tr₁ h₁ => ?_
  obtain ⟨err, l'⟩ := r
  simp only [Act.wp_ite, Act.wp_pure, List.append_nil]
  exact ⟨fun _ => h₁, fun _ => ⟨fun _ => h₁, fun _ => h₁⟩⟩

/-! ## The run -/

/-- **Induction over the messages.** `I num` holds when message `num` is reached after the
calls made so far, `D` where the pass is left. -/
theorem fetchFrom_rule (I : Nat → σ → List Call → Prop) (D : σ → List Call → Prop)
    {maxfetch : Int} {left num : Nat} {l : Loop} (tr : List Call)
    (hnum : num + left = count + 1)
    (step : ∀ num l s tr, num ≤ count → I num s tr →
      (fetchMessage c m t maxfetch count num l).wp
        (fun next s' tr' => match next with
          | .nextMessage _ => I (num + 1) s' (tr ++ tr')
          | _ => D s' (tr ++ tr')) s)
    (done : ∀ s tr, I (count + 1) s tr → D s tr) (hI : I num s tr) :
    (fetchFrom c m t maxfetch count left num l).wp (fun _ s' tr' => D s' (tr ++ tr')) s := by
  induction left generalizing num l s tr with
  | zero =>
    have hend : num = count + 1 := by omega
    subst hend
    simpa [fetchFrom] using done s tr hI
  | succ left ih =>
    unfold fetchFrom
    simp only [Act.wp_bind]
    refine Act.wp_mono (step num l s tr (by omega) hI) fun next s₁ tr₁ h₁ => ?_
    cases next with
    | nextMessage l' =>
      refine Act.wp_mono (ih _ (by omega) h₁) fun _ s₂ tr₂ h₂ => ?_
      simpa only [List.append_assoc] using h₂
    | leave err l' => simpa using h₁
    | flagthemail f l' => simpa using h₁

/-! ## Invariants -/

/-- Every method and every function of the transaction layer keeps `I`. -/
structure Invariant {σ : Type} (m : Method σ) (t : Transact σ) (I : σ → Prop) : Prop where
  isOld : ∀ f, m.isOld = some f → ∀ num s, I s → I (f num s).2
  getpartialsizes : ∀ f, m.getpartialsizes = some f → ∀ first last sizes s, I s →
    I (f first last sizes s).2
  fetchHeaders : ∀ num s, I s → I (m.fetchHeaders num s).2
  fetchBody : ∀ f, m.fetchBody = some f → ∀ num s, I s → I (f num s).2
  trail : ∀ f, m.trail = some f → ∀ s, I s → I (f s).2
  deleteMsg : ∀ f, m.deleteMsg = some f → ∀ num s, I s → I (f num s).2
  markSeen : ∀ f, m.markSeen = some f → ∀ num s, I s → I (f num s).2
  readheaders : ∀ len size num b s, I s → I (t.readheaders len size num b s).2
  readbody : ∀ forward len s, I s → I (t.readbody forward len s).2
  closeSink : ∀ forward s, I s → I (t.closeSink forward s).2

variable {I : σ → Prop}

theorem Invariant.judgeRule (h : Invariant m t I) (count num : Nat) :
    JudgeRule m t count num I (fun _ => I) (fun _ => I) I (fun _ => True) where
  plain := fun _ _ => trivial
  leave := fun _ hs => hs
  leaveBody := fun _ _ hs => hs
  old := fun _ hs => hs
  toolarge := fun _ _ hs => hs
  isOld := fun f hf s hs => h.isOld f hf num s hs
  getpartialsizes := fun f hf last sizes s _ _ _ hs =>
    have hnext := h.getpartialsizes f hf num last sizes s hs
    ⟨hnext, trivial, fun _ => hnext⟩
  fetchHeaders := fun s hs => h.fetchHeaders num s hs
  readheaders := fun len size b s hs =>
    have hnext := h.readheaders len size num b s hs
    ⟨hnext, fun _ _ => hnext⟩
  trail := fun g hg _ s hs => h.trail g hg s hs
  fetchBody := fun g hg _ s hs => h.fetchBody g hg num s hs
  readbody := fun len _ s hs => h.readbody _ len s hs
  closeSink := fun _ s hs => h.closeSink _ s hs

/-- One message. -/
theorem fetchMessage_invariant (h : Invariant m t I) (maxfetch : Int) {count num : Nat}
    (hnum : num ≤ count) (l : Loop) (hs : I s) :
    (fetchMessage c m t maxfetch count num l).wp (fun _ s' _ => I s') s := by
  unfold fetchMessage
  simp only [Act.wp_bind]
  refine Act.wp_mono (judge_rule (h.judgeRule count num) l hnum hs) fun next s₁ tr₁ h₁ => ?_
  cases next with
  | nextMessage l' => exact h₁.2
  | leave err l' => exact h₁.2
  | flagthemail f l' =>
    have hdispose : (dispose c m num (c.softbounceFlags f) l').wp (fun _ s' _ => I s') s₁ :=
      Act.wp_mono (dispose_frame (fun g hg s hs => h.deleteMsg g hg num s hs)
        (fun g hg s hs => h.markSeen g hg num s hs) h₁.2) fun _ _ _ hd => hd.1
    have hflag : (flagthemail c m maxfetch count num f l').wp (fun _ s' _ => I s') s₁ :=
      flagthemail_rule hdispose
    refine Act.wp_mono hflag fun next s₂ tr₂ h₂ => ?_
    cases next <;> exact h₂

/-- **A pass keeps what its parts keep.** -/
theorem fetchMessages_invariant (h : Invariant m t I) (maxfetch : Int) (count : Nat) (l : Loop)
    (hs : I s) : (fetchMessages c m t maxfetch count l).wp (fun _ s' _ => I s') s := by
  refine fetchFrom_rule (fun _ s _ => I s) (fun s _ => I s) [] (by omega) ?_
    (fun _ _ hs => hs) hs
  intro num l s tr hnum hs
  refine Act.wp_mono (fetchMessage_invariant h maxfetch hnum l hs) fun next s₁ tr₁ h₁ => ?_
  cases next <;> exact h₁

end

end Fetchmail.Driver
