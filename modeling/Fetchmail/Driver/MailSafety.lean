import Fetchmail.Driver.FetchMessages

/-!
# No Mail Is Lost by the Fetch Loop

A message may be deleted from the server, or marked as seen there, only for a reason: it
was old and the user flushes old mail, it was too large and the user flushes large mail, it
was delivered, or it was refused for good. `Allowed` states the reasons in terms of the
calls that came before, whatever the protocol methods, the transaction layer and the sink
answered; `fetchMessages_guarded` shows that every run keeps to them.

The flags of one iteration are certificates: `Certified` says what a flag record promises
about the calls already made, each part of the loop body establishes or uses it.
-/

namespace Fetchmail.Driver

open Fetchmail.Lib

/-! ## Reasons to dispose of a message -/

/-- Headers of message `num` were fetched and accepted, and so was its body, if one was to
be read. -/
def Read (pre : List Call) (num : Nat) : Prop :=
  .fetchHeaders num .success ∈ pre ∧
    ∃ suppressReadbody, .readheaders num .success suppressReadbody ∈ pre ∧
      (suppressReadbody = false → .readbody num true .success ∈ pre)

/-- Message `num` was read and the sink took responsibility for it. -/
def Delivered (pre : List Call) (num : Nat) : Prop :=
  Read pre num ∧ .closeSink num true true ∈ pre

/-- The sink refused message `num`, and closed without error. -/
def Refused (pre : List Call) (num : Nat) : Prop :=
  (∃ suppressReadbody, .readheaders num .refused suppressReadbody ∈ pre) ∧
    .closeSink num false true ∈ pre

section

variable {σ : Type} (c : Ctl) (m : Method σ) (sizes₀ : Option (List Int))

/-- The size on record for message `num`: from the window that covers it, or, where sizes
are not fetched in windows, from the array `sizes₀` that the pass started with. -/
def KnownSize (pre : List Call) (num : Nat) (size : Int) : Prop :=
  if partialSizes c m then
    ∃ first last sizes, .getpartialsizes first last .success sizes ∈ pre ∧
      first ≤ num ∧ num ≤ last ∧ size = sizeAt (some sizes) (num - first)
  else size = sizeAt sizes₀ (num - 1)

/-- Message `num` is over the limit that the user set. -/
def Oversized (pre : List Call) (num : Nat) : Prop :=
  ∃ size, KnownSize c m sizes₀ pre num size ∧ 0 < c.limit ∧ c.limit < size

/-- Message `num` was delivered, or it was refused and refusals are taken as final. -/
def Settled (pre : List Call) (num : Nat) : Prop :=
  Delivered pre num ∨ (Refused pre num ∧ c.softbounce = false)

/-- What a call needs to find in the trace before it. -/
def Allowed (pre : List Call) : Call → Prop
  | .deleteMsg num _ =>
    (.isOld num true ∈ pre ∧ c.flush = true) ∨
      (Oversized c m sizes₀ pre num ∧ c.limitflush = true) ∨ Settled c pre num
  | .markSeen num _ => Settled c pre num
  | .closeSink num true _ => Read pre num
  | _ => True

end

/-! ## Monotonicity -/

section

variable {σ : Type} {c : Ctl} {m : Method σ} {sizes₀ : Option (List Int)}

theorem Read.mono {pre pre' : List Call} {num : Nat} (h : Read pre num)
    (hsub : ∀ e ∈ pre, e ∈ pre') : Read pre' num := by
  obtain ⟨hfetch, sb, hread, hbody⟩ := h
  exact ⟨hsub _ hfetch, sb, hsub _ hread, fun hsb => hsub _ (hbody hsb)⟩

/-- A call that needs no reason. -/
def Harmless : Call → Prop
  | .deleteMsg _ _ | .markSeen _ _ | .closeSink _ true _ => False
  | _ => True

theorem allowed_of_harmless {pre : List Call} {e : Call} (h : Harmless e) :
    Allowed c m sizes₀ pre e := by
  unfold Harmless at h
  unfold Allowed
  split at h <;> simp_all

theorem guarded_of_harmless {pre tr : List Call} (h : ∀ e ∈ tr, Harmless e) :
    Guarded (fun p => Allowed c m sizes₀ (pre ++ p)) tr := by
  intro p e post htr
  exact allowed_of_harmless (h e (by simp [htr]))

end

/-! ## Specifications of the parts -/

section

variable {σ : Type} {c : Ctl} {m : Method σ} {t : Transact σ} {s : σ}

theorem eatTrailer_spec (num : Nat) :
    (eatTrailer m num).wp (fun _ _ tr => ∀ e ∈ tr, Harmless e) s := by
  unfold eatTrailer
  split
  · simp
  · simp [Harmless]

theorem headerTrailer_spec (num : Nat) :
    (headerTrailer m num).wp (fun _ _ tr => ∀ e ∈ tr, Harmless e) s := by
  unfold headerTrailer
  split
  · exact eatTrailer_spec num
  · simp

theorem requestBody_spec (num : Nat) (len msgsize msglen : Int) :
    (requestBody m num len msgsize msglen).wp (fun _ _ tr => ∀ e ∈ tr, Harmless e) s := by
  unfold requestBody
  split
  · simp
  · simp [Harmless]

/-- When the loop goes on after a body with `success`, the body was read. -/
theorem processBody_spec (num : Nat) (forward : Bool) (len msgsize msglen : Int) :
    (processBody m t num forward len msgsize msglen).wp
      (fun r _ tr => (∀ e ∈ tr, Harmless e) ∧
        ∀ err, r = .ok err → .readbody num forward err ∈ tr ∧ (err = .success ∨ err = .transient))
      s := by
  unfold processBody
  simp only [Act.wp_bind]
  refine Act.wp_mono (requestBody_spec num len msgsize msglen) fun r s₁ tr₁ h₁ => ?_
  cases r with
  | error err => simpa using h₁
  | ok len =>
    simp only [Act.wp_bind, Act.wp_lift, Act.wp_emit, Act.wp_ite, Act.wp_pure, List.nil_append]
    -- a body that was read is followed by the trailer, any other ends the session
    constructor
    · intro herr
      refine Act.wp_mono (eatTrailer_spec num) fun trailErr s₂ tr₂ h₂ => ?_
      simp only [List.append_nil, List.mem_append, List.mem_cons, List.not_mem_nil, or_false]
      refine ⟨?_, ?_⟩
      · rintro e (he | rfl | he)
        · exact h₁ e he
        · exact trivial
        · exact h₂ e he
      · intro err' hr
        split at hr
        · cases hr
          exact ⟨.inr (.inl rfl), herr⟩
        · cases hr
    · intro _
      refine ⟨?_, by simp⟩
      simp only [List.append_nil, List.mem_append, List.mem_cons, List.not_mem_nil, or_false]
      rintro e (he | rfl)
      · exact h₁ e he
      · exact trivial

/-! ## Certificates carried by the flags -/

/-- Before the sink is closed: a message to be forwarded was read, one that is neither
forwarded nor protected from deletion was refused. -/
structure Prepared (pre : List Call) (num : Nat) (f : Flags) : Prop where
  unknown : f.msgcode = .unknown
  read : f.suppressForward = false → Read pre num
  refused : f.suppressForward = true → f.suppressDelete = false →
    ∃ sb, .readheaders num .refused sb ∈ pre

/-- What the flags of message `num` promise when `flagthemail` is reached. -/
def Certified {σ : Type} (c : Ctl) (m : Method σ) (sizes₀ : Option (List Int))
    (pre : List Call) (num : Nat) (f : Flags) : Prop :=
  match f.msgcode with
  | .old => .isOld num true ∈ pre
  | .toolarge => Oversized c m sizes₀ pre num
  | .unknown => Prepared pre num f ∧
      (f.suppressDelete = false → .closeSink num (!f.suppressForward) true ∈ pre)

@[simp]
theorem softbounceFlags_msgcode (f : Flags) : (c.softbounceFlags f).msgcode = f.msgcode := by
  unfold Ctl.softbounceFlags
  split <;> rfl

/-- A certificate that survives the softbounce rule settles the message. -/
theorem Certified.settled {sizes₀ : Option (List Int)} {pre : List Call} {num : Nat}
    {f : Flags} (h : Certified c m sizes₀ pre num f) (hcode : f.msgcode = .unknown)
    (hdel : (c.softbounceFlags f).suppressDelete = false) : Settled c pre num := by
  unfold Certified at h
  simp only [hcode] at h
  obtain ⟨hprep, hclose⟩ := h
  unfold Ctl.softbounceFlags at hdel
  cases hfwd : f.suppressForward with
  | true =>
    simp only [hfwd, if_true, Bool.or_eq_false_iff] at hdel
    have hclosed := hclose hdel.1
    rw [hfwd] at hclosed
    exact .inr ⟨⟨hprep.refused hfwd hdel.1, hclosed⟩, hdel.2⟩
  | false =>
    simp only [hfwd, Bool.false_eq_true, if_false] at hdel
    have hclosed := hclose hdel
    rw [hfwd] at hclosed
    exact .inl ⟨hprep.read hfwd, hclosed⟩

/-! ## Windows of sizes -/

/-- The loop that a part of the loop body hands on. -/
def Next.loop : Next → Loop
  | .nextMessage l | .leave _ l | .flagthemail _ l => l

/-- The array of sizes and its bounds are the same. -/
def Loop.SameWindow (l l' : Loop) : Prop :=
  l'.firstnum = l.firstnum ∧ l'.lastnum = l.lastnum ∧ l'.msgsizes = l.msgsizes

@[simp]
theorem countTransient_sameWindow (l : Loop) (err : Ps) : l.SameWindow (l.countTransient err) := by
  unfold Loop.countTransient Loop.SameWindow
  split <;> simp

theorem Loop.SameWindow.trans {l l' l'' : Loop} (h : l.SameWindow l') (h' : l'.SameWindow l'') :
    l.SameWindow l'' :=
  ⟨h'.1.trans h.1, h'.2.1.trans h.2.1, h'.2.2.trans h.2.2⟩

/-- The array of sizes holds what the trace says it holds, for messages from `num` on. -/
def Window {σ : Type} (c : Ctl) (m : Method σ) (sizes₀ : Option (List Int))
    (pre : List Call) (num : Nat) (l : Loop) : Prop :=
  if partialSizes c m then
    l.lastnum < num ∨ ∃ sizes, .getpartialsizes l.firstnum l.lastnum .success sizes ∈ pre ∧
      l.msgsizes = some sizes ∧ l.firstnum ≤ num
  else l.firstnum = 1 ∧ l.msgsizes = sizes₀

theorem Window.mono {sizes₀ : Option (List Int)} {pre pre' : List Call} {num : Nat} {l : Loop}
    (h : Window c m sizes₀ pre num l) (hsub : ∀ e ∈ pre, e ∈ pre') :
    Window c m sizes₀ pre' num l := by
  unfold Window at *
  split at h
  · rw [if_pos ‹_›]
    exact h.imp id fun ⟨sizes, hmem, hrest⟩ => ⟨sizes, hsub _ hmem, hrest⟩
  · rw [if_neg ‹_›]
    exact h

theorem Window.sameWindow {sizes₀ : Option (List Int)} {pre : List Call} {num : Nat}
    {l l' : Loop} (h : Window c m sizes₀ pre num l) (hl : l.SameWindow l') :
    Window c m sizes₀ pre num l' := by
  obtain ⟨hfirst, hlast, hsizes⟩ := hl
  unfold Window at *
  rwa [hfirst, hlast, hsizes]

/-- A window serves the next message too. -/
theorem Window.next {sizes₀ : Option (List Int)} {pre : List Call} {num : Nat} {l l' : Loop}
    (h : Window c m sizes₀ pre num l) (hl : l.SameWindow l') :
    Window c m sizes₀ pre (num + 1) l' := by
  have h' := h.sameWindow hl
  unfold Window at *
  split at h'
  · rw [if_pos ‹_›]
    rcases h' with h' | ⟨sizes, hmem, hs, hle⟩
    · exact .inl (Nat.lt_succ_of_lt h')
    · exact .inr ⟨sizes, hmem, hs, Nat.le_succ_of_le hle⟩
  · rw [if_neg ‹_›]
    exact h'

/-- After `getSizes` the size of message `num` is on record. -/
theorem getSizes_spec {sizes₀ : Option (List Int)} {pre : List Call} {count num : Nat} {l : Loop}
    (hnum : num ≤ count) (hw : Window c m sizes₀ pre num l) :
    (getSizes c m count num l).wp
      (fun r _ tr => (∀ e ∈ tr, Harmless e) ∧
        ∀ l', r = .ok l' → Window c m sizes₀ (pre ++ tr) num l' ∧
          KnownSize c m sizes₀ (pre ++ tr) num (l'.msgsize num))
      s := by
  unfold getSizes
  cases hget : m.getpartialsizes with
  | none =>
    have hpart : partialSizes c m = false := by simp [partialSizes, hget]
    simp only [Act.wp_pure, List.append_nil]
    refine ⟨by simp, ?_⟩
    rintro l' ⟨⟩
    refine ⟨hw, ?_⟩
    unfold Window at hw
    simp only [hpart, Bool.false_eq_true, if_false] at hw
    simp [KnownSize, hpart, Loop.msgsize, hw.1, hw.2]
  | some getpartialsizes =>
    by_cases hlim : 0 < c.fetchsizelimit
    · have hpart : partialSizes c m = true := by simp [partialSizes, hget, hlim]
      have hone := one_le_sizeLimit hlim
      simp only [Act.wp_ite, Act.wp_bind, Act.wp_lift, Act.wp_emit, Act.wp_pure]
      -- the window is moved on, or the size is in the one that was fetched before
      constructor
      · intro _
        refine ⟨by simp [Harmless], ?_⟩
        intro l' hr
        split at hr
        · next herr =>
          cases hr
          have hcover : num ≤ min (num + c.sizeLimit - 1) count := by omega
          simp only [Window, KnownSize, hpart, if_true]
          refine ⟨.inr ⟨_, by simp [herr], rfl, Nat.le_refl _⟩, ?_⟩
          exact ⟨num, min (num + c.sizeLimit - 1) count, _, by simp [herr], Nat.le_refl _, hcover,
            rfl⟩
        · cases hr
      · intro hcover
        simp only [Bool.and_eq_true, numNonzero_iff, hlim, true_and, decide_eq_true_eq,
          Nat.not_lt] at hcover
        refine ⟨by simp, ?_⟩
        rintro l' ⟨⟩
        simp only [List.append_nil]
        refine ⟨hw, ?_⟩
        unfold Window at hw
        simp only [hpart, if_true] at hw
        rcases hw with hw | ⟨sizes, hmem, hs, hle⟩
        · omega
        · simp only [KnownSize, hpart, if_true]
          exact ⟨_, _, sizes, hmem, hle, hcover, by simp [Loop.msgsize, hs]⟩
    · have hpart : partialSizes c m = false := by
        simp only [partialSizes, numNonzero, hlim, decide_false, Bool.and_false]
      simp only [numNonzero_iff, hlim, Bool.and_eq_true, false_and, if_false, Act.wp_pure,
        List.append_nil]
      refine ⟨by simp, ?_⟩
      rintro l' ⟨⟩
      refine ⟨hw, ?_⟩
      unfold Window at hw
      simp only [hpart, Bool.false_eq_true, if_false] at hw
      simp [KnownSize, hpart, Loop.msgsize, hw.1, hw.2]

/-! ## Retrieval -/

/-- What a part of the loop body guarantees, started after the calls `pre`: it keeps to the
guard, leaves the window of sizes alone, and certifies the flags it hands on. -/
def PartSpec (c : Ctl) (m : Method σ) (sizes₀ : Option (List Int)) (pre : List Call)
    (num : Nat) (l : Loop) (next : Next) (tr : List Call) : Prop :=
  Guarded (fun p => Allowed c m sizes₀ (pre ++ p)) tr ∧ l.SameWindow next.loop ∧
    ∀ f' l', next = .flagthemail f' l' → Certified c m sizes₀ (pre ++ tr) num f'

/-- Calls made before a part of the loop body may be counted to the part. -/
theorem PartSpec.prepend {sizes₀ : Option (List Int)} {pre tr₁ tr₂ : List Call} {num : Nat}
    {l l' : Loop} {next : Next} (h : PartSpec c m sizes₀ (pre ++ tr₁) num l' next tr₂)
    (h₁ : ∀ e ∈ tr₁, Harmless e) (hl : l.SameWindow l') :
    PartSpec c m sizes₀ pre num l next (tr₁ ++ tr₂) := by
  obtain ⟨hg, hw, hc⟩ := h
  refine ⟨?_, hl.trans hw, ?_⟩
  · rw [guarded_append]
    refine ⟨guarded_of_harmless h₁, ?_⟩
    simpa only [List.append_assoc] using hg
  · simpa only [List.append_assoc] using hc

theorem partSpec_leave {sizes₀ : Option (List Int)} {pre : List Call} {num : Nat} {l : Loop}
    {err : Ps} {tr : List Call} (h : ∀ e ∈ tr, Harmless e) :
    PartSpec c m sizes₀ pre num l (.leave err l) tr :=
  ⟨guarded_of_harmless h, ⟨rfl, rfl, rfl⟩, by simp⟩

theorem finishMessage_spec (c : Ctl) (m : Method σ) (sizes₀ : Option (List Int))
    {pre : List Call} {num : Nat} {f : Flags} {l : Loop} (hf : Prepared pre num f) :
    (finishMessage t num f l).wp (fun next _ tr => PartSpec c m sizes₀ pre num l next tr) s := by
  unfold finishMessage
  simp only [Act.wp_bind, Act.wp_lift, Act.wp_emit, Act.wp_pure, List.nil_append, List.append_nil]
  refine ⟨?_, ?_, ?_⟩
  · cases hfwd : f.suppressForward with
    | true => simp [Allowed]
    | false => simpa [Allowed] using hf.read hfwd
  · simp only [Next.loop, Loop.SameWindow]
    split <;> split <;> split <;> simp
  · rintro f' l' ⟨⟩
    simp only [Certified, hf.unknown]
    refine ⟨⟨rfl, fun h => (hf.read h).mono (by simp_all), ?_⟩, ?_⟩
    · intro hfwd hdel
      simp only [Bool.or_eq_false_iff] at hdel
      obtain ⟨sb, hmem⟩ := hf.refused hfwd hdel.1
      exact ⟨sb, by simp [hmem]⟩
    · intro hdel
      simp only [Bool.or_eq_false_iff, Bool.not_eq_false'] at hdel
      simp [hdel.2]

/-- The flags that `readheaders` leaves, before the body: only a clean return leaves the
message to be forwarded, and then the body is still to come. -/
theorem headerFlags_eq_some {err : Ps} {f : Flags} (h : headerFlags err = some f) :
    f.msgcode = .unknown ∧ (f.suppressForward = false → err = .success) ∧
      (f.suppressForward = true → f.suppressDelete = false → err = .refused) := by
  unfold headerFlags at h
  split at h <;> simp_all <;> (subst h; simp)

/-- The flags after the body are prepared for the end of the message. -/
theorem prepared_afterBody {pre : List Call} {num : Nat} {err err' : Ps} {f : Flags} {sb : Bool}
    (hf : headerFlags err = some f) (hfetch : .fetchHeaders num .success ∈ pre)
    (hread : .readheaders num err sb ∈ pre) (herr : err' = .success ∨ err' = .transient)
    (hbody : f.suppressForward = false → err' = .success → sb = false →
      .readbody num true .success ∈ pre) :
    Prepared pre num (f.afterBody err') := by
  obtain ⟨hcode, hok, hrefused⟩ := headerFlags_eq_some hf
  rcases herr with rfl | rfl
  · refine ⟨hcode, fun hfwd => ?_, fun hfwd hdel => ⟨sb, hrefused hfwd hdel ▸ hread⟩⟩
    exact ⟨hfetch, sb, hok hfwd ▸ hread, hbody hfwd rfl⟩
  · exact ⟨hcode, by simp [Flags.afterBody], by simp [Flags.afterBody]⟩

theorem retrieveBody_spec (c : Ctl) (sizes₀ : Option (List Int)) {pre : List Call} {num : Nat}
    {f : Flags} {err : Ps} {sb : Bool} {len msgsize msglen : Int} {l : Loop}
    (hf : headerFlags err = some f) (hfetch : .fetchHeaders num .success ∈ pre)
    (hread : .readheaders num err sb ∈ pre) :
    (retrieveBody m t num f sb len msgsize msglen l).wp
      (fun next _ tr => PartSpec c m sizes₀ pre num l next tr) s := by
  unfold retrieveBody
  simp only [Act.wp_bind]
  refine Act.wp_mono (headerTrailer_spec num) fun trailErr s₁ tr₁ h₁ => ?_
  simp only [Act.wp_ite, Act.wp_pure, List.append_nil]
  refine ⟨fun _ => partSpec_leave h₁, fun _ => ⟨fun hskip => ?_, fun hskip => ?_⟩⟩
  · -- no body is read: either none is wanted, or the headers came with it
    have hprep : Prepared (pre ++ tr₁) num (f.afterBody .success) :=
      prepared_afterBody hf (List.mem_append_left _ hfetch) (List.mem_append_left _ hread) (.inl rfl)
        (by
          intro hfwd _ hsb
          simp [hfwd, hsb] at hskip)
    refine Act.wp_mono (finishMessage_spec c m sizes₀ hprep) fun next s₂ tr₂ h₂ => ?_
    exact h₂.prepend h₁ ⟨rfl, rfl, rfl⟩
  · simp only [Act.wp_bind]
    refine Act.wp_mono (processBody_spec num (!f.suppressForward) len msgsize msglen)
      fun r s₂ tr₂ h₂ => ?_
    -- trailer and body delete nothing
    have h₁₂ : ∀ e ∈ tr₁ ++ tr₂, Harmless e := by
      intro e he
      rcases List.mem_append.mp he with he | he
      · exact h₁ e he
      · exact h₂.1 e he
    cases r with
    | error err' =>
      have hleave : PartSpec c m sizes₀ pre num l (.leave err' l) (tr₁ ++ tr₂) :=
        partSpec_leave h₁₂
      simpa using hleave
    | ok err' =>
      obtain ⟨hbody, herr'⟩ := h₂.2 err' rfl
      have hprep : Prepared (pre ++ (tr₁ ++ tr₂)) num (f.afterBody err') :=
        prepared_afterBody hf (List.mem_append_left _ hfetch) (List.mem_append_left _ hread) herr'
          (by
            rintro hfwd rfl _
            simp only [hfwd, Bool.not_false] at hbody
            simp [hbody])
      refine Act.wp_mono (finishMessage_spec c m sizes₀ hprep) fun next s₃ tr₃ h₃ => ?_
      rw [← List.append_assoc]
      exact h₃.prepend h₁₂ (countTransient_sameWindow l err')

theorem retrieve_spec (c : Ctl) (m : Method σ) (t : Transact σ) (sizes₀ : Option (List Int))
    (pre : List Call) (num : Nat) (msgsize : Int) (l : Loop) :
    (retrieve m t num msgsize l).wp (fun next _ tr => PartSpec c m sizes₀ pre num l next tr) s := by
  unfold retrieve
  simp only [Act.wp_bind, Act.wp_lift, Act.wp_emit, Act.wp_ite, Act.wp_pure, List.nil_append,
    List.append_nil]
  refine ⟨fun _ => ?_, fun _ => ⟨fun _ => partSpec_leave (by simp [Harmless]), fun hok => ?_⟩⟩
  · refine ⟨guarded_of_harmless (by simp [Harmless]), ?_, by simp⟩
    exact countTransient_sameWindow _ _
  · simp only [ne_eq, not_not] at hok
    rw [hok]
    generalize t.readheaders _ msgsize num _ _ = r
    obtain ⟨h, s₁⟩ := r
    generalize (!m.fetchBody.isSome && h.suppressReadbody) = sb
    have hharmless : ∀ e ∈ [Call.fetchHeaders num .success, Call.readheaders num h.err sb],
        Harmless e := by simp [Harmless]
    cases hf : headerFlags h.err with
    | none => simpa using partSpec_leave hharmless
    | some f =>
      have hfetch : .fetchHeaders num .success ∈
          pre ++ [Call.fetchHeaders num .success, Call.readheaders num h.err sb] := by simp
      have hread : .readheaders num h.err sb ∈
          pre ++ [Call.fetchHeaders num .success, Call.readheaders num h.err sb] := by simp
      refine Act.wp_mono (retrieveBody_spec c sizes₀ hf hfetch hread) fun next s₂ tr₂ h₂ => ?_
      exact h₂.prepend hharmless (countTransient_sameWindow l h.err)

theorem checkOld_spec (num : Nat) :
    (checkOld c m num).wp
      (fun old _ tr => (∀ e ∈ tr, Harmless e) ∧ (old = true → .isOld num true ∈ tr)) s := by
  unfold checkOld
  split
  · simp
  · split
    · simp
    · simp only [Act.wp_bind, Act.wp_lift, Act.wp_emit, Act.wp_pure]
      simp [Harmless]

/-! ## The loop body -/

/-- What the loop body guarantees about message `num` up to `flagthemail`. -/
def JudgeSpec (c : Ctl) (m : Method σ) (sizes₀ : Option (List Int)) (pre : List Call)
    (num : Nat) (next : Next) (tr : List Call) : Prop :=
  Guarded (fun p => Allowed c m sizes₀ (pre ++ p)) tr ∧
    Window c m sizes₀ (pre ++ tr) (num + 1) next.loop ∧
    ∀ f' l', next = .flagthemail f' l' → Certified c m sizes₀ (pre ++ tr) num f'

theorem judge_spec {sizes₀ : Option (List Int)} {pre : List Call} {count num : Nat} {l : Loop}
    (hnum : num ≤ count) (hw : Window c m sizes₀ pre num l) :
    (judge c m t count num l).wp (fun next _ tr => JudgeSpec c m sizes₀ pre num next tr) s := by
  unfold judge
  simp only [Act.wp_bind]
  refine Act.wp_mono (checkOld_spec num) fun old s₁ tr₁ h₁ => ?_
  have hw₁ : Window c m sizes₀ (pre ++ tr₁) num l := hw.mono fun e => List.mem_append_left _
  simp only [Act.wp_ite, Act.wp_pure, List.append_nil]
  refine ⟨fun hold => ?_, fun _ => ?_⟩
  -- an old message
  · refine ⟨guarded_of_harmless h₁.1, hw₁.next ⟨rfl, rfl, rfl⟩, ?_⟩
    rintro f' l' ⟨⟩
    exact List.mem_append_right _ (h₁.2 hold)
  simp only [Act.wp_bind]
  refine Act.wp_mono (getSizes_spec hnum hw₁) fun r s₂ tr₂ h₂ => ?_
  have h₁₂ : ∀ e ∈ tr₁ ++ tr₂, Harmless e := by
    intro e he
    rcases List.mem_append.mp he with he | he
    · exact h₁.1 e he
    · exact h₂.1 e he
  cases r with
  | error err =>
    simp only [Act.wp_pure, List.append_nil]
    refine ⟨guarded_of_harmless h₁₂, ?_, by simp⟩
    exact (hw.mono fun e => List.mem_append_left _).next ⟨rfl, rfl, rfl⟩
  | ok l' =>
    obtain ⟨hw₂, hsize⟩ := h₂.2 l' rfl
    rw [List.append_assoc] at hw₂ hsize
    simp only [Act.wp_ite, Act.wp_pure, List.append_nil]
    refine ⟨fun hover => ?_, fun _ => ?_⟩
    -- an oversized message
    · refine ⟨guarded_of_harmless h₁₂, hw₂.next ⟨rfl, rfl, rfl⟩, ?_⟩
      rintro f' l'' ⟨⟩
      simp only [Ctl.oversized, Bool.and_eq_true, numNonzero_iff, decide_eq_true_eq] at hover
      exact ⟨_, hsize, hover⟩
    -- any other message is fetched
    · refine Act.wp_mono (retrieve_spec c m t sizes₀ (pre ++ (tr₁ ++ tr₂)) num _ l')
        fun next s₃ tr₃ h₃ => ?_
      obtain ⟨hg, hsame, hcert⟩ := h₃.prepend h₁₂ ⟨rfl, rfl, rfl⟩
      rw [← List.append_assoc]
      refine ⟨hg, (hw₂.mono fun e he => ?_).next hsame, hcert⟩
      simp only [List.mem_append] at he ⊢
      tauto

/-! ## Disposal -/

/-- Flags under which a fetched message is disposed of settle it. -/
theorem Certified.settled_of_wantsSeen {sizes₀ : Option (List Int)} {pre : List Call} {num : Nat}
    {f : Flags} (h : Certified c m sizes₀ pre num f)
    (hwants : c.wantsSeen (c.softbounceFlags f) = true) : Settled c pre num := by
  simp only [Ctl.wantsSeen, Bool.and_eq_true, Bool.not_eq_true', decide_eq_true_eq] at hwants
  obtain ⟨⟨hdel, hcode⟩, _⟩ := hwants
  rw [softbounceFlags_msgcode] at hcode
  exact h.settled hcode hdel

/-- Flags under which a message is deleted come with one of the three reasons. -/
theorem Certified.allowed_of_wantsDelete {sizes₀ : Option (List Int)} {pre : List Call}
    {num : Nat} {f : Flags} {err : Ps} (h : Certified c m sizes₀ pre num f)
    (hwants : c.wantsDelete (c.softbounceFlags f) = true) :
    Allowed c m sizes₀ pre (.deleteMsg num err) := by
  simp only [Ctl.wantsDelete, Bool.and_eq_true, Bool.not_eq_true'] at hwants
  obtain ⟨hdel, hcode⟩ := hwants
  rw [softbounceFlags_msgcode] at hcode
  cases hf : f.msgcode with
  | unknown => exact .inr (.inr (h.settled hf hdel))
  | toolarge =>
    simp only [Certified, hf] at h hcode
    exact .inr (.inl ⟨h, hcode⟩)
  | old =>
    simp only [Certified, hf] at h hcode
    exact .inl ⟨h, hcode⟩

theorem maybeMarkSeen_spec (s : σ) {sizes₀ : Option (List Int)} {pre : List Call} {num : Nat} {f : Flags}
    (hf : Certified c m sizes₀ pre num f) :
    (maybeMarkSeen c m num (c.softbounceFlags f)).wp
      (fun _ _ tr => Guarded (fun p => Allowed c m sizes₀ (pre ++ p)) tr) s := by
  unfold maybeMarkSeen
  split
  · simp
  · simp only [Act.wp_ite, Act.wp_bind, Act.wp_lift, Act.wp_emit, Act.wp_pure]
    refine ⟨fun hwants => ?_, fun _ => by simp⟩
    simpa [Allowed] using hf.settled_of_wantsSeen hwants

theorem dispose_spec {sizes₀ : Option (List Int)} {pre : List Call} {num : Nat} {f : Flags}
    {l : Loop} (hf : Certified c m sizes₀ pre num f) :
    (dispose c m num (c.softbounceFlags f) l).wp
      (fun r _ tr => Guarded (fun p => Allowed c m sizes₀ (pre ++ p)) tr ∧ l.SameWindow r.2) s := by
  have hseen := maybeMarkSeen_spec s hf
  have hsame : l.SameWindow l := ⟨rfl, rfl, rfl⟩
  unfold dispose
  split
  · simp [hsame]
  split
  · simpa [hsame] using hseen
  · simp only [Act.wp_ite, Act.wp_bind, Act.wp_lift, Act.wp_emit, Act.wp_pure]
    refine ⟨fun hwants => ?_, fun _ => by simpa [hsame] using hseen⟩
    simpa [Loop.SameWindow] using hf.allowed_of_wantsDelete hwants

theorem flagthemail_spec {sizes₀ : Option (List Int)} {maxfetch : Int} {pre : List Call}
    {count num : Nat} {f : Flags} {l : Loop} (hf : Certified c m sizes₀ pre num f) :
    (flagthemail c m maxfetch count num f l).wp
      (fun next _ tr => Guarded (fun p => Allowed c m sizes₀ (pre ++ p)) tr ∧
        l.SameWindow next.loop) s := by
  unfold flagthemail
  simp only [Act.wp_bind]
  refine Act.wp_mono (dispose_spec hf) fun r s₁ tr₁ h₁ => ?_
  obtain ⟨err, l'⟩ := r
  simp only [Act.wp_ite, Act.wp_pure, List.append_nil]
  exact ⟨fun _ => h₁, fun _ => ⟨fun _ => h₁, fun _ => h₁⟩⟩

/-! ## The run -/

/-- **Step.** One iteration keeps to the guard and leaves the sizes on record for the next. -/
theorem fetchMessage_spec {sizes₀ : Option (List Int)} {maxfetch : Int} {pre : List Call}
    {count num : Nat} {l : Loop} (hnum : num ≤ count) (hw : Window c m sizes₀ pre num l) :
    (fetchMessage c m t maxfetch count num l).wp
      (fun next _ tr => Guarded (fun p => Allowed c m sizes₀ (pre ++ p)) tr ∧
        Window c m sizes₀ (pre ++ tr) (num + 1) next.loop) s := by
  unfold fetchMessage
  simp only [Act.wp_bind]
  refine Act.wp_mono (judge_spec hnum hw) fun next s₁ tr₁ h₁ => ?_
  obtain ⟨hg₁, hw₁, hc₁⟩ := h₁
  cases next with
  | nextMessage l' => simpa using ⟨hg₁, hw₁⟩
  | leave err l' => simpa using ⟨hg₁, hw₁⟩
  | flagthemail f l' =>
    refine Act.wp_mono (flagthemail_spec (hc₁ f l' rfl)) fun next s₂ tr₂ h₂ => ?_
    obtain ⟨hg₂, hsame⟩ := h₂
    refine ⟨?_, ?_⟩
    · rw [guarded_append]
      exact ⟨hg₁, by simpa only [List.append_assoc] using hg₂⟩
    · have hw₂ : Window c m sizes₀ (pre ++ (tr₁ ++ tr₂)) (num + 1) l' := hw₁.mono fun e he => by
        simp only [List.mem_append] at he ⊢
        tauto
      exact hw₂.sameWindow hsame

/-- **Run.** The rest of the loop keeps to the guard, by induction on the messages left. -/
theorem fetchFrom_spec {sizes₀ : Option (List Int)} {maxfetch : Int} {pre : List Call}
    {count left num : Nat} {l : Loop} (hnum : num + left = count + 1)
    (hw : Window c m sizes₀ pre num l) :
    (fetchFrom c m t maxfetch count left num l).wp
      (fun _ _ tr => Guarded (fun p => Allowed c m sizes₀ (pre ++ p)) tr) s := by
  induction left generalizing num l pre s with
  | zero => simp [fetchFrom]
  | succ left ih =>
    unfold fetchFrom
    simp only [Act.wp_bind]
    refine Act.wp_mono (fetchMessage_spec (by omega) hw) fun next s₁ tr₁ h₁ => ?_
    obtain ⟨hg₁, hw₁⟩ := h₁
    cases next with
    | nextMessage l' =>
      refine Act.wp_mono (ih (by omega) hw₁) fun _ s₂ tr₂ h₂ => ?_
      rw [guarded_append]
      exact ⟨hg₁, by simpa only [List.append_assoc] using h₂⟩
    | leave err l' => simpa using hg₁
    | flagthemail f l' => simpa using hg₁

/-- Whatever the protocol methods, the transaction layer and the sink answer, a pass
deletes a message, marks it seen or hands it over to the listener only for a reason. -/
theorem fetchMessages_guarded {σ : Type} (c : Ctl) (m : Method σ) (t : Transact σ)
    (maxfetch : Int) (count : Nat) (l : Loop) (s : σ) :
    Guarded (Allowed c m l.msgsizes) ((fetchMessages c m t maxfetch count l).run s).trace := by
  have hw : Window c m l.msgsizes [] 1
      { l with
        firstnum := 1, lastnum := 0
        msgsizes := if partialSizes c m then some (List.replicate c.sizeLimit 0) else l.msgsizes
        errcount := c.errcount } := by
    unfold Window
    split <;> simp_all
  exact fetchFrom_spec (by omega) hw

end

end Fetchmail.Driver
