import Fetchmail.Imap.Confidential
import Fetchmail.Imap.Response

/-!
# Mandatory TLS and IMAP

With mandatory TLS, `imap_getauth` sends no credentials in the clear, and it reports success
on an unprotected connection in exactly one case: the session counts as preauthenticated.
The test for that stands before the upgrade to TLS, so a server, or whoever speaks in its
place, gets a client that demands TLS to go on without it.
-/

namespace Fetchmail.Imap

open Fetchmail.Lib Fetchmail.Transact Fetchmail.Auth

/-! ## Preauthentication -/

/-- The answer to the command with a tag: the lines before the tagged one, and that one, all
in upper case. -/
def answerTo (tag : Bytes) : List Recv → Option (List Bytes × Bytes)
  | .line text _ :: rest =>
    let buf := text.map Bytes.toUpper
    if tag.isPrefixOf buf then some ([], buf)
    else (answerTo tag rest).map fun a => (buf :: a.1, a.2)
  | _ => none

/-- The line `* PREAUTH`. -/
def announcesPreauth (buf : Bytes) : Bool := (Bytes.lit "* PREAUTH").isPrefixOf buf

/-- A line that ends the reading of a response with an error. -/
def isBogus (checkOnly : Bool) (buf : Bytes) : Bool :=
  isUntagged buf && classify checkOnly .getauth buf = .bogusCount

section

variable {ω : Type} {checkOnly : Bool}

theorem isUntagged_of_preauth {buf : Bytes} (h : announcesPreauth buf = true) :
    isUntagged buf = true := by
  obtain ⟨rest, hrest⟩ := List.isPrefixOf_iff_prefix.mp h
  have hlit : Bytes.lit "* PREAUTH" = Bytes.lit "* " ++ Bytes.lit "PREAUTH" := by decide
  rw [hlit, List.append_assoc] at hrest
  exact List.isPrefixOf_iff_prefix.mpr ⟨_, hrest⟩

theorem classify_eq_preauth {buf : Bytes} :
    classify checkOnly .getauth buf = .preauth ↔ announcesPreauth buf = true := by
  constructor
  · intro h
    unfold classify at h
    split_ifs at h with hcapability hpreauth
    · exact hpreauth.2
    · split at h
      · split at h <;> cases h
      · cases h
    · split at h <;> cases h
  · intro h
    have hother : ¬ (Bytes.lit "* CAPABILITY").isPrefixOf buf = true := by
      intro hcapability
      have hprefix := List.prefix_of_prefix_length_le (List.isPrefixOf_iff_prefix.mp h)
        (List.isPrefixOf_iff_prefix.mp hcapability) (by decide)
      revert hprefix
      decide
    unfold classify
    rw [if_neg (by simp [hother]), if_pos ⟨rfl, h⟩]

/-- A line sets `preauth` exactly if it says `* PREAUTH`. -/
theorem preauth_afterLine (buf : Bytes) (v : Statics) :
    (v.afterLine checkOnly .getauth buf).preauth = (v.preauth || announcesPreauth buf) := by
  unfold Statics.afterLine
  by_cases hannounces : announcesPreauth buf = true
  · rw [if_pos (isUntagged_of_preauth hannounces), classify_eq_preauth.mpr hannounces]
    simp [hannounces]
  · have hother := mt (@classify_eq_preauth checkOnly buf).mp hannounces
    simp only [hannounces, Bool.or_false]
    split
    · split
      · rfl
      · exact absurd ‹_› hother
      · rfl
      · split <;> rfl
      · rfl
    · rfl

/-- A tagged line is no untagged one. -/
theorem isUntagged_of_tagged {tag buf : Bytes} (htag : tag.head? = some 65)
    (h : tag.isPrefixOf buf = true) : isUntagged buf = false := by
  obtain ⟨rest, hrest⟩ := List.isPrefixOf_iff_prefix.mp h
  subst hrest
  cases tag with
  | nil => cases htag
  | cons b tag =>
    obtain rfl : b = 65 := by simpa using htag
    rfl

/-- What is returned early during authorization: errors only. -/
theorem returnEarly_getauth {tag buf : Bytes} :
    returnEarly false .getauth tag buf false (lineVerdict checkOnly .getauth buf) =
      if isBogus checkOnly buf then some (.protocol, []) else none := by
  unfold lineVerdict isBogus
  cases isUntagged buf with
  | false => simp [returnEarly]
  | true =>
    cases hclass : classify checkOnly .getauth buf with
    | readOnly => exact absurd hclass (classify_ne_readOnly (by decide) buf)
    | _ => simp [returnEarly]

/-- What the response to a command says about preauthentication, when it ends in `OK` or
`BAD`. Induction over the lines to come. -/
theorem readResponse_preauth {tag : Bytes} (htag : tag.head? = some 65) {p : Ps}
    (hp : p = .success ∨ p = .error) (lines : List Recv) (v : Statics) :
    ((∃ buf, (readResponse checkOnly false .getauth tag v lines).1 = .ok (p, buf)) ∧
        (readResponse checkOnly false .getauth tag v lines).2.1.preauth = true) ↔
      ∃ pre last, answerTo tag lines = some (pre, last) ∧
        (∀ l ∈ pre, isBogus checkOnly l = false) ∧
        taggedResponse .getauth (afterTag last) = p ∧
        (v.preauth = true ∨ ∃ l ∈ pre, announcesPreauth l = true) := by
  induction lines generalizing v with
  | nil => rcases hp with rfl | rfl <;> simp [readResponse, answerTo]
  | cons r rest ih =>
    cases r with
    | silence => simp [readResponse, answerTo]
    | line text late =>
      simp only [readResponse, answerTo, returnEarly_getauth]
      generalize text.map Bytes.toUpper = buf
      by_cases htagged : tag.isPrefixOf buf = true
      · -- the tagged line ends the response
        have huntagged := isUntagged_of_tagged htag htagged
        have hne : tag ≠ [] := by
          rintro rfl
          cases htag
        simp [isBogus, huntagged, htagged, returnFinal, hne, Statics.afterLine]
      · by_cases hbogus : isBogus checkOnly buf = true
        · simp only [hbogus, if_true, htagged]
          -- a bogus line ends the response, with another result
          constructor
          · rintro ⟨⟨buf', hval⟩, -⟩
            rcases hp with rfl | rfl <;> simp at hval
          · rintro ⟨pre, last, hanswer, hquiet, -⟩
            obtain ⟨pre', -, rfl⟩ : ∃ pre', answerTo tag rest = some (pre', last) ∧
                buf :: pre' = pre := by
              simpa using hanswer
            have hclean := hquiet buf (by simp)
            rw [hbogus] at hclean
            cases hclean
        · rw [if_neg hbogus]
          simp only [htagged]
          rw [if_neg Bool.false_ne_true, ih (v.afterLine checkOnly .getauth buf)]
          simp only [preauth_afterLine, Bool.or_eq_true]
          -- the line is passed over, and what it announces is kept
          constructor
          · rintro ⟨pre, last, hanswer, hquiet, hverdict, hpre⟩
            refine ⟨buf :: pre, last, by simp [hanswer], ?_, hverdict, ?_⟩
            · intro l hl
              rcases List.mem_cons.mp hl with rfl | hl
              · simpa using hbogus
              · exact hquiet l hl
            · rcases hpre with (hv | hbuf) | ⟨l, hl, hl'⟩
              · exact Or.inl hv
              · exact Or.inr ⟨buf, by simp, hbuf⟩
              · exact Or.inr ⟨l, by simp [hl], hl'⟩
          · rintro ⟨pre, last, hanswer, hquiet, hverdict, hpre⟩
            obtain ⟨pre', hanswer', rfl⟩ : ∃ pre', answerTo tag rest = some (pre', last) ∧
                buf :: pre' = pre := by
              simpa using hanswer
            refine ⟨pre', last, hanswer', fun l hl => hquiet l (by simp [hl]), hverdict, ?_⟩
            rcases hpre with hv | ⟨l, hl, hl'⟩
            · exact Or.inl (Or.inl hv)
            · rcases List.mem_cons.mp hl with rfl | hl
              · exact Or.inl (Or.inr hl')
              · exact Or.inr ⟨l, hl, hl'⟩

/-! ## The theorem -/

/-- The connection on which `imap_getauth` is entered: tags are in use, and the stage is the
one that `do_session` has set. -/
structure AtGetauth (d : Dialogue Statics ω Command) : Prop where
  stage : d.stage = .getauth
  tags : d.tags = true

/-- **The session passes for preauthenticated**: the answer to the first `CAPABILITY` is
complete and ends in `OK` or `BAD`, and `preauth` was set before it or is set by one of its
lines. -/
def PassesForPreauth (checkOnly : Bool) (d : Dialogue Statics ω Command) : Prop :=
  ∃ pre last, answerTo (tagText ((d.tagnum + 1) % tagmod)) (sending .capability d).lines =
      some (pre, last) ∧
    (∀ l ∈ pre, isBogus checkOnly l = false) ∧
    (taggedResponse .getauth (afterTag last) = .success ∨
      taggedResponse .getauth (afterTag last) = .error) ∧
    (d.statics.preauth = true ∨ ∃ l ∈ pre, announcesPreauth l = true)

/-- The probe goes on after `OK` and `BAD`. -/
theorem probedVersion_isSome (capabilities : Bytes) {p : Ps} :
    (probedVersion capabilities p).isSome = true ↔ p = .success ∨ p = .error := by
  cases p <;> simp [probedVersion]

/-- What the probe finds is what the answer of the server says. -/
theorem capaProbe_preauth {ctl : AuthCtl} {d : Dialogue Statics ω Command} (hd : AtGetauth d) :
    (((capaProbe ctl : Session ω Ps).exec d).val = .ok .success ∧
        ((capaProbe ctl : Session ω Ps).exec d).state.statics.preauth = true) ↔
      PassesForPreauth ctl.checkOnly d := by
  have htag : (tagText ((d.tagnum + 1) % tagmod)).head? = some 65 := by
    simp [tagText, Bytes.lit]
  have hread := fun p hp => @readResponse_preauth ctl.checkOnly _ htag p hp
    (sending .capability d).lines { d.statics with capabilities := [] }
  -- the probe, once its response has been read
  have hexec : ∀ r, readResponse ctl.checkOnly false .getauth (tagText ((d.tagnum + 1) % tagmod))
      { d.statics with capabilities := [] } (sending .capability d).lines = r →
      ((((capaProbe ctl : Session ω Ps).exec d).val = .ok .success ∧
        ((capaProbe ctl : Session ω Ps).exec d).state.statics.preauth = true) ↔
      ∃ p buf, (p = .success ∨ p = .error) ∧ r.1 = .ok (p, buf) ∧ r.2.1.preauth = true) := by
    rintro ⟨received, v, rest⟩ hr
    unfold capaProbe
    rw [Talk.exec_bind, exec_assign]
    obtain ⟨d₀, hd₀⟩ : ∃ d₀ : Dialogue Statics ω Command,
        d₀ = { d with statics := { d.statics with capabilities := [] } } := ⟨_, rfl⟩
    have hstage : d₀.stage = .getauth := by rw [hd₀]; exact hd.stage
    have htags : d₀.tags = true := by rw [hd₀]; exact hd.tags
    have hr' : readResponse ctl.checkOnly false .getauth (sending .capability d₀).tag d₀.statics
        (sending .capability d₀).lines = (received, v, rest) := by rw [hd₀]; exact hr
    rw [← hd₀]
    dsimp only
    rw [Talk.exec_bind, exec_transact (by rw [hstage]; decide) htags, hstage, hr']
    cases received with
    | error t => simp [Except.map]
    | ok answer =>
      obtain ⟨p, buf⟩ := answer
      simp only [Except.map, Talk.exec_bind, exec_statics, Except.ok.injEq, Prod.mk.injEq]
      cases hversion : probedVersion v.capabilities p with
      | none =>
        have hp : ¬ (p = .success ∨ p = .error) := by
          rw [← probedVersion_isSome v.capabilities, hversion]
          simp
        simp only [Talk.exec_pure, Except.ok.injEq]
        constructor
        · rintro ⟨rfl, -⟩
          exact absurd (Or.inl rfl) hp
        · rintro ⟨p', buf', hp', ⟨rfl, -⟩, -⟩
          exact absurd hp' hp
      | some version =>
        have hp : p = .success ∨ p = .error := by
          rw [← probedVersion_isSome v.capabilities, hversion]
          rfl
        simp only [Talk.exec_bind, exec_assign, Talk.exec_pure, true_and]
        constructor
        · intro hpre
          exact ⟨p, buf, hp, ⟨rfl, rfl⟩, hpre⟩
        · rintro ⟨p', buf', -, -, hpre⟩
          exact hpre
  rw [hexec _ rfl]
  constructor
  · rintro ⟨p, buf, hp, hval, hpre⟩
    obtain ⟨pre, last, hanswer, hquiet, hverdict, hset⟩ := (hread p hp).mp ⟨⟨buf, hval⟩, hpre⟩
    exact ⟨pre, last, hanswer, hquiet, by rcases hp with rfl | rfl <;> simp [hverdict], hset⟩
  · rintro ⟨pre, last, hanswer, hquiet, hverdict, hset⟩
    have hp : taggedResponse .getauth (afterTag last) = .success ∨
        taggedResponse .getauth (afterTag last) = .error := hverdict
    obtain ⟨⟨buf, hval⟩, hpre⟩ := (hread _ hp).mpr ⟨pre, last, hanswer, hquiet, rfl, hset⟩
    exact ⟨_, buf, hp, hval, hpre⟩

/-- `imap_getauth` under mandatory TLS, for any state it can be entered in: it is safe unless
the session passes for preauthenticated. -/
theorem tlsSafe_imapGetauth {b : Build} {ctl : AuthCtl} (hmust : ctl.tls.mustStarttls = true)
    (hssh : ctl.authenticate ≠ .ssh) {handshake : Handshake} {d : Dialogue Statics ω Command}
    (htls : d.tls = false) (hd : AtGetauth d) :
    TlsSafe Command.credential (fun r => r.1 = .success)
        ((imapGetauth b ctl handshake : Session ω _).exec d) ↔
      ¬ PassesForPreauth ctl.checkOnly d := by
  have hprobe : Sends (fun c => c.credential = false) (capaProbe ctl : Session ω Ps) := by
    apply sends_capaProbe
    · rfl
    · rfl
  have hpublic : Sends (fun c => c.credential = false)
      (assign (fun v => { v with expungePeriod := ctl.expungePeriod }) : Session ω Unit) :=
    sends_assign _
  let d' : Dialogue Statics ω Command :=
    { d with statics := { d.statics with expungePeriod := ctl.expungePeriod } }
  have hd' : AtGetauth d' := ⟨hd.stage, hd.tags⟩
  have hiff := @capaProbe_preauth ω ctl d' hd'
  have hpass : PassesForPreauth ctl.checkOnly d' ↔ PassesForPreauth ctl.checkOnly d := Iff.rfl
  rw [hpass] at hiff
  rw [← hiff]
  constructor
  · rintro hsafe ⟨hval, hpre⟩
    -- success is reported, and the connection is as it was
    have hresult : ((imapGetauth b ctl handshake : Session ω _).exec d).val =
          .ok (.success, ctl) ∧
        ((imapGetauth b ctl handshake : Session ω _).exec d).state.tls =
          ((capaProbe ctl : Session ω Ps).exec d').state.tls := by
      unfold imapGetauth
      rw [Talk.exec_bind, exec_assign]
      simp only [Talk.exec_bind]
      rw [show ({ d with statics := _ } : Dialogue Statics ω Command) = d' from rfl, hval]
      simp [hpre]
    have htls' := hsafe.protect _ hresult.1 rfl
    rw [hresult.2, (hprobe d').1] at htls'
    simp [d', htls] at htls'
  · intro hnot
    unfold imapGetauth
    apply TlsSafe.bind_public hpublic
    intro _ _
    rw [exec_assign]
    apply TlsSafe.bind_public hprobe
    intro ok hok
    rw [Talk.exec_ite]
    split
    · rename_i hne
      apply Sends.tlsSafe (sends_pure _)
      intro a ha hsuccess
      have hval : (ok, ctl) = a := by simpa using ha
      subst hval
      exact absurd hsuccess hne
    · rename_i heq
      have hok' : ok = .success := by simpa using heq
      subst hok'
      have hpre : ((capaProbe ctl : Session ω Ps).exec d').state.statics.preauth = false := by
        simpa using fun hpre => hnot ⟨hok, hpre⟩
      apply TlsSafe.bind_public (sends_gets _)
      intro preauth hpreauth
      have hpreauth' : preauth = false := by
        exact (Except.ok.inj hpreauth).symm.trans hpre
      rw [Talk.exec_ite, if_neg (by simp [hpreauth', hssh])]
      exact tlsSafe_authorize hmust _ _

/-! ## The greeting -/

/-- Reading a response leaves the use of tags alone, in any stage. -/
theorem keeps_tags_imapOk : Keeps Dialogue.tags (imapOk checkOnly : Session ω Ps) := by
  have hassign : ∀ f, Keeps Dialogue.tags (assign f : Session ω Unit) :=
    fun f => keeps_modify (by intro d; rfl)
  have hstage : ∀ stage, Keeps Dialogue.tags (setStage stage : Session ω Unit) :=
    fun stage => keeps_modify (by intro d; rfl)
  have hend : Keeps Dialogue.tags (endIdle : Session ω Unit) := by
    have hdone : Keeps Dialogue.tags (sendDone : Session ω Unit) := by
      refine (keeps_gets _).bind fun hasIdle => ?_
      exact Keeps.ite (keeps_sockWrite (by intro d; rfl)) (keeps_pure _)
    refine (keeps_gets _).bind fun stage => ?_
    apply Keeps.ite _ (keeps_pure _)
    exact hdone.bind fun _ => hstage _
  have hline : ∀ buf, Keeps Dialogue.tags (untaggedPart checkOnly buf : Session ω Ps) := by
    intro buf
    apply Keeps.ite _ (keeps_pure _)
    refine (keeps_gets _).bind fun stage => ?_
    cases classify checkOnly stage buf with
    | capability rest => exact (hassign _).bind fun _ => keeps_pure _
    | preauth => exact (hassign _).bind fun _ => keeps_pure _
    | «exists» u => exact (hassign _).bind fun _ => hend.bind fun _ => keeps_pure _
    | expunge u =>
      apply Keeps.ite _ (keeps_pure _)
      exact (hassign _).bind fun _ => keeps_pure _
    | _ => exact keeps_pure _
  -- induction over the lines to come
  have hloop : ∀ (again : Session ω (Ps × Bytes)), Keeps Dialogue.tags again →
      ∀ lines, Keeps Dialogue.tags (responseLoop checkOnly false again lines) := by
    intro again hagain lines
    induction lines with
    | nil => exact keeps_pure _
    | cons r rest ih =>
      refine (keeps_gets _).bind fun stage =>
        (keeps_accept (by intro d lines; rfl) r rest).bind fun received => ?_
      cases received with
      | error err => exact keeps_pure _
      | ok text =>
        refine (hline _).bind fun ok => (keeps_gets _).bind fun d => ?_
        cases returnEarly false d.stage d.tag (text.map Bytes.toUpper) r.late ok with
        | some result => exact keeps_pure _
        | none =>
          apply Keeps.ite (keeps_pure _)
          exact Keeps.ite hagain ih
  refine Keeps.bind ((keeps_gets _).bind fun lines => hloop _ ?_ lines) fun _ => keeps_pure _
  exact (keeps_gets _).bind fun lines => hloop _ (keeps_pure _) lines

/-- A connection that was just opened. Nothing is assumed of what earlier sessions left in
`stage` and in the static variables. -/
structure JustOpened (d : Dialogue Statics ω Command) : Prop where
  tls : d.tls = false
  tags : d.tags = true

/-- **Preauthentication is taken**: the greeting is accepted, and the session passes for
preauthenticated when `imap_getauth` is entered. -/
def TakesPreauth (checkOnly : Bool) (d : Dialogue Statics ω Command) : Prop :=
  ((imapOk checkOnly : Session ω Ps).exec d).val = .ok .success ∧
    PassesForPreauth checkOnly
      { ((imapOk checkOnly : Session ω Ps).exec d).state with stage := .getauth }

end

/-! ## A session with a forged greeting -/

/-- A build without optional mechanisms. -/
def plainBuild : Build where
  hmacMd5 := fun _ _ => []
  gssapi := none
  kerberosV4 := none
  opie := none
  ntlm := none

/-- An account with `sslcertck` set and nothing else that matters. -/
def certckCtl : AuthCtl where
  tls := ⟨false, none, false, true⟩
  authenticate := .any
  remotename := Bytes.lit "user"
  password := Bytes.lit "secret"
  pollname := Bytes.lit "mail"
  via := none
  expunge := 0
  idle := false
  checkOnly := false

/-- The first connection of a process, to a server that has these lines to say. -/
def firstConnection (lines : List Bytes) : Dialogue Statics Unit Command where
  stage := .getauth
  statics := Statics.init
  tagged := true
  suppressTags := false
  tagnum := 0
  tag := []
  lines := lines.map fun text => .line text false
  peer := ()
  answer := fun _ _ _ => ([], ())
  tls := false

/-- A greeting, capabilities, and a refusal of `STARTTLS`. -/
def honestLines : List Bytes :=
  [Bytes.lit "* OK ready", Bytes.lit "* CAPABILITY IMAP4rev1 STARTTLS", Bytes.lit "A0001 OK",
    Bytes.lit "A0002 NO"]

/-- A greeting by which the session counts as authenticated already. -/
def forgedLines : List Bytes :=
  [Bytes.lit "* PREAUTH ready", Bytes.lit "* CAPABILITY IMAP4rev1", Bytes.lit "A0001 OK"]

end Fetchmail.Imap
