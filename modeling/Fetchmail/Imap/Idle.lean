import Fetchmail.Imap.Isolation
import Fetchmail.Imap.Response

/-!
# Waiting for Mail

`imap_idle`, and `imap_getrange` with the loops that wait for mail by it, up to the search. A
server that is idling takes nothing but `DONE` until it has answered that. The client gets out
of `IDLE` in two places, in the middle of a response when new mail is reported and in
`imap_idle` when the idle period is over, and must not do so twice.
-/

namespace Fetchmail.Imap

open Fetchmail.Lib Fetchmail.Transact Fetchmail.Auth

section

variable {ω : Type}

/-! ## `imap_idle` -/

/-- The part of `imap_idle` for servers that know `IDLE`. That the idle period is over shows in
the lines received. -/
def realIdle (checkOnly : Bool) : Session ω Ps := do
  setStage .idle
  let ok ← transact checkOnly .idle
  if ok = .idletimeout then
    sockWrite .done
    -- not idling any more
    setStage .getrange
    imapOk checkOnly
  else return ok

/-- The part of `imap_idle` for the other servers: `NOOP`, and a wait for whatever they say
unasked. -/
def fakeIdle (checkOnly : Bool) : Session ω Ps := do
  let ok ← transact checkOnly .noop
  let recentcount ← statics Statics.recentcount
  if ok = .success ∧ recentcount = 0 then
    setStage .idle
    -- no tag needed
    Talk.modify fun d => { d with tag := [] }
    let ok ← imapOk checkOnly
    return if ok = .idletimeout then .success else ok
  else return ok

/-- `imap_idle` -/
def imapIdle (checkOnly : Bool) : Session ω Ps := do
  let hasIdle ← statics Statics.hasIdle
  let ok ← if hasIdle then realIdle checkOnly else fakeIdle checkOnly
  setStage .getrange
  return ok

/-- The loops of `imap_getrange`, which call `imap_idle` while there is no mail. -/
def waitWhile (checkOnly : Bool) (noMail : Statics → Bool) : (fuel : Nat) → Session ω Ps
  | 0 => Talk.throw .spin
  | fuel + 1 => do
    let waits ← statics noMail
    if waits then
      let ok ← imapIdle checkOnly
      if ok ≠ .success then return ok else waitWhile checkOnly noMail fuel
    else return .success

/-- `imap_getrange` in its first pass, up to the search. -/
def firstRange (checkOnly : Bool) (range : RangeCtl) (fuel : Nat) : Session ω Ps := do
  let selected ← selectMailbox checkOnly range
  let doIdle ← statics Statics.doIdle
  if selected.1 ≠ .success then return selected.1
  else if selected.2 = 0 ∧ doIdle then waitWhile checkOnly (fun v => decide (v.count = 0)) fuel
  else return .success

/-- `imap_getrange` in a later pass, up to the search. -/
def laterRange (checkOnly : Bool) (fuel : Nat) : Session ω Ps := do
  let ok ← waitWhile checkOnly (fun v => decide (v.recentcount = 0 ∧ v.doIdle)) fuel
  if ok ≠ .success then return ok
  else
    assign fun v => if v.recentcount = 0 then { v with count := 0 } else v
    return .success

/-- `imap_getrange` finds out how many messages are waiting. -/
def rangeOfPass (pass : Nat) (checkOnly : Bool) (range : RangeCtl) (fuel : Nat) : Session ω Ps :=
  if 1 < pass then laterRange checkOnly fuel else firstRange checkOnly range fuel

/-- `imap_getrange` up to the search: the return code and `*countp`. -/
def imapGetrange (pass : Nat) (checkOnly : Bool) (range : RangeCtl) (fuel : Nat) :
    Session ω (Ps × Nat) := do
  let ok ← rangeOfPass pass checkOnly range fuel
  if ok ≠ .success then return (ok, 0)
  else
    assign fun v => { v with oldcount := v.count, recentcount := 0, startcount := 1 }
    return (.success, ← statics Statics.count)

/-! ## What a client reads -/

/-- What a server has answered to the lines sent. -/
def heard (answer : Bytes → Command → ω → List Recv × ω) :
    List (Event Command) → ω → List Recv × ω
  | [], peer => ([], peer)
  | .sent _ tag c :: sent, peer =>
    let rest := heard answer sent (answer tag c peer).2
    ((answer tag c peer).1 ++ rest.1, rest.2)

theorem heard_append (answer : Bytes → Command → ω → List Recv × ω) (s t : List (Event Command))
    (peer : ω) : heard answer (s ++ t) peer =
      ((heard answer s peer).1 ++ (heard answer t (heard answer s peer).2).1,
        (heard answer t (heard answer s peer).2).2) := by
  induction s generalizing peer with
  | nil => rfl
  | cons e s ih =>
    obtain ⟨tls, tag, c⟩ := e
    simp [heard, ih]

/-- Between two states of the connection, these lines were read and those sent. -/
structure Course (d : Dialogue Statics ω Command) (read : List Recv)
    (sent : List (Event Command)) (d' : Dialogue Statics ω Command) : Prop where
  lines : read ++ d'.lines = d.lines ++ (heard d.answer sent d.peer).1
  peer : d'.peer = (heard d.answer sent d.peer).2
  answer : d'.answer = d.answer
  tags : d'.tags = d.tags
  tls : d'.tls = d.tls
  hasIdle : d'.statics.hasIdle = d.statics.hasIdle

theorem Course.trans {d₁ d₂ d₃ : Dialogue Statics ω Command} {read₁ read₂ : List Recv}
    {sent₁ sent₂ : List (Event Command)} (h₁ : Course d₁ read₁ sent₁ d₂)
    (h₂ : Course d₂ read₂ sent₂ d₃) : Course d₁ (read₁ ++ read₂) (sent₁ ++ sent₂) d₃ where
  lines := by
    have hlines := h₂.lines
    rw [h₁.answer, h₁.peer] at hlines
    rw [List.append_assoc, hlines, ← List.append_assoc, h₁.lines, heard_append, List.append_assoc]
  peer := by rw [h₂.peer, h₁.answer, h₁.peer, heard_append]
  answer := h₂.answer.trans h₁.answer
  tags := h₂.tags.trans h₁.tags
  tls := h₂.tls.trans h₁.tls
  hasIdle := h₂.hasIdle.trans h₁.hasIdle

theorem Course.refl (d : Dialogue Statics ω Command) : Course d [] [] d :=
  ⟨by simp [heard], rfl, rfl, rfl, rfl, rfl⟩

/-- A line was read, and variables were assigned to. -/
theorem Course.line {d : Dialogue Statics ω Command} {r : Recv} {rest : List Recv}
    (hlines : d.lines = r :: rest) {v : Statics} (hv : v.hasIdle = d.statics.hasIdle) :
    Course d [r] [] { d with statics := v, lines := rest } :=
  ⟨by simp [heard, hlines], rfl, rfl, rfl, rfl, hv⟩

/-- A line that reports success of the command with this tag. -/
def Completes (tag : Bytes) : Recv → Prop
  | .line text _ => tag <+: text.map Bytes.toUpper ∧
      Bytes.startsWithCI (afterTag (text.map Bytes.toUpper)) (Bytes.lit "OK") = true
  | .silence => False

/-- The last line read reports success. -/
def Answered (tag : Bytes) (read : List Recv) : Prop := ∃ before r,
  read = before ++ [r] ∧ Completes tag r

theorem Answered.append {tag : Bytes} {read : List Recv} (h : Answered tag read)
    (first : List Recv) : Answered tag (first ++ read) := by
  obtain ⟨before, r, rfl, hcompletes⟩ := h
  exact ⟨first ++ before, r, (List.append_assoc _ _ _).symm, hcompletes⟩

variable (checkOnly : Bool)

theorem hasIdle_afterLine (stage : Stage) (buf : Bytes) (v : Statics) :
    (v.afterLine checkOnly stage buf).hasIdle = v.hasIdle := by
  unfold Statics.afterLine
  split
  · split
    · rfl
    · rfl
    · rfl
    · split <;> rfl
    · rfl
  · rfl

theorem lineVerdict_ne_idletimeout (stage : Stage) (buf : Bytes) :
    lineVerdict checkOnly stage buf ≠ .idletimeout := by
  unfold lineVerdict
  split
  · split <;> simp
  · simp

theorem returnEarly_ne_success (stage : Stage) (tag buf : Bytes) (late : Bool) (ok : Ps)
    (rest : Bytes) : returnEarly false stage tag buf late ok ≠ some (.success, rest) := by
  unfold returnEarly
  split
  · simp
  · split
    · rename_i h
      intro heq
      simp only [Option.some.injEq, Prod.mk.injEq] at heq
      exact h.2 heq.1
    · split <;> simp

/-- A tagged line that reports success, unless all is taken for success. -/
theorem completes_of_returnFinal {stage : Stage} {tag text rest : Bytes} {late : Bool}
    (hstage : stage ≠ .getsizes) (htag : tag ≠ [])
    (hfinal : tag.isPrefixOf (text.map Bytes.toUpper) = true)
    (h : returnFinal stage tag (text.map Bytes.toUpper) = (.success, rest)) :
    Completes tag (.line text late) := by
  refine ⟨List.isPrefixOf_iff_prefix.1 hfinal, ?_⟩
  unfold returnFinal at h
  rw [if_neg htag] at h
  have hok := congrArg Prod.fst h
  simp only [taggedResponse] at hok
  split at hok
  · assumption
  · split at hok
    · exact absurd hok (by simp)
    · split at hok
      · cases stage <;> simp_all
      · exact absurd hok (by simp)

theorem returnFinal_ne_idletimeout (stage : Stage) (tag buf rest : Bytes) :
    returnFinal stage tag buf ≠ (.idletimeout, rest) := by
  unfold returnFinal
  split
  · simp
  · intro h
    have hok := congrArg Prod.fst h
    simp only [taggedResponse] at hok
    split at hok
    · exact absurd hok (by simp)
    · split at hok
      · exact absurd hok (by simp)
      · split at hok
        · cases stage <;> simp at hok
        · exact absurd hok (by simp)

/-- What `imap_response` makes of the lines to come outside of `IDLE`: induction over them. -/
theorem readResponse_spec {stage : Stage} {tag : Bytes} (hstage : stage ≠ .getsizes)
    (hidle : stage ≠ .idle) (htag : tag ≠ []) (v : Statics) (lines : List Recv) :
    (readResponse checkOnly false stage tag v lines).2.1.hasIdle = v.hasIdle ∧
      (∀ buf, (readResponse checkOnly false stage tag v lines).1 ≠ .ok (.idletimeout, buf)) ∧
      ∃ read, read ++ (readResponse checkOnly false stage tag v lines).2.2 = lines ∧
        ∀ buf, (readResponse checkOnly false stage tag v lines).1 = .ok (.success, buf) →
          Answered tag read := by
  induction lines generalizing v with
  | nil => exact ⟨rfl, by simp [readResponse], [], rfl, by simp [readResponse]⟩
  | cons r rest ih =>
    cases r with
    | silence => exact ⟨rfl, by simp [readResponse], [.silence], rfl, by simp [readResponse]⟩
    | line text late =>
      simp only [readResponse]
      have hkept := hasIdle_afterLine checkOnly stage (text.map Bytes.toUpper) v
      cases hearly : returnEarly false stage tag (text.map Bytes.toUpper) false
        (lineVerdict checkOnly stage (text.map Bytes.toUpper)) with
      | some result =>
        refine ⟨hkept, ?_, [.line text late], rfl, ?_⟩
        · intro buf hresult
          cases hresult
          -- before the end the verdict on a line is returned, or the idle period is over
          have hverdict := lineVerdict_ne_idletimeout checkOnly stage
            (text.map Bytes.toUpper)
          simp only [returnEarly, hidle, false_and, and_false, if_false, Bool.false_eq_true]
            at hearly
          split at hearly
          · simp only [Option.some.injEq, Prod.mk.injEq] at hearly
            exact hverdict hearly.1
          · exact absurd hearly (by simp)
        · intro buf hresult
          cases hresult
          exact absurd hearly (returnEarly_ne_success _ _ _ _ _ _)
      | none =>
        dsimp only
        by_cases hfinal : tag.isPrefixOf (text.map Bytes.toUpper) = true
        · rw [if_pos hfinal]
          refine ⟨hkept, ?_, [.line text late], rfl, ?_⟩
          · intro buf hresult
            simp only [Except.ok.injEq] at hresult
            exact returnFinal_ne_idletimeout _ _ _ _ hresult
          · intro buf hresult
            simp only [Except.ok.injEq] at hresult
            exact ⟨[], _, rfl, completes_of_returnFinal hstage htag hfinal hresult⟩
        · rw [if_neg hfinal]
          obtain ⟨hsame, hno, read, hread, hsuccess⟩ :=
            ih (v.afterLine checkOnly stage (text.map Bytes.toUpper))
          refine ⟨hsame.trans hkept, hno, .line text late :: read, ?_, ?_⟩
          · rw [List.cons_append, hread]
          · intro buf hresult
            exact (hsuccess buf hresult).append [_]

variable {d : Dialogue Statics ω Command}

/-- A response read outside of `IDLE`. -/
theorem responseLoop_spec (again : Session ω (Ps × Bytes)) (hstage : d.stage = .getrange)
    (htag : d.tag ≠ []) :
    ((responseLoop checkOnly false again d.lines).exec d).trace = [] ∧
      ((responseLoop checkOnly false again d.lines).exec d).state.stage = .getrange ∧
      (∀ buf, ((responseLoop checkOnly false again d.lines).exec d).val ≠
        .ok (.idletimeout, buf)) ∧
      ∃ read, Course d read [] ((responseLoop checkOnly false again d.lines).exec d).state ∧
        ∀ buf, ((responseLoop checkOnly false again d.lines).exec d).val = .ok (.success, buf) →
          Answered d.tag read := by
  have hidle : d.stage ≠ .idle := by simp [hstage]
  rw [exec_responseLoop hidle d.lines rfl]
  obtain ⟨hsame, hno, read, hread, hsuccess⟩ := readResponse_spec checkOnly
    (by simp [hstage]) hidle htag d.statics d.lines
  refine ⟨rfl, hstage, hno, read, ?_, hsuccess⟩
  exact ⟨by simpa [heard] using hread, rfl, rfl, rfl, rfl, hsame⟩

/-- The line reports new mail to a client that is idling. -/
def reportsMail (checkOnly : Bool) (buf : Bytes) : Bool :=
  isUntagged buf &&
    match classify checkOnly .idle buf with
    | .exists _ => true
    | _ => false

/-- A report of new mail is answered by `DONE` at once, and nothing else is. -/
theorem exec_untaggedPart_idle (hstage : d.stage = .idle) (hhas : d.statics.hasIdle = true)
    (buf : Bytes) : (untaggedPart checkOnly buf : Session ω Ps).exec d =
      if reportsMail checkOnly buf then
        ⟨.ok .success, { ({ d with
            statics := d.statics.afterLine checkOnly .idle buf } : Dialogue _ _ _).deliver [] .done
          with stage := .getrange }, [.sent d.tls [] .done]⟩
      else
        ⟨.ok (lineVerdict checkOnly .idle buf),
          { d with statics := d.statics.afterLine checkOnly .idle buf }, []⟩ := by
  unfold untaggedPart lineVerdict Statics.afterLine reportsMail
  split
  · rename_i huntagged
    have hclass : classify checkOnly d.stage buf = classify checkOnly .idle buf := by rw [hstage]
    unfold imapUntaggedResponse
    simp only [Talk.exec_bind, Talk.exec_gets, huntagged, Bool.true_and, hclass]
    cases classify checkOnly .idle buf with
    | «exists» u => simp [endIdle, sendDone, sockWrite, hstage, hhas, Statics.exist]
    | expunge u => by_cases hu : 0 < u <;> simp [hu]
    | _ => simp
  · rename_i huntagged
    simp [huntagged]

/-- The client after a report of new mail, which it has answered by `DONE`. -/
def afterMail (d : Dialogue Statics ω Command) (v : Statics) (rest : List Recv) :
    Dialogue Statics ω Command :=
  { ({ d with statics := v, lines := rest } : Dialogue _ _ _).deliver [] .done with
    stage := .getrange }

/-- The client after another line. -/
def afterOther (checkOnly : Bool) (d : Dialogue Statics ω Command) (buf : Bytes)
    (rest : List Recv) : Dialogue Statics ω Command :=
  { d with statics := d.statics.afterLine checkOnly .idle buf, lines := rest }

section

variable {again : Session ω (Ps × Bytes)} {text : Bytes} {late : Bool} {rest : List Recv}

/-- A report of new mail: the client sends `DONE`, and is not idling any more. -/
theorem responseLoop_mail (hstage : d.stage = .idle) (hhas : d.statics.hasIdle = true)
    (hmail : reportsMail checkOnly (text.map Bytes.toUpper) = true) :
    (responseLoop checkOnly false again (.line text late :: rest)).exec d =
      if d.tag.isPrefixOf (text.map Bytes.toUpper) then
        ⟨.ok (returnFinal .getrange d.tag (text.map Bytes.toUpper)),
          afterMail d (d.statics.afterLine checkOnly .idle (text.map Bytes.toUpper)) rest,
          [.sent d.tls [] .done]⟩
      else
        let out := again.exec
          (afterMail d (d.statics.afterLine checkOnly .idle (text.map Bytes.toUpper)) rest)
        ⟨out.val, out.state, [.sent d.tls [] .done] ++ out.trace⟩ := by
  have haccept : (accept (.line text late) rest : Session ω _).exec d =
      ⟨.ok (.ok text), { d with lines := rest }, []⟩ := rfl
  have hgo : ∀ buf, returnEarly false .getrange d.tag buf late .success = none := by
    intro buf
    simp [returnEarly]
  have hne : d.stage ≠ .getrange := by simp [hstage]
  unfold responseLoop
  simp only [Talk.exec_bind, Talk.exec_gets, haccept, List.nil_append]
  rw [exec_untaggedPart_idle checkOnly (d := { d with lines := rest }) hstage hhas, if_pos hmail]
  simp only [id_eq, Dialogue.deliver, Recv.late, hgo, if_pos hne]
  split <;> rfl

/-- Another line, at which the response ends. -/
theorem responseLoop_ends (hstage : d.stage = .idle) (hhas : d.statics.hasIdle = true)
    (hmail : ¬ reportsMail checkOnly (text.map Bytes.toUpper) = true) {result : Ps × Bytes}
    (hearly : returnEarly false .idle d.tag (text.map Bytes.toUpper) late
      (lineVerdict checkOnly .idle (text.map Bytes.toUpper)) = some result) :
    (responseLoop checkOnly false again (.line text late :: rest)).exec d =
      ⟨.ok result, afterOther checkOnly d (text.map Bytes.toUpper) rest, []⟩ := by
  have haccept : (accept (.line text late) rest : Session ω _).exec d =
      ⟨.ok (.ok text), { d with lines := rest }, []⟩ := rfl
  have hearly' : returnEarly false d.stage d.tag (text.map Bytes.toUpper) late
      (lineVerdict checkOnly .idle (text.map Bytes.toUpper)) = some result := by
    rw [hstage]
    exact hearly
  unfold responseLoop
  simp only [Talk.exec_bind, Talk.exec_gets, haccept, List.nil_append]
  rw [exec_untaggedPart_idle checkOnly (d := { d with lines := rest }) hstage hhas, if_neg hmail]
  simp only [id_eq, Recv.late, hearly']
  rfl

/-- Another line, at which it does not, unless the line is tagged. -/
theorem responseLoop_goesOn (hstage : d.stage = .idle) (hhas : d.statics.hasIdle = true)
    (hmail : ¬ reportsMail checkOnly (text.map Bytes.toUpper) = true)
    (hearly : returnEarly false .idle d.tag (text.map Bytes.toUpper) late
      (lineVerdict checkOnly .idle (text.map Bytes.toUpper)) = none) :
    (responseLoop checkOnly false again (.line text late :: rest)).exec d =
      if d.tag.isPrefixOf (text.map Bytes.toUpper) then
        ⟨.ok (returnFinal .idle d.tag (text.map Bytes.toUpper)),
          afterOther checkOnly d (text.map Bytes.toUpper) rest, []⟩
      else (responseLoop checkOnly false again rest).exec
        (afterOther checkOnly d (text.map Bytes.toUpper) rest) := by
  have haccept : (accept (.line text late) rest : Session ω _).exec d =
      ⟨.ok (.ok text), { d with lines := rest }, []⟩ := rfl
  have hearly' : returnEarly false d.stage d.tag (text.map Bytes.toUpper) late
      (lineVerdict checkOnly .idle (text.map Bytes.toUpper)) = none := by
    rw [hstage]
    exact hearly
  have hlast : returnFinal d.stage = returnFinal .idle := by rw [hstage]
  conv_lhs => unfold responseLoop
  simp only [Talk.exec_bind, Talk.exec_gets, haccept, List.nil_append]
  rw [exec_untaggedPart_idle checkOnly (d := { d with lines := rest }) hstage hhas, if_neg hmail]
  simp only [id_eq, Recv.late, hearly', hlast, ne_eq, not_true_eq_false, if_false]
  split <;> rfl

end

/-- What a client does that reads a response in `IDLE`, and what it knows then. -/
structure IdleReply (d : Dialogue Statics ω Command)
    (out : Outcome (Dialogue Statics ω Command) (Event Command) (Except Throw (Ps × Bytes))) :
    Prop where
  /-- `DONE` is sent at most once -/
  sent : out.trace = [] ∨ out.trace = [.sent d.tls [] .done]
  /-- and is yet to be sent when the idle period is over -/
  late : ∀ buf, out.val = .ok (.idletimeout, buf) → out.trace = [] ∧ out.state.tag = d.tag
  course : ∃ read, Course d read out.trace out.state ∧
    ∀ buf, out.val = .ok (.success, buf) → Answered d.tag read

/-- The response ends with a line that has not made the client send anything. -/
theorem IdleReply.stop {d' : Dialogue Statics ω Command} {r : Recv}
    {val : Except Throw (Ps × Bytes)} (hcourse : Course d [r] [] d') (htag : d'.tag = d.tag)
    (hsuccess : ∀ buf, val = .ok (.success, buf) → Completes d.tag r) :
    IdleReply d ⟨val, d', []⟩ where
  sent := .inl rfl
  late := fun _ _ => ⟨rfl, htag⟩
  course := ⟨[r], hcourse, fun buf h => ⟨[], r, rfl, hsuccess buf h⟩⟩

/-- The response goes on after such a line. -/
theorem IdleReply.goOn {d' : Dialogue Statics ω Command} {r : Recv}
    {out : Outcome (Dialogue Statics ω Command) (Event Command) (Except Throw (Ps × Bytes))}
    (hcourse : Course d [r] [] d') (htag : d'.tag = d.tag) (h : IdleReply d' out) :
    IdleReply d out where
  sent := by
    rw [← hcourse.tls]
    exact h.sent
  late := fun buf hval => ⟨(h.late buf hval).1, (h.late buf hval).2.trans htag⟩
  course := by
    obtain ⟨read, hlater, hsuccess⟩ := h.course
    refine ⟨_, hcourse.trans hlater, fun buf hval => ?_⟩
    rw [← htag]
    exact (hsuccess buf hval).append [r]

theorem course_afterMail {r : Recv} {rest : List Recv} (hlines : d.lines = r :: rest) {v : Statics}
    (hv : v.hasIdle = d.statics.hasIdle) :
    Course d [r] [.sent d.tls [] .done] (afterMail d v rest) :=
  ⟨by simp [heard, hlines, afterMail, Dialogue.deliver], rfl, rfl, rfl, rfl, hv⟩

/-- The response ends with the report of new mail. -/
theorem idleReply_mail_stop {text : Bytes} {late : Bool} {rest : List Recv} {v : Statics}
    (hlines : d.lines = .line text late :: rest) (hv : v.hasIdle = d.statics.hasIdle)
    (htag : d.tag ≠ []) (hfinal : d.tag.isPrefixOf (text.map Bytes.toUpper) = true) :
    IdleReply d ⟨.ok (returnFinal .getrange d.tag (text.map Bytes.toUpper)), afterMail d v rest,
      [.sent d.tls [] .done]⟩ where
  sent := .inr rfl
  late := by
    intro buf h
    simp only [Except.ok.injEq] at h
    exact absurd h (returnFinal_ne_idletimeout _ _ _ _)
  course := by
    refine ⟨_, course_afterMail hlines hv, fun buf h => ?_⟩
    simp only [Except.ok.injEq] at h
    exact ⟨[], _, rfl, completes_of_returnFinal (by simp) htag hfinal h⟩

/-- The response goes on after the report of new mail, and is read outside of `IDLE`. -/
theorem idleReply_mail_goOn (again : Session ω (Ps × Bytes)) {r : Recv} {rest : List Recv}
    {v : Statics} (hlines : d.lines = r :: rest) (hv : v.hasIdle = d.statics.hasIdle)
    (htag : d.tag ≠ []) {out : Outcome _ (Event Command) _}
    (hout : (responseLoop checkOnly false again (afterMail d v rest).lines).exec
      (afterMail d v rest) = out) :
    IdleReply d ⟨out.val, out.state, [.sent d.tls [] .done] ++ out.trace⟩ := by
  obtain ⟨htrace, -, hno, read, hcourse, hsuccess⟩ :=
    responseLoop_spec checkOnly again (d := afterMail d v rest) rfl htag
  rw [← hout, htrace]
  refine ⟨.inr rfl, fun buf h => absurd h (hno buf), _, (course_afterMail hlines hv).trans hcourse,
    fun buf h => ?_⟩
  exact (hsuccess buf h).append [r]

/-- A response read in `IDLE`: induction over the lines to come. -/
theorem responseLoop_idle (hstage : d.stage = .idle) (hhas : d.statics.hasIdle = true)
    (htag : d.tag ≠ []) (lines : List Recv) (hlines : d.lines = lines) :
    IdleReply d ((responseLoop checkOnly false (do
        responseLoop checkOnly false (return (.socket, [])) (← Talk.gets Dialogue.lines))
          lines).exec d) := by
  induction lines generalizing d with
  | nil =>
    refine ⟨.inl rfl, ?_, [], Course.refl d, ?_⟩
    · intro buf h
      cases h
    · intro buf h
      cases h
  | cons r rest ih =>
    cases r with
    -- the timeout of `IDLE` ends the response
    | silence =>
      have haccept : (accept .silence rest : Session ω _).exec d =
          ⟨.ok (.error .idletimeout), { d with lines := rest }, []⟩ := by
        simp [accept, hstage]
      unfold responseLoop
      simp only [Talk.exec_bind, Talk.exec_gets, haccept, Talk.exec_pure, List.append_nil]
      refine .stop (.line hlines rfl) rfl fun buf h => ?_
      cases h
    | line text late =>
      have hkept := hasIdle_afterLine checkOnly .idle (text.map Bytes.toUpper) d.statics
      -- a report of mail is answered with `DONE`, and the stage is over
      by_cases hmail : reportsMail checkOnly (text.map Bytes.toUpper) = true
      · rw [responseLoop_mail checkOnly hstage hhas hmail]
        split
        · rename_i hfinal
          exact idleReply_mail_stop hlines hkept htag hfinal
        · exact idleReply_mail_goOn checkOnly _ hlines hkept htag rfl
      · cases hearly : returnEarly false .idle d.tag (text.map Bytes.toUpper) late
          (lineVerdict checkOnly .idle (text.map Bytes.toUpper)) with
        | some result =>
          rw [responseLoop_ends checkOnly hstage hhas hmail hearly]
          refine .stop (.line hlines hkept) rfl fun buf h => ?_
          cases h
          exact absurd hearly (returnEarly_ne_success _ _ _ _ _ _)
        | none =>
          rw [responseLoop_goesOn checkOnly hstage hhas hmail hearly]
          split
          · rename_i hfinal
            refine .stop (.line hlines hkept) rfl fun buf h => ?_
            simp only [Except.ok.injEq] at h
            exact completes_of_returnFinal (by simp) htag hfinal h
          · exact .goOn (.line hlines hkept) rfl (ih hstage (hkept.trans hhas) htag rfl)

/-- `imap_ok` is the loop of `imap_response`. -/
theorem exec_imapOk_loop : ∃ again : Session ω (Ps × Bytes),
    again = (do
      responseLoop checkOnly false (return (.socket, [])) (← Talk.gets Dialogue.lines)) ∧
    (imapOk checkOnly : Session ω Ps).exec d =
      ⟨((responseLoop checkOnly false again d.lines).exec d).val.map Prod.fst,
        ((responseLoop checkOnly false again d.lines).exec d).state,
        ((responseLoop checkOnly false again d.lines).exec d).trace⟩ := by
  refine ⟨_, rfl, ?_⟩
  unfold imapOk imapResponse
  simp only [Talk.exec_bind, Talk.exec_gets, List.nil_append]
  cases ((responseLoop checkOnly false _ d.lines).exec d).val with
  | ok result => simp [Except.map]
  | error t => rfl

theorem exists_of_map_fst {α : Type} {x : Except Throw (Ps × α)} {ok : Ps}
    (h : x.map Prod.fst = .ok ok) : ∃ a, x = .ok (ok, a) := by
  cases x with
  | ok result =>
    simp only [Except.map, Except.ok.injEq] at h
    exact ⟨result.2, by rw [← h]⟩
  | error t => cases h

theorem imapOk_spec (hstage : d.stage = .getrange) (htag : d.tag ≠ []) :
    ((imapOk checkOnly : Session ω Ps).exec d).trace = [] ∧
      ((imapOk checkOnly : Session ω Ps).exec d).state.stage = .getrange ∧
      ∃ read, Course d read [] ((imapOk checkOnly : Session ω Ps).exec d).state ∧
        (((imapOk checkOnly : Session ω Ps).exec d).val = .ok .success → Answered d.tag read) := by
  obtain ⟨again, -, hexec⟩ := exec_imapOk_loop checkOnly (d := d)
  rw [hexec]
  obtain ⟨htrace, hstage', -, read, hcourse, hsuccess⟩ :=
    responseLoop_spec checkOnly again hstage htag
  refine ⟨htrace, hstage', read, hcourse, fun h => ?_⟩
  obtain ⟨buf, hbuf⟩ := exists_of_map_fst h
  exact hsuccess buf hbuf

theorem imapOk_idle (hstage : d.stage = .idle) (hhas : d.statics.hasIdle = true)
    (htag : d.tag ≠ []) : ∃ out, (imapOk checkOnly : Session ω Ps).exec d = out ∧
      (out.trace = [] ∨ out.trace = [.sent d.tls [] .done]) ∧
      (out.val = .ok .idletimeout → out.trace = [] ∧ out.state.tag = d.tag) ∧
      ∃ read, Course d read out.trace out.state ∧
        (out.val = .ok .success → Answered d.tag read) := by
  obtain ⟨again, rfl, hexec⟩ := exec_imapOk_loop checkOnly (d := d)
  have hreply := responseLoop_idle checkOnly hstage hhas htag d.lines rfl
  obtain ⟨read, hcourse, hsuccess⟩ := hreply.course
  rw [hexec]
  refine ⟨_, rfl, hreply.sent, fun h => ?_, read, hcourse, fun h => ?_⟩
  · obtain ⟨buf, hbuf⟩ := exists_of_map_fst h
    exact hreply.late buf hbuf
  · obtain ⟨buf, hbuf⟩ := exists_of_map_fst h
    exact hsuccess buf hbuf

/-! ## Reports of new mail -/

/-- A line after which a response that is read in `IDLE` goes on, with nothing sent. -/
def Uneventful (checkOnly : Bool) (tag : Bytes) : Recv → Prop
  | .line text late => ¬ reportsMail checkOnly (text.map Bytes.toUpper) = true ∧
      returnEarly false .idle tag (text.map Bytes.toUpper) late
        (lineVerdict checkOnly .idle (text.map Bytes.toUpper)) = none ∧
      ¬ tag.isPrefixOf (text.map Bytes.toUpper) = true
  | .silence => False

/-- The same within the loop: induction over the lines before the report. -/
theorem responseLoop_reports (again : Session ω (Ps × Bytes)) (before : List Recv) {text : Bytes}
    {late : Bool} {rest : List Recv} (hstage : d.stage = .idle) (hhas : d.statics.hasIdle = true)
    (hlines : d.lines = before ++ .line text late :: rest)
    (hbefore : ∀ r ∈ before, Uneventful checkOnly d.tag r)
    (hmail : reportsMail checkOnly (text.map Bytes.toUpper) = true)
    (huntagged : ¬ d.tag.isPrefixOf (text.map Bytes.toUpper) = true) :
    ∃ d', d'.stage = .getrange ∧
      Course d (before ++ [.line text late]) [.sent d.tls [] .done] d' ∧
      (responseLoop checkOnly false again d.lines).exec d =
        ⟨(again.exec d').val, (again.exec d').state,
          [.sent d.tls [] .done] ++ (again.exec d').trace⟩ := by
  induction before generalizing d with
  | nil =>
    refine ⟨_, rfl, course_afterMail hlines
      (hasIdle_afterLine checkOnly .idle (text.map Bytes.toUpper) d.statics), ?_⟩
    rw [hlines, List.nil_append, responseLoop_mail checkOnly hstage hhas hmail, if_neg huntagged]
  | cons r before ih =>
    cases r with
    | silence => exact absurd (hbefore _ List.mem_cons_self) id
    | line first when =>
      -- an uneventful line is taken, and the loop goes on in `IDLE`
      obtain ⟨hother, hearly, hgoesOn⟩ := hbefore _ List.mem_cons_self
      have hkept := hasIdle_afterLine checkOnly .idle (first.map Bytes.toUpper) d.statics
      obtain ⟨d', hstage', hcourse, hexec⟩ := ih
        (d := afterOther checkOnly d (first.map Bytes.toUpper)
          (before ++ .line text late :: rest)) hstage (hkept.trans hhas) rfl
        (fun r hr => hbefore r (List.mem_cons_of_mem _ hr)) huntagged
      refine ⟨d', hstage', (Course.line hlines hkept).trans hcourse, ?_⟩
      rw [hlines, List.cons_append, responseLoop_goesOn checkOnly hstage hhas hother hearly,
        if_neg hgoesOn]
      exact hexec

/-- A client in `IDLE` sends `DONE` at the first report of new mail, before it reads a further
line, and reads the rest of the response as any other. -/
theorem imapOk_reports (before : List Recv) {text : Bytes} {late : Bool} {rest : List Recv}
    (hstage : d.stage = .idle) (hhas : d.statics.hasIdle = true)
    (hlines : d.lines = before ++ .line text late :: rest)
    (hbefore : ∀ r ∈ before, Uneventful checkOnly d.tag r)
    (hmail : reportsMail checkOnly (text.map Bytes.toUpper) = true)
    (huntagged : ¬ d.tag.isPrefixOf (text.map Bytes.toUpper) = true) :
    ∃ d', d'.stage = .getrange ∧
      Course d (before ++ [.line text late]) [.sent d.tls [] .done] d' ∧
      (imapOk checkOnly : Session ω Ps).exec d =
        ⟨((imapOk checkOnly : Session ω Ps).exec d').val,
          ((imapOk checkOnly : Session ω Ps).exec d').state, [.sent d.tls [] .done]⟩ := by
  obtain ⟨again, hagain, hexec⟩ := exec_imapOk_loop checkOnly (d := d)
  obtain ⟨d', hstage', hcourse, hloop⟩ := responseLoop_reports checkOnly again before
    hstage hhas hlines hbefore hmail huntagged
  refine ⟨d', hstage', hcourse, ?_⟩
  have hidle : d'.stage ≠ .idle := by simp [hstage']
  -- outside of `IDLE` the loop does not come back to itself
  have hsame : again.exec d' = (responseLoop checkOnly false again d'.lines).exec d' := by
    rw [exec_responseLoop hidle d'.lines rfl, hagain, Talk.exec_bind]
    simp only [Talk.exec_gets, List.nil_append]
    rw [exec_responseLoop hidle d'.lines rfl]
  rw [hexec, hloop, hsame, exec_responseLoop hidle d'.lines rfl, exec_imapOk hidle]
  rfl

/-! ## Rounds of waiting -/

/-- What a client that is to wait sends: `IDLE`, and `DONE` next or nothing more. -/
def IdleRound (d : Dialogue Statics ω Command) (sent : List (Event Command)) : Prop :=
  sent = [.sent d.tls d.gensym.tag .idle] ∨
    sent = [.sent d.tls d.gensym.tag .idle, .sent d.tls [] .done]

theorem gensym_tag_ne_nil : d.gensym.tag ≠ [] := by
  simp [Dialogue.gensym, tagText, Bytes.lit]

/-- `IDLE` and its response. -/
theorem transact_idle (htags : d.tags = true) (hhas : d.statics.hasIdle = true) :
    ∃ out : Outcome (Dialogue Statics ω Command) (Event Command) (Except Throw Ps),
      (transact checkOnly .idle : Session ω Ps).exec { d with stage := .idle } =
        ⟨out.val, out.state, [.sent d.tls d.gensym.tag .idle] ++ out.trace⟩ ∧
      (out.trace = [] ∨ out.trace = [.sent d.tls [] .done]) ∧
      (out.val = .ok .idletimeout → out.trace = [] ∧ out.state.tag = d.gensym.tag) ∧
      ∃ read, Course d read ([.sent d.tls d.gensym.tag .idle] ++ out.trace) out.state ∧
        (out.val = .ok .success → Answered d.gensym.tag read) := by
  have hsend : Course d [] [.sent d.tls d.gensym.tag .idle]
      (sending .idle { d with stage := .idle }) :=
    ⟨by simp [heard]; rfl, rfl, rfl, rfl, rfl, rfl⟩
  obtain ⟨out, hexec, hsent, hlate, read, hcourse, hsuccess⟩ :=
    imapOk_idle checkOnly (d := sending .idle { d with stage := .idle }) rfl hhas
      gensym_tag_ne_nil
  refine ⟨out, ?_, hsent, hlate, read, hsend.trans hcourse, hsuccess⟩
  have htags' : ({ d with stage := .idle } : Dialogue _ _ _).tags = true := htags
  unfold transact genTransact
  rw [Talk.exec_bind, exec_genSend htags']
  dsimp only
  rw [hexec]
  rfl

/-- `DONE` when the idle period is over, and the response to it. -/
theorem done_spec (htag : d.tag ≠ []) : ∃ out, (do
      sockWrite .done
      setStage .getrange
      imapOk checkOnly : Session ω Ps).exec d = out ∧
    out.trace = [.sent d.tls [] .done] ∧
    ∃ read, Course d read [.sent d.tls [] .done] out.state ∧
      (out.val = .ok .success → Answered d.tag read) := by
  have hdone : Course d [] [.sent d.tls [] .done]
      { d.deliver [] .done with stage := .getrange } :=
    ⟨by simp [heard, Dialogue.deliver], rfl, rfl, rfl, rfl, rfl⟩
  obtain ⟨htrace, -, read, hcourse, hsuccess⟩ := imapOk_spec checkOnly
    (d := { d.deliver [] .done with stage := .getrange }) rfl htag
  refine ⟨_, rfl, ?_⟩
  simp only [Talk.exec_bind, sockWrite, Talk.exec_emit, Talk.exec_modify, exec_setStage, htrace]
  exact ⟨rfl, read, hdone.trans hcourse, hsuccess⟩

theorem realIdle_spec (htags : d.tags = true) (hhas : d.statics.hasIdle = true) :
    IdleRound d ((realIdle checkOnly : Session ω Ps).exec d).trace ∧
      ∃ read, Course d read ((realIdle checkOnly : Session ω Ps).exec d).trace
          ((realIdle checkOnly : Session ω Ps).exec d).state ∧
        (((realIdle checkOnly : Session ω Ps).exec d).val = .ok .success →
          Answered d.gensym.tag read) := by
  obtain ⟨out, hfirst, hsent, hlate, read, hcourse, hsuccess⟩ := transact_idle checkOnly htags hhas
  have hround : IdleRound d ([.sent d.tls d.gensym.tag .idle] ++ out.trace) :=
    hsent.imp (fun h => by rw [h]; rfl) (fun h => by rw [h]; rfl)
  unfold realIdle
  simp only [Talk.exec_bind, exec_setStage, hfirst, List.nil_append]
  cases hval : out.val with
  | error t => exact ⟨hround, read, hcourse, by simp⟩
  | ok ok =>
    dsimp only
    by_cases hover : ok = .idletimeout
    · -- nothing has ended the `IDLE` so far
      rw [hover] at hval
      obtain ⟨hnone, htag⟩ := hlate hval
      have htls : out.state.tls = d.tls := hcourse.tls
      obtain ⟨last, hlast, htrace, later, hcourse', hsuccess'⟩ :=
        done_spec checkOnly (htag.trans_ne gensym_tag_ne_nil)
      rw [htls] at htrace hcourse'
      have hall := hcourse.trans hcourse'
      rw [hnone] at hall
      rw [if_pos hover, hlast, hnone, htrace]
      refine ⟨.inr rfl, _, hall, fun h => ?_⟩
      rw [← htag]
      exact (hsuccess' h).append read
    · simp only [if_neg hover, Talk.exec_pure, List.append_nil]
      exact ⟨hround, read, hcourse, fun h => hsuccess (hval.trans h)⟩

theorem imapIdle_spec (htags : d.tags = true) (hhas : d.statics.hasIdle = true) :
    IdleRound d ((imapIdle checkOnly : Session ω Ps).exec d).trace ∧
      ∃ read, Course d read ((imapIdle checkOnly : Session ω Ps).exec d).trace
          ((imapIdle checkOnly : Session ω Ps).exec d).state ∧
        (((imapIdle checkOnly : Session ω Ps).exec d).val = .ok .success →
          Answered d.gensym.tag read) := by
  obtain ⟨hround, read, hcourse, hsuccess⟩ := realIdle_spec checkOnly htags hhas
  unfold imapIdle
  simp only [Talk.exec_bind, exec_statics, hhas, if_true, List.nil_append]
  cases hval : ((realIdle checkOnly : Session ω Ps).exec d).val with
  | error t => exact ⟨hround, read, hcourse, by simp⟩
  | ok ok =>
    simp only [exec_setStage, Talk.exec_pure, List.append_nil]
    refine ⟨hround, read, ?_, fun h => hsuccess (hval.trans h)⟩
    exact ⟨hcourse.lines, hcourse.peer, hcourse.answer, hcourse.tags, hcourse.tls, hcourse.hasIdle⟩

/-- Waiting in rounds, each of them answered by the server before the next one begins. -/
inductive Waits : Dialogue Statics ω Command → List (Event Command) →
    Dialogue Statics ω Command → Prop where
  | rest (d : Dialogue Statics ω Command) : Waits d [] d
  | round {d d' d'' : Dialogue Statics ω Command} {read : List Recv}
      {sent later : List (Event Command)} (h : IdleRound d sent) (hcourse : Course d read sent d')
      (hanswered : Answered d.gensym.tag read) (hlater : Waits d' later d'') :
      Waits d (sent ++ later) d''

/-- The client has sent nothing more than its rounds, the last of which may be open yet when
something has gone wrong. -/
def InRounds (d : Dialogue Statics ω Command) (sent : List (Event Command))
    (failed : Prop) : Prop :=
  ∃ done last d', sent = done ++ last ∧ Waits d done d' ∧ (last = [] ∨ failed ∧ IdleRound d' last)

/-- The loop that waits: induction over its rounds. -/
theorem waitWhile_spec (noMail : Statics → Bool) (fuel : Nat) (htags : d.tags = true)
    (hhas : d.statics.hasIdle = true) :
    InRounds d ((waitWhile checkOnly noMail fuel : Session ω Ps).exec d).trace
      (((waitWhile checkOnly noMail fuel : Session ω Ps).exec d).val ≠ .ok .success) := by
  induction fuel generalizing d with
  | zero => exact ⟨[], [], d, rfl, .rest d, .inl rfl⟩
  | succ fuel ih =>
    unfold waitWhile
    simp only [Talk.exec_bind, exec_statics, List.nil_append]
    by_cases hwaits : noMail d.statics = true
    · obtain ⟨hround, read, hcourse, hsuccess⟩ := imapIdle_spec checkOnly htags hhas
      simp only [if_pos hwaits, Talk.exec_bind]
      cases hval : ((imapIdle checkOnly : Session ω Ps).exec d).val with
      | error t => exact ⟨[], _, d, rfl, .rest d, .inr ⟨by simp, hround⟩⟩
      | ok ok =>
        dsimp only
        by_cases hok : ok = .success
        · rw [hok] at hval
          obtain ⟨done, last, d', hsent, hwaited, hlast⟩ :=
            ih (hcourse.tags.trans htags) (hcourse.hasIdle.trans hhas)
          simp only [hok, ne_eq, not_true_eq_false, if_false]
          refine ⟨_ ++ done, last, d', ?_, .round hround hcourse (hsuccess hval) hwaited, hlast⟩
          rw [hsent, List.append_assoc]
        · simp only [if_pos hok, Talk.exec_pure, List.append_nil]
          exact ⟨[], _, d, rfl, .rest d, .inr ⟨by simpa using hok, hround⟩⟩
    · simp only [if_neg hwaits, Talk.exec_pure]
      exact ⟨[], [], d, rfl, .rest d, .inl rfl⟩

/-! ## Selecting a mailbox, and waiting -/

/-- A line that has to do with waiting. -/
def Waiting : Event Command → Prop
  | .sent _ _ c => c = .idle ∨ c = .done

/-- Code that does not wait. -/
def Opens {α : Type} (x : Session ω α) : Prop := ∀ d, d.stage = .getrange → d.tags = true →
  (x.exec d).state.stage = .getrange ∧ (∀ e ∈ (x.exec d).trace, ¬ Waiting e) ∧
    ∃ read, Course d read (x.exec d).trace (x.exec d).state

variable {α β : Type}

theorem opens_pure (a : α) : Opens (pure a : Session ω α) :=
  fun _ hstage _ => ⟨hstage, by simp, [], Course.refl _⟩

theorem opens_statics (f : Statics → α) : Opens (statics f : Session ω α) :=
  fun _ hstage _ => ⟨hstage, by simp, [], Course.refl _⟩

theorem opens_assign {f : Statics → Statics} (hf : ∀ v, (f v).hasIdle = v.hasIdle) :
    Opens (assign f : Session ω Unit) :=
  fun d hstage _ => ⟨hstage, by simp, [], ⟨by simp [heard], rfl, rfl, rfl, rfl, hf d.statics⟩⟩

theorem Opens.bind {x : Session ω α} {f : α → Session ω β} (hx : Opens x)
    (hf : ∀ a, Opens (f a)) : Opens (x >>= f) := by
  intro d hstage htags
  obtain ⟨hstage', hquiet, read, hcourse⟩ := hx d hstage htags
  rw [Talk.exec_bind]
  cases (x.exec d).val with
  | error t => exact ⟨hstage', hquiet, read, hcourse⟩
  | ok a =>
    obtain ⟨hlast, hquiet', read', hcourse'⟩ := hf a _ hstage' (hcourse.tags.trans htags)
    refine ⟨hlast, ?_, _, hcourse.trans hcourse'⟩
    intro e he
    exact (List.mem_append.1 he).elim (hquiet e) (hquiet' e)

theorem Opens.ite {c : Prop} [Decidable c] {x y : Session ω α} (hx : Opens x) (hy : Opens y) :
    Opens (if c then x else y) := by
  split
  · exact hx
  · exact hy

theorem opens_transact {c : Command} (hidle : c ≠ .idle) (hdone : c ≠ .done) :
    Opens (transact checkOnly c : Session ω Ps) := by
  intro d hstage htags
  obtain ⟨htrace, hstage', read, hcourse, -⟩ := imapOk_spec checkOnly (d := sending c d) hstage
    gensym_tag_ne_nil
  have hsend : Course d [] [.sent d.tls d.gensym.tag c] (sending c d) :=
    ⟨by simp [heard]; rfl, rfl, rfl, rfl, rfl, rfl⟩
  unfold transact genTransact
  rw [Talk.exec_bind, exec_genSend htags]
  simp only [htrace, List.append_nil]
  refine ⟨hstage', ?_, _, hsend.trans hcourse⟩
  intro e he
  rw [List.mem_singleton.1 he]
  exact fun h => h.elim hidle hdone

theorem opens_internalExpunge : Opens (internalExpunge checkOnly : Session ω Ps) := by
  refine Opens.bind (opens_assign ?_) fun _ => ?_
  · intro v
    rfl
  refine (opens_transact checkOnly (by simp) (by simp)).bind fun ok => ?_
  apply Opens.ite (opens_pure _)
  refine (opens_statics _).bind fun mismatch => Opens.ite ?_ ?_
  · exact Opens.bind (opens_assign (by intro v; rfl)) fun _ => opens_pure _
  · exact Opens.bind (opens_assign (by intro v; rfl)) fun _ => opens_pure _

theorem opens_selectMailbox (range : RangeCtl) :
    Opens (selectMailbox checkOnly range : Session ω (Ps × Nat)) := by
  refine Opens.bind (opens_assign ?_) fun _ => ?_
  · intro v
    rfl
  refine Opens.bind (opens_transact checkOnly ?_ ?_) fun ok => ?_
  · split <;> simp
  · split <;> simp
  apply Opens.ite (opens_pure _)
  refine (opens_statics _).bind fun some => Opens.ite ?_ ?_
  · refine (opens_internalExpunge checkOnly).bind fun ok => Opens.ite (opens_pure _) ?_
    exact (opens_statics _).bind fun _ => opens_pure _
  · exact (opens_statics _).bind fun _ => opens_pure _

/-- Rounds that follow lines of another kind. -/
def OpensThenWaits (d : Dialogue Statics ω Command) (sent : List (Event Command))
    (failed : Prop) : Prop :=
  ∃ opening rounds read d', sent = opening ++ rounds ∧ (∀ e ∈ opening, ¬ Waiting e) ∧
    Course d read opening d' ∧ InRounds d' rounds failed

theorem InRounds.mono {sent : List (Event Command)} {p q : Prop} (h : InRounds d sent p)
    (hpq : p → q) : InRounds d sent q := by
  obtain ⟨done, last, d', hsent, hwaits, hlast⟩ := h
  exact ⟨done, last, d', hsent, hwaits, hlast.imp_right fun h => ⟨hpq h.1, h.2⟩⟩

theorem inRounds_nil (d : Dialogue Statics ω Command) (failed : Prop) : InRounds d [] failed :=
  ⟨[], [], d, rfl, .rest d, .inl rfl⟩

theorem laterRange_spec (fuel : Nat) (htags : d.tags = true) (hhas : d.statics.hasIdle = true) :
    InRounds d ((laterRange checkOnly fuel : Session ω Ps).exec d).trace
      (((laterRange checkOnly fuel : Session ω Ps).exec d).val ≠ .ok .success) := by
  have hwait := waitWhile_spec checkOnly (fun v => decide (v.recentcount = 0 ∧ v.doIdle)) fuel
    htags hhas
  unfold laterRange
  simp only [Talk.exec_bind]
  cases hval : ((waitWhile checkOnly (fun v => decide (v.recentcount = 0 ∧ v.doIdle)) fuel :
    Session ω Ps).exec d).val with
  | error t => exact hwait.mono fun _ => by simp
  | ok ok =>
    by_cases hok : ok = .success
    · rw [hval, hok] at hwait
      simp only [hok, ne_eq, not_true_eq_false, if_false, Talk.exec_bind, exec_assign,
        Talk.exec_pure, List.append_nil]
      simpa using hwait
    · simp only [ne_eq, hok, not_false_eq_true, if_true, Talk.exec_pure, List.append_nil]
      exact hwait.mono fun _ => by simpa using hok

theorem firstRange_spec (range : RangeCtl) (fuel : Nat) (hstage : d.stage = .getrange)
    (htags : d.tags = true) (hhas : d.statics.hasIdle = true) :
    OpensThenWaits d ((firstRange checkOnly range fuel : Session ω Ps).exec d).trace
      (((firstRange checkOnly range fuel : Session ω Ps).exec d).val ≠ .ok .success) := by
  obtain ⟨-, hquiet, read, hcourse⟩ := opens_selectMailbox checkOnly range d hstage htags
  unfold firstRange
  simp only [Talk.exec_bind]
  cases ((selectMailbox checkOnly range : Session ω (Ps × Nat)).exec d).val with
  | error t => exact ⟨_, [], read, _, (List.append_nil _).symm, hquiet, hcourse, inRounds_nil _ _⟩
  | ok selected =>
    simp only [exec_statics, List.nil_append]
    by_cases hok : selected.1 = .success
    · rw [if_neg (by simpa using hok)]
      by_cases hempty : selected.2 = 0 ∧
          ((selectMailbox checkOnly range : Session ω (Ps × Nat)).exec d).state.statics.doIdle
      · rw [if_pos hempty]
        exact ⟨_, _, read, _, rfl, hquiet, hcourse, waitWhile_spec checkOnly _ fuel
          (hcourse.tags.trans htags) (hcourse.hasIdle.trans hhas)⟩
      · rw [if_neg hempty]
        exact ⟨_, [], read, _, rfl, hquiet, hcourse, inRounds_nil _ _⟩
    · rw [if_pos hok]
      exact ⟨_, [], read, _, rfl, hquiet, hcourse, inRounds_nil _ _⟩

theorem rangeOfPass_spec (pass : Nat) (range : RangeCtl) (fuel : Nat)
    (hstage : d.stage = .getrange) (htags : d.tags = true) (hhas : d.statics.hasIdle = true) :
    OpensThenWaits d ((rangeOfPass pass checkOnly range fuel : Session ω Ps).exec d).trace
      (((rangeOfPass pass checkOnly range fuel : Session ω Ps).exec d).val ≠ .ok .success) := by
  unfold rangeOfPass
  split
  · exact ⟨[], _, [], d, rfl, by simp, Course.refl _,
      laterRange_spec checkOnly fuel htags hhas⟩
  · exact firstRange_spec checkOnly range fuel hstage htags hhas

/-- Code that sends nothing that has to do with `IDLE` to a server that does not know it. -/
def Spares (x : Session ω α) : Prop := ∀ d, d.statics.hasIdle = false →
  (x.exec d).state.statics.hasIdle = false ∧ ∀ e ∈ (x.exec d).trace, ¬ Waiting e

theorem spares_pure (a : α) : Spares (pure a : Session ω α) := fun _ h => ⟨h, by simp⟩

theorem spares_throw (t : Throw) : Spares (Talk.throw t : Session ω α) := fun _ h => ⟨h, by simp⟩

theorem spares_gets (f : Dialogue Statics ω Command → α) : Spares (Talk.gets f) :=
  fun _ h => ⟨h, by simp⟩

theorem spares_modify {f : Dialogue Statics ω Command → Dialogue Statics ω Command}
    (hf : ∀ d, (f d).statics.hasIdle = d.statics.hasIdle) : Spares (Talk.modify f) :=
  fun d h => ⟨(hf d).trans h, by simp⟩

theorem Spares.bind {x : Session ω α} {f : α → Session ω β} (hx : Spares x)
    (hf : ∀ a, Spares (f a)) : Spares (x >>= f) := by
  intro d h
  obtain ⟨hhas, hquiet⟩ := hx d h
  rw [Talk.exec_bind]
  cases (x.exec d).val with
  | error t => exact ⟨hhas, hquiet⟩
  | ok a =>
    refine ⟨(hf a _ hhas).1, ?_⟩
    intro e he
    exact (List.mem_append.1 he).elim (hquiet e) ((hf a _ hhas).2 e)

/-- The same after variables were assigned to. -/
theorem spares_modify_bind {f : Dialogue Statics ω Command → Dialogue Statics ω Command}
    {x : Unit → Session ω α} (hx : Spares (x ()))
    (hf : ∀ d, (f d).statics.hasIdle = d.statics.hasIdle) : Spares (Talk.modify f >>= x) :=
  (spares_modify hf).bind fun _ => hx

theorem Spares.ite {c : Prop} [Decidable c] {x y : Session ω α} (hx : Spares x) (hy : Spares y) :
    Spares (if c then x else y) := by
  split
  · exact hx
  · exact hy

theorem spares_genSend {c : Command} (hidle : c ≠ .idle) (hdone : c ≠ .done) :
    Spares (genSend c : Session ω Unit) := by
  have hemit : ∀ tag : Dialogue Statics ω Command → Bytes,
      Spares (Talk.emit fun d => .sent d.tls (tag d) c : Session ω Unit) := by
    intro tag d h
    refine ⟨h, fun e he => ?_⟩
    rw [List.mem_singleton.1 he]
    exact fun hwaiting => hwaiting.elim hidle hdone
  have hwrite : Spares (Transact.sockWrite c : Session ω Unit) :=
    (hemit fun _ => []).bind fun _ => spares_modify fun _ => rfl
  refine (spares_gets _).bind fun tagged => Spares.ite ?_ hwrite
  refine spares_modify_bind ?_ fun _ => rfl
  exact (hemit Dialogue.tag).bind fun _ => spares_modify fun _ => rfl

/-- `DONE` is for servers that know `IDLE`. -/
theorem spares_endIdle : Spares (endIdle : Session ω Unit) := by
  intro d h
  simp only [endIdle, sendDone, Talk.exec_bind, Talk.exec_gets, List.nil_append]
  by_cases hstage : d.stage = .idle
  · simp [hstage, h]
  · simp [hstage, h]

theorem spares_accept (r : Recv) (rest : List Recv) : Spares (accept r rest : Session ω _) := by
  refine spares_modify_bind ?_ fun _ => rfl
  cases r with
  | line text late => exact spares_pure _
  | silence => exact (spares_gets _).bind fun _ => Spares.ite (spares_pure _) (spares_throw _)

theorem spares_imapUntaggedResponse (buf : Bytes) :
    Spares (imapUntaggedResponse checkOnly buf : Session ω Ps) := by
  refine (spares_gets _).bind fun stage => ?_
  cases classify checkOnly stage buf with
  | capability rest => exact spares_modify_bind (spares_pure _) fun _ => rfl
  | preauth => exact spares_modify_bind (spares_pure _) fun _ => rfl
  | «exists» u =>
    refine spares_modify_bind ?_ fun _ => rfl
    exact spares_endIdle.bind fun _ => spares_pure _
  | expunge u =>
    refine Spares.ite ?_ (spares_pure _)
    exact spares_modify_bind (spares_pure _) fun _ => rfl
  | bye => exact spares_pure _
  | bogusCount => exact spares_pure _
  | readOnly => exact spares_pure _
  | other => exact spares_pure _

theorem spares_responseLoop {again : Session ω (Ps × Bytes)} (hagain : Spares again)
    (argbuf : Bool) (lines : List Recv) :
    Spares (responseLoop checkOnly argbuf again lines) := by
  induction lines with
  | nil => exact spares_pure _
  | cons r rest ih =>
    refine (spares_gets _).bind fun stage => (spares_accept r rest).bind fun received => ?_
    cases received with
    | error err => exact spares_pure _
    | ok text =>
      refine Spares.bind ?_ fun ok => (spares_gets _).bind fun d => ?_
      · exact Spares.ite (spares_imapUntaggedResponse checkOnly _) (spares_pure _)
      cases returnEarly argbuf d.stage d.tag (text.map Bytes.toUpper) r.late ok with
      | some result => exact spares_pure _
      | none => exact Spares.ite (spares_pure _) (Spares.ite hagain ih)

theorem spares_imapOk : Spares (imapOk checkOnly : Session ω Ps) := by
  refine Spares.bind ((spares_gets _).bind fun lines => ?_) fun _ => spares_pure _
  apply spares_responseLoop
  exact (spares_gets _).bind fun lines => spares_responseLoop checkOnly (spares_pure _) _ lines

theorem spares_transact {c : Command} (hidle : c ≠ .idle) (hdone : c ≠ .done) :
    Spares (transact checkOnly c : Session ω Ps) :=
  (spares_genSend hidle hdone).bind fun _ => spares_imapOk checkOnly

theorem spares_imapIdle : Spares (imapIdle checkOnly : Session ω Ps) := by
  have hfake : Spares (fakeIdle checkOnly : Session ω Ps) := by
    refine (spares_transact checkOnly (by simp) (by simp)).bind fun ok => ?_
    refine (spares_gets _).bind fun recentcount => Spares.ite ?_ (spares_pure _)
    refine spares_modify_bind ?_ fun _ => rfl
    refine spares_modify_bind ?_ fun _ => rfl
    exact (spares_imapOk checkOnly).bind fun _ => spares_pure _
  have hlast : Spares (do
      let ok ← fakeIdle checkOnly
      setStage .getrange
      return ok : Session ω Ps) :=
    hfake.bind fun ok => spares_modify_bind (spares_pure _) fun _ => rfl
  intro d h
  have hexec : (imapIdle checkOnly : Session ω Ps).exec d = (do
      let ok ← fakeIdle checkOnly
      setStage .getrange
      return ok : Session ω Ps).exec d := by
    unfold imapIdle
    simp only [Talk.exec_bind, exec_statics, h, Bool.false_eq_true, if_false, List.nil_append]
  rw [hexec]
  exact hlast d h

theorem spares_waitWhile (noMail : Statics → Bool) (fuel : Nat) :
    Spares (waitWhile checkOnly noMail fuel : Session ω Ps) := by
  induction fuel with
  | zero => exact spares_throw _
  | succ fuel ih =>
    refine (spares_gets _).bind fun waits => Spares.ite ?_ (spares_pure _)
    exact (spares_imapIdle checkOnly).bind fun ok => Spares.ite (spares_pure _) ih

theorem spares_selectMailbox (range : RangeCtl) :
    Spares (selectMailbox checkOnly range : Session ω (Ps × Nat)) := by
  have hexpunge : Spares (internalExpunge checkOnly : Session ω Ps) := by
    refine spares_modify_bind ?_ fun _ => rfl
    refine (spares_transact checkOnly (by simp) (by simp)).bind fun ok => ?_
    apply Spares.ite (spares_pure _)
    refine (spares_gets _).bind fun mismatch => Spares.ite ?_ ?_
    · exact spares_modify_bind (spares_pure _) fun _ => rfl
    · exact spares_modify_bind (spares_pure _) fun _ => rfl
  refine spares_modify_bind ?_ fun _ => rfl
  refine Spares.bind (spares_transact checkOnly ?_ ?_) fun ok => ?_
  · split <;> simp
  · split <;> simp
  apply Spares.ite (spares_pure _)
  refine (spares_gets _).bind fun some => Spares.ite ?_ ?_
  · refine hexpunge.bind fun ok => Spares.ite (spares_pure _) ?_
    exact (spares_gets _).bind fun _ => spares_pure _
  · exact (spares_gets _).bind fun _ => spares_pure _

/-- A server that does not know `IDLE` is never sent it, nor `DONE`. -/
theorem imapGetrange_without_idle (pass : Nat) (range : RangeCtl) (fuel : Nat)
    (hhas : d.statics.hasIdle = false) :
    ∀ e ∈ ((imapGetrange pass checkOnly range fuel : Session ω (Ps × Nat)).exec d).trace,
      ¬ Waiting e := by
  have hwait := spares_waitWhile (ω := ω) checkOnly
  have hlater : Spares (laterRange checkOnly fuel : Session ω Ps) := by
    refine (hwait _ fuel).bind fun ok => Spares.ite (spares_pure _) ?_
    refine spares_modify_bind (spares_pure _) fun d => ?_
    dsimp only
    split <;> rfl
  have hfirst : Spares (firstRange checkOnly range fuel : Session ω Ps) := by
    refine (spares_selectMailbox checkOnly range).bind fun selected => ?_
    refine (spares_gets _).bind fun doIdle => Spares.ite (spares_pure _) ?_
    exact Spares.ite (hwait _ fuel) (spares_pure _)
  have hbody : Spares (imapGetrange pass checkOnly range fuel : Session ω (Ps × Nat)) := by
    refine Spares.bind (Spares.ite hlater hfirst) fun ok => Spares.ite (spares_pure _) ?_
    refine spares_modify_bind ?_ fun _ => rfl
    exact (spares_gets _).bind fun _ => spares_pure _
  exact (hbody d hhas).2

end

/-- A server that reports new mail as soon as the client waits for it. -/
def newMailServer (tag : Bytes) (c : Command) (idling : Bytes) : List Recv × Bytes :=
  match c with
  | .idle => ([.line (Bytes.lit "+ idling") false, .line (Bytes.lit "* 1 EXISTS") false], tag)
  | .done => ([.line (idling ++ Bytes.lit " OK") false], idling)
  | .noop => ([.line (tag ++ Bytes.lit " OK") false, .line (Bytes.lit "* 1 EXISTS") false], idling)
  | _ => ([.line (tag ++ Bytes.lit " OK") false], idling)

def idlingSession : Dialogue Statics Bytes Command where
  stage := .getrange
  statics := { Statics.init with hasIdle := true, doIdle := true }
  tagged := true
  suppressTags := false
  tagnum := 4
  tag := Bytes.lit "A0004"
  lines := []
  peer := []
  answer := newMailServer
  tls := true

theorem imapOk_reports_sample :
    ∃ d', d'.stage = .getrange ∧
      Course { idlingSession with
          stage := .idle, lines := [.line (Bytes.lit "+ idling") false,
            .line (Bytes.lit "* 1 EXISTS") false, .line (Bytes.lit "* OK") false] }
        [.line (Bytes.lit "+ idling") false, .line (Bytes.lit "* 1 EXISTS") false]
        [.sent true [] .done] d' ∧
      (imapOk false : Session Bytes Ps).exec { idlingSession with
          stage := .idle, lines := [.line (Bytes.lit "+ idling") false,
            .line (Bytes.lit "* 1 EXISTS") false, .line (Bytes.lit "* OK") false] } =
        ⟨((imapOk false).exec d').val, ((imapOk false).exec d').state, [.sent true [] .done]⟩ :=
  imapOk_reports false [.line (Bytes.lit "+ idling") false] rfl rfl rfl
    (fun r hr => by
      rw [List.mem_singleton.1 hr]
      exact ⟨by decide, by decide, by decide⟩) (by decide) (by decide)

/-- The same server, as far as a client knows that does not expect `IDLE`. -/
def noIdleSession : Dialogue Statics Bytes Command :=
  { idlingSession with statics := { Statics.init with doIdle := true } }

theorem imapGetrange_without_idle_sample :
    ((imapGetrange 1 false ⟨false, true, Bytes.lit "INBOX"⟩ 3).exec noIdleSession).trace =
        [.sent true (Bytes.lit "A0005") (.select (Bytes.lit "INBOX")),
          .sent true (Bytes.lit "A0006") .noop] ∧
      ∀ e ∈ ((imapGetrange 1 false ⟨false, true, Bytes.lit "INBOX"⟩ 3).exec noIdleSession).trace,
        ¬ Waiting e :=
  ⟨by decide, imapGetrange_without_idle false 1 _ 3 rfl⟩

end Fetchmail.Imap
