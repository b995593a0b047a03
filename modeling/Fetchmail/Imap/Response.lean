import Fetchmail.Imap.Session

/-!
# Responses outside `IDLE`

Outside the `IDLE` stage, reading a response sends nothing: the response parser is a
function of the lines to come, the stage, the tag and the static variables.
-/

namespace Fetchmail.Imap

open Fetchmail.Lib Fetchmail.Transact

/-! ## The effect of one line -/

/-- The read-only mark is looked for in one stage only. -/
theorem classify_ne_readOnly {checkOnly : Bool} {stage : Stage} (hstage : stage ≠ .getrange)
    (buf : Bytes) : classify checkOnly stage buf ≠ .readOnly := by
  have hmark : ¬ (stage = .getrange ∧ !checkOnly ∧ buf.contains (Bytes.lit "[READ-ONLY]")) :=
    fun h => hstage h.1
  have hnumber : ∀ n m : Untagged, n ≠ .readOnly → m ≠ .readOnly → ∀ (c : Prop) [Decidable c],
      (if c then n else m) ≠ .readOnly := by
    intro n m hn hm c _
    split
    · exact hn
    · exact hm
  unfold classify
  rw [if_neg hmark]
  apply hnumber _ _ (by simp)
  apply hnumber _ _ (by simp)
  apply hnumber _ _ (by simp)
  apply hnumber
  · split
    · exact hnumber _ _ (by simp) (by simp) _
    · simp
  apply hnumber
  · split <;> simp
  · simp

/-- What `imap_untagged_response` returns, for any line. -/
def lineVerdict (checkOnly : Bool) (stage : Stage) (buf : Bytes) : Ps :=
  if isUntagged buf then
    match classify checkOnly stage buf with
    | .bogusCount => .protocol
    | .readOnly => .lockbusy
    | .other => .untagged
    | _ => .success
  else .success

/-- The static variables after a line. -/
def Statics.afterLine (checkOnly : Bool) (stage : Stage) (buf : Bytes) (v : Statics) : Statics :=
  if isUntagged buf then
    match classify checkOnly stage buf with
    | .capability rest => { v with capabilities := rest }
    | .preauth => { v with preauth := true }
    | .exists u => v.exist u
    | .expunge u => if 0 < u then v.expunge else v
    | _ => v
  else v

section

variable {ω : Type} {checkOnly argbuf : Bool} {d : Dialogue Statics ω Command}

@[simp]
theorem exec_setStage (stage : Stage) :
    (setStage stage : Session ω Unit).exec d = ⟨.ok (), { d with stage := stage }, []⟩ := rfl

@[simp]
theorem exec_statics {α : Type} (f : Statics → α) :
    (statics f : Session ω α).exec d = ⟨.ok (f d.statics), d, []⟩ := rfl

theorem exec_endIdle (hstage : d.stage ≠ .idle) :
    (endIdle : Session ω Unit).exec d = ⟨.ok (), d, []⟩ := by
  simp [endIdle, hstage]

theorem exec_untaggedPart (hstage : d.stage ≠ .idle) (buf : Bytes) :
    (untaggedPart checkOnly buf : Session ω Ps).exec d =
      ⟨.ok (lineVerdict checkOnly d.stage buf),
        { d with statics := d.statics.afterLine checkOnly d.stage buf }, []⟩ := by
  unfold untaggedPart lineVerdict Statics.afterLine
  split
  · unfold imapUntaggedResponse
    simp only [Talk.exec_bind, Talk.exec_gets]
    cases classify checkOnly d.stage buf with
    | «exists» u =>
      have hidle : ({ d with statics := d.statics.exist u } : Dialogue _ _ _).stage ≠ .idle :=
        hstage
      simp [exec_endIdle hidle]
    | expunge u => by_cases hu : 0 < u <;> simp [hu]
    | _ => simp
  · simp

/-! ## The loop -/

/-- What `imap_response` makes of the lines to come: its result, the static variables
afterwards, and the lines it leaves. -/
def readResponse (checkOnly argbuf : Bool) (stage : Stage) (tag : Bytes) :
    Statics → List Recv → Except Throw (Ps × Bytes) × Statics × List Recv
  | v, [] => (.ok (.socket, []), v, [])
  | v, .silence :: rest => (.error .timeout, v, rest)
  | v, .line text _ :: rest =>
    let buf := text.map Bytes.toUpper
    let v := v.afterLine checkOnly stage buf
    match returnEarly argbuf stage tag buf false (lineVerdict checkOnly stage buf) with
    | some result => (.ok result, v, rest)
    | none =>
      if tag.isPrefixOf buf then (.ok (returnFinal stage tag buf), v, rest)
      else readResponse checkOnly argbuf stage tag v rest

/-- Lateness matters to an idling client only. -/
theorem returnEarly_late {stage : Stage} (hstage : stage ≠ .idle) (tag buf : Bytes) (late : Bool)
    (ok : Ps) : returnEarly argbuf stage tag buf late ok =
      returnEarly argbuf stage tag buf false ok := by
  simp [returnEarly, hstage]

/-- Induction over the lines to come. -/
theorem exec_responseLoop {again : Session ω (Ps × Bytes)} (hstage : d.stage ≠ .idle)
    (lines : List Recv) (hlines : d.lines = lines) :
    (responseLoop checkOnly argbuf again lines).exec d =
      ⟨(readResponse checkOnly argbuf d.stage d.tag d.statics lines).1,
        { d with
          statics := (readResponse checkOnly argbuf d.stage d.tag d.statics lines).2.1
          lines := (readResponse checkOnly argbuf d.stage d.tag d.statics lines).2.2 }, []⟩ := by
  induction lines generalizing d with
  | nil =>
    cases d
    cases hlines
    rfl
  | cons r rest ih =>
    unfold responseLoop
    simp only [Talk.exec_bind, Talk.exec_gets]
    cases r with
    | silence => simp [accept, hstage, readResponse]
    | line text late =>
      have haccept : (accept (.line text late) rest : Session ω _).exec d =
          ⟨.ok (.ok text), { d with lines := rest }, []⟩ := rfl
      rw [haccept]
      simp only [Talk.exec_bind, List.nil_append, readResponse]
      have hstage' : ({ d with lines := rest } : Dialogue _ _ _).stage ≠ .idle := hstage
      rw [exec_untaggedPart hstage']
      simp only [Talk.exec_gets, List.nil_append, id_eq]
      -- whether the line came late matters in `IDLE` only
      rw [returnEarly_late hstage]
      cases returnEarly argbuf d.stage d.tag (text.map Bytes.toUpper) false
        (lineVerdict checkOnly d.stage (text.map Bytes.toUpper)) with
      | some result => rfl
      | none =>
        simp only [ne_eq, not_true_eq_false, if_false]
        split
        · rfl
        -- the line is neither early nor tagged, and the next one is read
        · apply ih
          · exact hstage
          · rfl

/-- `imap_response` reads, and does nothing else. -/
theorem exec_imapResponse (hstage : d.stage ≠ .idle) :
    (imapResponse checkOnly argbuf : Session ω _).exec d =
      ⟨(readResponse checkOnly argbuf d.stage d.tag d.statics d.lines).1,
        { d with
          statics := (readResponse checkOnly argbuf d.stage d.tag d.statics d.lines).2.1
          lines := (readResponse checkOnly argbuf d.stage d.tag d.statics d.lines).2.2 }, []⟩ := by
  unfold imapResponse
  simp only [Talk.exec_bind, Talk.exec_gets, List.nil_append]
  exact exec_responseLoop hstage d.lines rfl

/-- `imap_ok` reads, and does nothing else. -/
theorem exec_imapOk (hstage : d.stage ≠ .idle) :
    (imapOk checkOnly : Session ω Ps).exec d =
      ⟨(readResponse checkOnly false d.stage d.tag d.statics d.lines).1.map Prod.fst,
        { d with
          statics := (readResponse checkOnly false d.stage d.tag d.statics d.lines).2.1
          lines := (readResponse checkOnly false d.stage d.tag d.statics d.lines).2.2 }, []⟩ := by
  unfold imapOk
  rw [Talk.exec_bind, exec_imapResponse hstage]
  cases (readResponse checkOnly false d.stage d.tag d.statics d.lines).1 <;> rfl

/-- The connection after a command was sent under a new tag, and answered. -/
def sending (c : Command) (d : Dialogue Statics ω Command) : Dialogue Statics ω Command :=
  d.gensym.deliver d.gensym.tag c

theorem exec_genSend {c : Command} (htags : d.tags = true) :
    (genSend c : Session ω Unit).exec d =
      ⟨.ok (), sending c d, [.sent d.tls d.gensym.tag c]⟩ := by
  simp [genSend, htags, sending, Dialogue.gensym]

/-- `gen_transact` sends the command and reads the response. -/
theorem exec_transact {c : Command} (hstage : d.stage ≠ .idle) (htags : d.tags = true) :
    (transact checkOnly c : Session ω Ps).exec d =
      ⟨(readResponse checkOnly false d.stage (sending c d).tag d.statics (sending c d).lines).1.map
          Prod.fst,
        { sending c d with
          statics :=
            (readResponse checkOnly false d.stage (sending c d).tag d.statics
              (sending c d).lines).2.1
          lines :=
            (readResponse checkOnly false d.stage (sending c d).tag d.statics
              (sending c d).lines).2.2 },
        [.sent d.tls d.gensym.tag c]⟩ := by
  unfold transact genTransact
  rw [Talk.exec_bind, exec_genSend htags]
  have hstage' : (sending c d).stage ≠ .idle := hstage
  simp only [exec_imapOk hstage', List.append_nil]
  rfl

end

end Fetchmail.Imap
