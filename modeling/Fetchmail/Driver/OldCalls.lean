import Fetchmail.Driver.LoopRule

/-!
# When the Loop Asks for Age

Each iteration of the fetch loop asks `is_old` at most once, first of all, and about the
message it is concerned with.
-/

namespace Fetchmail.Driver

open Fetchmail.Lib

/-- The call is no `is_old`. -/
def Call.NotOld : Call → Prop
  | .isOld .. => False
  | _ => True

section

variable {σ : Type} {c : Ctl} {m : Method σ} {t : Transact σ} {count num : Nat} {s : σ}

/-- Asking for sizes. -/
theorem notOld_getSizes (l : Loop) : Act.Emits Call.NotOld (getSizes c m count num l) := by
  unfold getSizes
  split
  · exact Act.emits_pure _
  · refine Act.Emits.ite ?_ (Act.emits_pure _)
    refine (Act.emits_lift _).bind fun r => ?_
    exact (Act.emits_emit trivial).bind fun _ => Act.emits_pure _

/-- Reading what comes behind a message. -/
theorem notOld_eatTrailer : Act.Emits Call.NotOld (eatTrailer m num) := by
  unfold eatTrailer
  split
  · exact Act.emits_pure _
  · refine (Act.emits_lift _).bind fun err => ?_
    exact (Act.emits_emit trivial).bind fun _ => Act.emits_pure _

/-- Requesting a body that is sent apart from its headers. -/
theorem notOld_requestBody (len msgsize msglen : Int) :
    Act.Emits Call.NotOld (requestBody m num len msgsize msglen) := by
  unfold requestBody
  split
  · exact Act.emits_pure _
  · refine (Act.emits_lift _).bind fun r => ?_
    exact (Act.emits_emit trivial).bind fun _ => Act.emits_pure _

/-- Reading the body to its end. -/
theorem notOld_processBody (forward : Bool) (len msgsize msglen : Int) :
    Act.Emits Call.NotOld (processBody m t num forward len msgsize msglen) := by
  unfold processBody
  refine (notOld_requestBody len msgsize msglen).bind fun r => ?_
  split
  · exact Act.emits_pure _
  · refine (Act.emits_lift _).bind fun err => ?_
    refine (Act.emits_emit trivial).bind fun _ => Act.Emits.ite ?_ (Act.emits_pure _)
    exact notOld_eatTrailer.bind fun _ => Act.emits_pure _

/-- Closing the sink. -/
theorem notOld_finishMessage (f : Flags) (l : Loop) :
    Act.Emits Call.NotOld (finishMessage t num f l) := by
  unfold finishMessage
  refine (Act.emits_lift _).bind fun ok => ?_
  exact (Act.emits_emit trivial).bind fun _ => Act.emits_pure _

/-- All that follows the headers. -/
theorem notOld_retrieveBody (f : Flags) (sb : Bool) (len msgsize msglen : Int) (l : Loop) :
    Act.Emits Call.NotOld (retrieveBody m t num f sb len msgsize msglen l) := by
  have htrailer : Act.Emits Call.NotOld (headerTrailer m num) := by
    unfold headerTrailer
    exact Act.Emits.ite notOld_eatTrailer (Act.emits_pure _)
  unfold retrieveBody
  refine htrailer.bind fun err => Act.Emits.ite (Act.emits_pure _) ?_
  refine Act.Emits.ite (notOld_finishMessage f l) ?_
  refine (notOld_processBody _ len msgsize msglen).bind fun r => ?_
  split
  · exact Act.emits_pure _
  · exact notOld_finishMessage _ _

/-- Fetching a message. -/
theorem notOld_retrieve (msgsize : Int) (l : Loop) :
    Act.Emits Call.NotOld (retrieve m t num msgsize l) := by
  unfold retrieve
  refine (Act.emits_lift _).bind fun r => ?_
  refine (Act.emits_emit trivial).bind fun _ => Act.Emits.ite (Act.emits_pure _) ?_
  refine Act.Emits.ite (Act.emits_pure _) ?_
  refine (Act.emits_lift _).bind fun h => ?_
  refine (Act.emits_emit trivial).bind fun _ => ?_
  split
  · exact Act.emits_pure _
  · exact notOld_retrieveBody _ _ _ _ _ _

/-- Deleting or marking it. -/
theorem notOld_dispose (f : Flags) (l : Loop) : Act.Emits Call.NotOld (dispose c m num f l) := by
  have hseen : Act.Emits Call.NotOld (maybeMarkSeen c m num f) := by
    unfold maybeMarkSeen
    split
    · exact Act.emits_pure _
    · refine Act.Emits.ite ?_ (Act.emits_pure _)
      refine (Act.emits_lift _).bind fun err => ?_
      exact (Act.emits_emit trivial).bind fun _ => Act.emits_pure _
  unfold dispose
  refine Act.Emits.ite (Act.emits_pure _) ?_
  split
  · exact hseen.bind fun _ => Act.emits_pure _
  · refine Act.Emits.ite ?_ (hseen.bind fun _ => Act.emits_pure _)
    refine (Act.emits_lift _).bind fun err => ?_
    exact (Act.emits_emit trivial).bind fun _ => Act.emits_pure _

/-- What comes behind the label `flagthemail`. -/
theorem notOld_flagthemail (maxfetch : Int) (f : Flags) (l : Loop) :
    Act.Emits Call.NotOld (flagthemail c m maxfetch count num f l) := by
  unfold flagthemail
  refine (notOld_dispose _ l).bind fun r => Act.Emits.ite (Act.emits_pure _) ?_
  exact Act.Emits.ite (Act.emits_pure _) (Act.emits_pure _)

/-- What follows the question in an iteration. -/
theorem notOld_judge (old : Bool) (l : Loop) : Act.Emits Call.NotOld
    (do
      if old then return .flagthemail ⟨.old, false, false, false⟩ l
      match ← getSizes c m count num l with
      | .error err => return .leave err l
      | .ok l =>
        let msgsize := l.msgsize num
        if c.oversized msgsize then return .flagthemail ⟨.toolarge, !c.limitflush, false, false⟩ l
        else retrieve m t num msgsize l) := by
  refine Act.Emits.ite (Act.emits_pure _) ?_
  refine (notOld_getSizes l).bind fun r => ?_
  split
  · exact Act.emits_pure _
  · exact Act.Emits.ite (Act.emits_pure _) (notOld_retrieve _ _)

/-- **The answer of `is_old`** in an iteration is that of the method, about the message of
the iteration, in the state the iteration starts in. -/
theorem isOld_fetchMessage {maxfetch : Int} {l : Loop} {n : Nat} {b : Bool}
    (h : .isOld n b ∈ ((fetchMessage c m t maxfetch count num l).run s).trace) :
    n = num ∧ c.fetchall = false ∧ ∃ f, m.isOld = some f ∧ b = (f num s).1 := by
  have hcheck : ∀ e ∈ ((checkOld c m num).run s).trace, ∀ n b, e = .isOld n b →
      n = num ∧ c.fetchall = false ∧ ∃ f, m.isOld = some f ∧ b = (f num s).1 := by
    intro e he n b heq
    subst heq
    unfold checkOld at he
    split at he
    · simp at he
    · rename_i hask
      simp only [Bool.or_eq_true, not_or, Bool.not_eq_true] at hask
      cases hm : m.isOld with
      | none => simp [hm] at he
      | some f =>
        simp only [hm, Act.run_bind, Act.run_lift, Act.run_emit, Act.run_pure, List.nil_append,
          List.append_nil, List.mem_singleton, Call.isOld.injEq] at he
        exact ⟨he.1, hask.1, f, rfl, he.2⟩
  unfold fetchMessage judge at h
  rw [Act.run_bind, Act.run_bind] at h
  simp only [List.append_assoc, List.mem_append] at h
  rcases h with h | h | h
  · exact hcheck _ h _ _ rfl
  · exact absurd (notOld_judge _ l _ _ h) id
  · split at h
    · exact absurd (notOld_flagthemail _ _ _ _ _ h) id
    · exact absurd (Act.emits_pure (P := Call.NotOld) _ _ _ h) id

end

end Fetchmail.Driver
