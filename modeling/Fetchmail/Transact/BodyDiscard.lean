import Fetchmail.Transact.BodyTransparency

/-!
# Discarding a Body

`readbody` on a body that is not to be forwarded, against one that is, to a sink that takes
everything. The decoder moves `inbufp` behind the line it has decoded, and only shipping a line
moves it back: a body that is decoded and discarded fills the buffer.
-/

namespace Fetchmail.Transact

open Fetchmail.Lib
open Fetchmail.Mime

/-! ## The two runs -/

/-- The body is forwarded, and the sink takes it. -/
def BodyCtl.forwarding (c : BodyCtl) : BodyCtl :=
  { c with forward := true, accepts := fun _ => true }

def BodyCtl.discarding (c : BodyCtl) : BodyCtl := { c with forward := false }

/-- The same octets are read, to the same place, and the same status is returned, whatever lies
in the two buffers. -/
def ReadsAlike (c : BodyCtl) (stream : Bytes) (len : Int) (mime : MimeState) : Prop :=
  ∀ mem mem' msglen,
    (readbody c.discarding stream mem' len mime msglen).1 =
      (readbody c.forwarding stream mem len mime msglen).1 ∧
    (readbody c.discarding stream mem' len mime msglen).2.stream =
      (readbody c.forwarding stream mem len mime msglen).2.stream

/-- What `SockRead` returns in a run of the loop, one read after the other. -/
def bodyReads (c : BodyCtl) : (fuel : Nat) → BodyLoop → List (Option Bytes)
  | 0, _ => []
  | fuel + 1, s =>
    if c.line.delimited ∨ 0 < s.len then
      (sockRead (bufSize - 4 - s.off) s.stream).map Prod.fst ::
        match readbodyStep c s with
        | .more s => bodyReads c fuel s
        | .endOfMessage _ | .leave _ _ => []
    else []

/-- Every single read returns the same. -/
def SameReads (c : BodyCtl) (stream : Bytes) (len : Int) (mime : MimeState) : Prop :=
  ∀ mem mem' msglen,
    bodyReads c.discarding (stream.length + 1) ⟨stream, mem', 0, false, len, mime, msglen, []⟩ =
      bodyReads c.forwarding (stream.length + 1) ⟨stream, mem, 0, false, len, mime, msglen, []⟩

/-- The C string that a line leaves at `inbufp`, and the length that remains. -/
def clippedLine (delimited : Bool) (len : Int) (chunk : Bytes) : Bytes × Int :=
  if delimited = false ∧ len < chunk.length then (chunk.take len.toNat ++ Bytes.crlf, 0)
  else (chunk, len - chunk.length)

/-- How much of the buffer is taken, and whether by a line that goes on. -/
structure Taken where
  bytes : Nat
  soft : Bool

def Taken.none : Taken := ⟨0, false⟩

/-- A line is decoded behind what is there; with less than 200 bytes behind it a soft line break
counts as none. -/
def Taken.decode (c : BodyCtl) (mime : MimeState) (line : Bytes) (u : Taken) : Taken :=
  if c.decode then
    let r := (unMimeBodyline c.bodyHeader c.line.delimited u.soft mime (Bytes.cstr line)).1
    ⟨u.bytes + r.advance, r.soft && decide (u.bytes + r.advance + 201 ≤ bufSize)⟩
  else u

/-- The state of the MIME parts behind a line. -/
def mimeAfter (c : BodyCtl) (mime : MimeState) (line : Bytes) : MimeState :=
  if c.decode then
    (unMimeBodyline c.bodyHeader c.line.delimited false mime (Bytes.cstr line)).2
  else mime

/-- What is kept of the buffer when a line that does not go on has been shipped. -/
def Taken.ship (u : Taken) : Taken := if u.soft then u else .none

/-- Every line that is read up to the end of the body, behind the line that it goes on with
(`kept`), is read in the same way behind all the lines before it (`used`). -/
def bodyFits (c : BodyCtl) : (lines : Nat) → (kept used : Taken) → (len : Int) → MimeState →
    Bytes → Bool
  | 0, _, _, _, _, _ => true
  | lines + 1, kept, used, len, mime, stream =>
    if c.line.delimited ∨ 0 < len then
      decide (sockRead (bufSize - 4 - used.bytes) stream =
          sockRead (bufSize - 4 - kept.bytes) stream) &&
        match sockRead (bufSize - 4 - kept.bytes) stream with
        | none => true
        | some (chunk, stream) =>
          let line := clippedLine c.line.delimited len chunk
          endOfBody c.line.delimited (line.1 ++ [Bytes.nul]) ||
            bodyFits c lines (kept.decode c mime line.1).ship (used.decode c mime line.1) line.2
              (mimeAfter c mime line.1) stream
    else true

/-! ## One line -/

/-- Both runs have read the same. -/
structure Twin (t f : BodyLoop) : Prop where
  stream : f.stream = t.stream
  len : f.len = t.len
  mime : f.mime = t.mime
  forwarded : t.off ≤ t.mem.length
  discarded : f.off ≤ f.mem.length

/-- What a run has in its buffer. -/
def BodyLoop.taken (s : BodyLoop) : Taken := ⟨s.off, s.issoftline⟩

/-- A line lies in the buffer at `inbufp`. -/
structure Filled (s : BodyLoop) (line : Bytes × Int) (rest : Bytes) (s' : BodyLoop) : Prop where
  stream : s'.stream = rest
  len : s'.len = line.2
  issoftline : s'.issoftline = s.issoftline
  mime : s'.mime = s.mime
  off : s'.off = s.off
  mem : s'.off ≤ s'.mem.length
  holds : ∃ tail, s'.mem.drop s'.off = line.1 ++ Bytes.nul :: tail

theorem length_store_ge {mem s : Bytes} {off : Nat} (h : off ≤ mem.length) :
    off + s.length + 1 ≤ (store mem off s).length := by
  simp only [store, List.length_append, List.length_take, List.length_cons, List.length_drop]
  omega

/-- What the buffer holds behind the zero byte does not show. -/
theorem endOfBody_tail (delimited : Bool) (line tail : Bytes) :
    endOfBody delimited (line ++ Bytes.nul :: tail) =
      endOfBody delimited (line ++ [Bytes.nul]) := by
  match line with
  | [] | [_] | [_, _] | [_, _, _] | _ :: _ :: _ :: _ :: _ =>
    simp [endOfBody, emptyLine, Bytes.nul, Bytes.lf, Bytes.cr, Bytes.dot]

theorem cstr_tail (line tail : Bytes) :
    Bytes.cstr (line ++ Bytes.nul :: tail) = Bytes.cstr line := by
  induction line with
  | nil => rfl
  | cons b line ih =>
    simp only [Bytes.cstr, List.cons_append, List.takeWhile_cons] at ih ⊢
    rw [ih]

/-- What a read that succeeds leaves in the buffer. -/
theorem clipLine_filled {c : BodyCtl} {s : BodyLoop} {chunk : Bytes} (rest : Bytes)
    (hlen : c.line.delimited = true ∨ 0 < s.len) (hmem : s.off ≤ s.mem.length) :
    Filled s (clippedLine c.line.delimited s.len chunk) rest
      { s with stream := rest, mem := (clipLine c s chunk).1, len := (clipLine c s chunk).2.2 } := by
  have hstore := store_drop (s := chunk) hmem
  have hlong := length_store_ge (s := chunk) hmem
  -- a line beyond the announced length is cut, and CRLF is written over what is behind the cut
  by_cases hclip : c.line.delimited = false ∧ s.len < chunk.length
  · have hpos : 0 < s.len := by
      cases hlen with
      | inl h => rw [hclip.1] at h; cases h
      | inr h => exact h
    have hcut : s.off + s.len.toNat ≤ (store s.mem s.off chunk).length := by omega
    have htake : (store s.mem s.off chunk).take (s.off + s.len.toNat) =
        s.mem.take s.off ++ chunk.take s.len.toNat := by
      rw [store, List.append_assoc, List.take_append, List.length_take_of_le hmem,
        List.take_of_length_le (by rw [List.length_take_of_le hmem]; omega), Nat.add_sub_cancel_left,
        List.take_append_of_le_length (by omega)]
    have hfirst : (s.mem.take s.off).length = s.off := List.length_take_of_le hmem
    simp only [clipLine, clippedLine, if_pos hclip]
    refine ⟨rfl, rfl, rfl, rfl, rfl, ?_, ?_⟩
    · have := length_store_ge (s := Bytes.crlf) hcut
      show s.off ≤ (store (store s.mem s.off chunk) (s.off + s.len.toNat) Bytes.crlf).length
      omega
    · refine ⟨(store s.mem s.off chunk).drop (s.off + s.len.toNat + Bytes.crlf.length + 1), ?_⟩
      show (store (store s.mem s.off chunk) (s.off + s.len.toNat) Bytes.crlf).drop s.off = _
      rw [store, htake, List.append_assoc, List.append_assoc, List.drop_left' hfirst,
        ← List.append_assoc]
  · simp only [clipLine, clippedLine, if_neg hclip]
    refine ⟨rfl, rfl, rfl, rfl, rfl, ?_, _, hstore⟩
    show s.off ≤ (store s.mem s.off chunk).length
    omega

/-- The header lines of a body part move `inbufp` behind the string. -/
def BodyCtl.StopsBehind (c : BodyCtl) : Prop :=
  ∀ st s, (c.bodyHeader st s).1.advance = (c.bodyHeader st s).1.text.length

theorem unMimeBodyline_advance {c : BodyCtl} (hc : c.StopsBehind) (soft : Bool) (st : MimeState)
    (s : Bytes) :
    (unMimeBodyline c.bodyHeader c.line.delimited soft st s).1.advance ≤
      (unMimeBodyline c.bodyHeader c.line.delimited soft st s).1.text.length + 1 := by
  have hqp : (doOneQPLine c.line.delimited soft s).advance ≤
      (doOneQPLine c.line.delimited soft s).text.length + 1 := by
    unfold doOneQPLine
    split
    · decide
    · exact Nat.le_succ _
  unfold unMimeBodyline
  cases st.bodyState with
  | hdr => exact Nat.le_succ_of_le (Nat.le_of_eq (hc st s))
  | data =>
    have hbody : ∀ st : MimeState,
        (if st.currEncodingIsQP ∧ st.currTypeNeedsDecode then
          (doOneQPLine c.line.delimited soft s, st) else (⟨s, s.length, false⟩, st)).1.advance ≤
        (if st.currEncodingIsQP ∧ st.currTypeNeedsDecode then
          (doOneQPLine c.line.delimited soft s, st) else
          (⟨s, s.length, false⟩, st)).1.text.length + 1 := by
      intro st
      split
      · exact hqp
      · exact Nat.le_succ _
    exact hbody _

/-- What the decoder makes of the state of the MIME parts does not depend on what goes on. -/
theorem unMimeBodyline_mime (c : BodyCtl) (soft soft' : Bool) (st : MimeState) (s : Bytes) :
    (unMimeBodyline c.bodyHeader c.line.delimited soft st s).2 =
      (unMimeBodyline c.bodyHeader c.line.delimited soft' st s).2 := by
  unfold unMimeBodyline
  cases st.bodyState with
  | hdr => rfl
  | data =>
    dsimp only
    split <;> split <;> rfl

/-- **Decoding.** It takes as much of the buffer as it says. -/
theorem decodeLine_taken {c : BodyCtl} {s : BodyLoop} {line tail : Bytes} (hc : c.StopsBehind)
    (hmem : s.off ≤ s.mem.length) (hs : s.mem.drop s.off = line ++ Bytes.nul :: tail) :
    (decodeLine c s).taken = s.taken.decode c s.mime line ∧
      (decodeLine c s).mime = mimeAfter c s.mime line ∧
      (decodeLine c s).len = s.len ∧ (decodeLine c s).off ≤ (decodeLine c s).mem.length := by
  cases hd : c.decode with
  | false => simpa [decodeLine, Taken.decode, mimeAfter, hd] using hmem
  | true =>
  rw [mimeAfter, if_pos hd, unMimeBodyline_mime c false s.issoftline]
  have hadvance := unMimeBodyline_advance hc s.issoftline s.mime (Bytes.cstr line)
  obtain ⟨r, hr⟩ : ∃ r, unMimeBodyline c.bodyHeader c.line.delimited s.issoftline s.mime
    (Bytes.cstr line) = r := ⟨_, rfl⟩
  rw [hr] at hadvance
  simp only [decodeLine, hd, if_true, hs, cstr_tail, BodyLoop.taken, Taken.decode, hr]
  have hlong := length_store_ge (s := r.1.text) hmem
  by_cases hfull : r.1.soft = true ∧ bufSize < s.off + r.1.advance + 1 + 200
  · -- the soft line break is replaced
    rw [if_pos hfull]
    have hno : ¬ s.off + r.1.advance + 201 ≤ bufSize := by omega
    have hlonger := length_store_ge (s := [Bytes.lf])
      (show s.off + r.1.advance ≤ (store s.mem s.off r.1.text).length by omega)
    refine ⟨by simp [hno], rfl, rfl, ?_⟩
    dsimp only at hlonger ⊢
    omega
  · rw [if_neg hfull]
    refine ⟨?_, rfl, rfl, by dsimp only; omega⟩
    cases hsoft : r.1.soft with
    | false => simp
    | true =>
      have hyes : s.off + r.1.advance + 201 ≤ bufSize := by
        rw [not_and] at hfull
        have := hfull hsoft
        omega
      simp [hyes]

/-- The run that discards finds room for as many lines as the reads of the other say. -/
def Roomy (c : BodyCtl) (lines : Nat) (t f : BodyLoop) : Prop :=
  bodyFits c lines t.taken f.taken f.len f.mime f.stream = true

/-- How an iteration ends in both runs when it has read the same, and what that says about the
lines to come. -/
inductive NextAlike (c : BodyCtl) (lines : Nat) (fits : Prop) : BodyNext → BodyNext → Prop where
  | more {t f : BodyLoop} : Twin t f → (fits ↔ Roomy c lines t f) →
      NextAlike c lines fits (.more t) (.more f)
  | endOfMessage {t f : BodyLoop} : f.stream = t.stream → fits →
      NextAlike c lines fits (.endOfMessage t) (.endOfMessage f)
  | leave {t f : BodyLoop} (err : Ps) : f.stream = t.stream → fits →
      NextAlike c lines fits (.leave err t) (.leave err f)

theorem shipLine_discarding (c : BodyCtl) (f : BodyLoop) :
    shipLine c.discarding f = .more f := by
  simp [shipLine, BodyCtl.discarding]

/-- **Shipping.** It always succeeds, and is done with the buffer. -/
theorem shipLine_forwarding (c : BodyCtl) (t : BodyLoop) :
    ∃ t', shipLine c.forwarding t = .more t' ∧ t'.taken = t.taken.ship ∧ t'.stream = t.stream ∧
      t'.len = t.len ∧ t'.mime = t.mime ∧ (t.off ≤ t.mem.length → t'.off ≤ t'.mem.length) := by
  cases hs : t.issoftline with
  | true =>
    have hgoes : shipLine c.forwarding t = .more t := by simp [shipLine, hs]
    exact ⟨t, hgoes, by simp [BodyLoop.taken, Taken.ship, hs], rfl, rfl, rfl, id⟩
  | false =>
    have hsent : ∃ mem out, shipLine c.forwarding t =
        .more { t with off := 0, mem := mem, out := out } := by
      simp [shipLine, rbSend, BodyCtl.forwarding, hs]
    obtain ⟨mem, out, hsent⟩ := hsent
    exact ⟨_, hsent, by simp [BodyLoop.taken, Taken.ship, Taken.none, hs], rfl, rfl, rfl,
      fun _ => Nat.zero_le _⟩

/-! ## The whole body -/

/-- An iteration whose read succeeds. -/
theorem readbodyStep_filled {c : BodyCtl} {s : BodyLoop} {chunk rest : Bytes}
    (hread : sockRead (bufSize - 4 - s.off) s.stream = some (chunk, rest))
    (hlen : c.line.delimited = true ∨ 0 < s.len) (hmem : s.off ≤ s.mem.length) :
    ∃ last s', last.stream = rest ∧ Filled s (clippedLine c.line.delimited s.len chunk) rest s' ∧
      readbodyStep c s =
        if endOfBody c.line.delimited
            ((clippedLine c.line.delimited s.len chunk).1 ++ [Bytes.nul]) then .endOfMessage last
        else shipLine c (decodeLine c s') := by
  have hfilled := @clipLine_filled c s chunk rest hlen hmem
  obtain ⟨tail, hholds⟩ := hfilled.holds
  refine ⟨{ s with stream := rest, mem := (clipLine c s chunk).1, len := (clipLine c s chunk).2.2 },
    { s with
      stream := rest
      mem := (clipLine c s chunk).1
      len := (clipLine c s chunk).2.2
      msglen := s.msglen - (if c.line.delimited ∧
        ((clipLine c s chunk).1.drop s.off).head? = some Bytes.dot then 1 else 0) +
        (clipLine c s chunk).2.1 }, rfl, ⟨rfl, hfilled.len, rfl, rfl, rfl, hfilled.mem, tail, hholds⟩, ?_⟩
  have hend : endOfBody c.line.delimited ((clipLine c s chunk).1.drop s.off) =
      endOfBody c.line.delimited
        ((clippedLine c.line.delimited s.len chunk).1 ++ [Bytes.nul]) := by
    rw [show (clipLine c s chunk).1.drop s.off = _ from hholds, endOfBody_tail]
  simp only [readbodyStep, hread, hend]

/-- What is returned tells what is left. -/
theorem sockRead_ext {n m : Nat} {stream : Bytes}
    (h : (sockRead n stream).map Prod.fst = (sockRead m stream).map Prod.fst) :
    sockRead n stream = sockRead m stream := by
  cases hn : sockRead n stream with
  | none =>
    rw [hn, Option.map_none, eq_comm, Option.map_eq_none_iff] at h
    exact h.symm
  | some r =>
    rw [hn, Option.map_some, eq_comm, Option.map_eq_some_iff] at h
    obtain ⟨r', hm, hchunk⟩ := h
    have hleft := sockRead_append hn
    rw [sockRead_append hm, hchunk] at hleft
    rw [hm, Prod.ext hchunk (List.append_cancel_left hleft)]

/-- **Step.** One iteration that reads the same in both runs. -/
theorem Twin.step {c : BodyCtl} {lines : Nat} {t f : BodyLoop} (h : Twin t f)
    (hc : c.StopsBehind) (hlen : c.line.delimited = true ∨ 0 < f.len)
    (hsock : sockRead (bufSize - 4 - f.off) f.stream = sockRead (bufSize - 4 - t.off) t.stream) :
    NextAlike c lines (Roomy c (lines + 1) t f) (readbodyStep c.forwarding t)
      (readbodyStep c.discarding f) := by
  have hsame : sockRead (bufSize - 4 - f.taken.bytes) f.stream =
      sockRead (bufSize - 4 - t.taken.bytes) f.stream := by
    rw [h.stream]
    exact h.stream ▸ hsock
  cases hread : sockRead (bufSize - 4 - t.off) t.stream with
  | none =>
    rw [hread] at hsock
    have hfits : Roomy c (lines + 1) t f := by
      have hnone : sockRead (bufSize - 4 - t.taken.bytes) f.stream = none := h.stream ▸ hread
      simp only [Roomy, bodyFits, if_pos hlen, hsame, hnone, decide_true, Bool.and_self]
    simp only [readbodyStep, hread, hsock]
    exact .leave .socket h.stream hfits
  | some r =>
    obtain ⟨chunk, rest⟩ := r
    have hsome : sockRead (bufSize - 4 - t.taken.bytes) f.stream = some (chunk, rest) :=
      h.stream ▸ hread
    obtain ⟨lastT, t₁, hlastT, hfillT, hstepT⟩ :=
      @readbodyStep_filled c.forwarding t _ _ hread (h.len ▸ hlen) h.forwarded
    obtain ⟨lastF, f₁, hlastF, hfillF, hstepF⟩ :=
      @readbodyStep_filled c.discarding f _ _ (hsock.trans hread) hlen h.discarded
    rw [← h.len] at hfillT hstepT
    rw [hstepT, hstepF]
    -- both have the same line in the buffer, so both see the end or neither
    cases hend : endOfBody c.line.delimited
        ((clippedLine c.line.delimited f.len chunk).1 ++ [Bytes.nul]) with
    | true =>
      have hstopT : endOfBody c.forwarding.line.delimited
          ((clippedLine c.forwarding.line.delimited f.len chunk).1 ++ [Bytes.nul]) = true := hend
      have hstopF : endOfBody c.discarding.line.delimited
          ((clippedLine c.discarding.line.delimited f.len chunk).1 ++ [Bytes.nul]) = true := hend
      have hfits : Roomy c (lines + 1) t f := by
        simp only [Roomy, bodyFits, if_pos hlen, hsame, hsome, hend, decide_true, Bool.true_or,
          Bool.and_self]
      rw [if_pos hstopT, if_pos hstopF]
      exact .endOfMessage (hlastF.trans hlastT.symm) hfits
    | false =>
      have hgoT : ¬ endOfBody c.forwarding.line.delimited
          ((clippedLine c.forwarding.line.delimited f.len chunk).1 ++ [Bytes.nul]) = true :=
        Bool.eq_false_iff.mp hend
      have hgoF : ¬ endOfBody c.discarding.line.delimited
          ((clippedLine c.discarding.line.delimited f.len chunk).1 ++ [Bytes.nul]) = true :=
        Bool.eq_false_iff.mp hend
      rw [if_neg hgoT, if_neg hgoF]
      -- each decodes the line behind what it has in its buffer
      obtain ⟨tailT, hholdsT⟩ := hfillT.holds
      obtain ⟨tailF, hholdsF⟩ := hfillF.holds
      obtain ⟨htakenT, hmimeT, hlenT, hmemT⟩ :=
        @decodeLine_taken c.forwarding t₁ _ _ hc hfillT.mem hholdsT
      obtain ⟨htakenF, hmimeF, hlenF, hmemF⟩ :=
        @decodeLine_taken c.discarding f₁ _ _ hc hfillF.mem hholdsF
      obtain ⟨t₂, hship, htaken₂, hstream₂, hlen₂, hmime₂, hmem₂⟩ :=
        shipLine_forwarding c (decodeLine c.forwarding t₁)
      have hstate : t₁.taken = t.taken ∧ f₁.taken = f.taken := by
        simp only [BodyLoop.taken, hfillT.off, hfillT.issoftline, hfillF.off, hfillF.issoftline,
          and_self]
      have htwin : Twin t₂ (decodeLine c.discarding f₁) := by
        refine ⟨?_, ?_, ?_, hmem₂ hmemT, hmemF⟩
        · rw [hstream₂, decodeLine_stream, decodeLine_stream, hfillF.stream, hfillT.stream]
        · rw [hlen₂, hlenT, hlenF, hfillF.len, hfillT.len]
          rfl
        · rw [hmime₂, hmimeT, hmimeF, hfillF.mime, hfillT.mime, h.mime]
          rfl
      rw [hship, shipLine_discarding]
      refine .more htwin ?_
      have hmime' : mimeAfter c f.mime (clippedLine c.line.delimited f.len chunk).1 =
          (decodeLine c.discarding f₁).mime := by
        rw [hmimeF, hfillF.mime]
        rfl
      have hkept : (t.taken.decode c f.mime (clippedLine c.line.delimited f.len chunk).1).ship =
          t₂.taken := by
        rw [htaken₂, htakenT, hstate.1, hfillT.mime, h.mime]
        rfl
      have hused : f.taken.decode c f.mime (clippedLine c.line.delimited f.len chunk).1 =
          (decodeLine c.discarding f₁).taken := by
        rw [htakenF, hstate.2, hfillF.mime]
        rfl
      have hleft : (clippedLine c.line.delimited f.len chunk).2 =
          (decodeLine c.discarding f₁).len := by
        rw [hlenF, hfillF.len]
        rfl
      have hrest : rest = (decodeLine c.discarding f₁).stream := by
        rw [decodeLine_stream, hfillF.stream]
      simp only [Roomy, bodyFits, if_pos hlen, hsame, hsome, hend, decide_true, Bool.true_and,
        Bool.false_or, hmime', hkept, hused, hleft]
      rw [hrest]

theorem flushLine_forwarding (c : BodyCtl) (t : BodyLoop) :
    (flushLine c.forwarding t).1 = .success ∧ (flushLine c.forwarding t).2.stream = t.stream := by
  unfold flushLine rbSend BodyCtl.forwarding
  split <;> exact ⟨rfl, rfl⟩

theorem flushLine_discarding (c : BodyCtl) (f : BodyLoop) :
    flushLine c.discarding f = (.success, f) := by
  simp [flushLine, BodyCtl.discarding]

/-- After the loop, or when the message has ended. -/
theorem flushLine_alike (c : BodyCtl) {t f : BodyLoop} (h : f.stream = t.stream) :
    (flushLine c.discarding f).1 = (flushLine c.forwarding t).1 ∧
      (flushLine c.discarding f).2.stream = (flushLine c.forwarding t).2.stream := by
  rw [flushLine_discarding, (flushLine_forwarding c t).1, (flushLine_forwarding c t).2]
  exact ⟨rfl, h⟩

/-- **Run.** As long as the lines have room, and no longer, the reads are the same, and so is what
the loop comes to. -/
theorem readbodyLoop_alike {c : BodyCtl} (hc : c.StopsBehind) {lines : Nat} {t f : BodyLoop}
    (h : Twin t f) :
    (bodyReads c.discarding lines f = bodyReads c.forwarding lines t ↔ Roomy c lines t f) ∧
      (Roomy c lines t f →
        (readbodyLoop c.discarding lines f).1 = (readbodyLoop c.forwarding lines t).1 ∧
          (readbodyLoop c.discarding lines f).2.stream =
            (readbodyLoop c.forwarding lines t).2.stream) := by
  -- the twins stay twins, as long as they read the same
  induction lines generalizing t f with
  | zero =>
    refine ⟨iff_of_true rfl rfl, fun _ => ?_⟩
    by_cases hlen : c.discarding.line.delimited = true ∨ 0 < f.len
    · have hlenT : c.forwarding.line.delimited = true ∨ 0 < t.len := h.len ▸ hlen
      rw [readbodyLoop, readbodyLoop, if_pos hlen, if_pos hlenT]
      exact ⟨rfl, h.stream⟩
    · have hlenT : ¬ (c.forwarding.line.delimited = true ∨ 0 < t.len) := h.len ▸ hlen
      rw [readbodyLoop, readbodyLoop, if_neg hlen, if_neg hlenT]
      exact flushLine_alike c h.stream
  | succ lines ih =>
    by_cases hlen : c.discarding.line.delimited = true ∨ 0 < f.len
    · have hlenT : c.forwarding.line.delimited = true ∨ 0 < t.len := h.len ▸ hlen
      rw [readbodyLoop, readbodyLoop, bodyReads, bodyReads, if_pos hlen, if_pos hlenT,
        if_pos hlen, if_pos hlenT]
      by_cases hsock : sockRead (bufSize - 4 - f.off) f.stream =
          sockRead (bufSize - 4 - t.off) t.stream
      · have hnext : NextAlike c lines (Roomy c (lines + 1) t f) (readbodyStep c.forwarding t)
            (readbodyStep c.discarding f) := h.step hc hlen hsock
        rw [hsock, List.cons_inj_right]
        generalize Roomy c (lines + 1) t f = fits at hnext ⊢
        generalize readbodyStep c.forwarding t = nextT at hnext ⊢
        generalize readbodyStep c.discarding f = nextF at hnext ⊢
        cases hnext with
        | more h' hfits =>
          rw [hfits]
          exact ih h'
        | endOfMessage hstream hfits =>
          exact ⟨iff_of_true rfl hfits, fun _ => flushLine_alike c hstream⟩
        | leave err hstream hfits => exact ⟨iff_of_true rfl hfits, fun _ => ⟨rfl, hstream⟩⟩
      · -- what is read differs, and the rest of the line as well
        have hno : ¬ Roomy c (lines + 1) t f := by
          intro hfits
          simp only [Roomy, bodyFits, if_pos (show c.line.delimited = true ∨ 0 < f.len from hlen),
            Bool.and_eq_true, decide_eq_true_eq] at hfits
          exact hsock (h.stream ▸ hfits.1)
        refine ⟨iff_of_false (fun hreads => hsock ?_) hno, fun h => absurd h hno⟩
        have hhead := (List.cons.inj hreads).1
        rw [h.stream] at hhead ⊢
        exact sockRead_ext hhead
    · have hlenT : ¬ (c.forwarding.line.delimited = true ∨ 0 < t.len) := h.len ▸ hlen
      have hlenC : ¬ (c.line.delimited = true ∨ 0 < f.len) := hlen
      rw [readbodyLoop, readbodyLoop, bodyReads, bodyReads, if_neg hlen, if_neg hlenT,
        if_neg hlen, if_neg hlenT]
      refine ⟨iff_of_true rfl ?_, fun _ => flushLine_alike c h.stream⟩
      rw [Roomy, bodyFits, if_neg hlenC]

/-- Where nothing is decoded, the buffer stays empty. -/
theorem bodyFits_of_not_decode {c : BodyCtl} (hd : c.decode = false) (lines : Nat) (len : Int)
    (mime : MimeState) (stream : Bytes) :
    bodyFits c lines .none .none len mime stream = true := by
  induction lines generalizing len mime stream with
  | zero => rfl
  | succ lines ih =>
    have hkept : ∀ line, Taken.none.decode c mime line = .none := by
      intro line
      rw [Taken.decode, hd, if_neg Bool.false_ne_true]
    have hship : Taken.none.ship = .none := rfl
    rw [bodyFits]
    split
    · cases sockRead (bufSize - 4 - Taken.none.bytes) stream with
      | none => simp
      | some r => simp [hkept, hship, ih]
    · rfl

/-- Decoding is on, for a message with a body part that is not quoted-printable. -/
def partBody : BodyCtl where
  line := ⟨.socket, true, false, false⟩
  forward := true
  decode := true
  bodyHeader st s := (⟨s, s.length, false⟩, st)
  accepts _ := true

def plainPart : MimeState := ⟨.data, [], false, false⟩

/-- The line that has been read is not decoded, but `inbufp` is behind it. -/
theorem decodeLine_plainPart {c : BodyCtl} {s : BodyLoop} {line tail : Bytes}
    (hd : c.decode = true) (hmime : s.mime = plainPart) (hzero : Bytes.nul ∉ line)
    (hholds : s.mem.drop s.off = line ++ Bytes.nul :: tail) :
    decodeLine c s = { s with
      mem := store s.mem s.off line
      off := s.off + line.length
      issoftline := false
      mime := plainPart } := by
  simp [decodeLine, hd, hholds, cstr_line hzero, hmime, unMimeBodyline, plainPart]

section

variable {text : Bytes}

/-- A line that is as long as the buffer admits, and the end of the message. -/
def fullBody (text : Bytes) : Bytes := text ++ Bytes.lf :: Bytes.lit ".\r\n"

/-- The first iteration, with or without `forward`. -/
theorem readbodyStep_full (htext : Bytes.lf ∉ text) (hzero : Bytes.nul ∉ text)
    (hdot : text.head? ≠ some Bytes.dot) (hlen : text.length = 8190) {c : BodyCtl}
    (hc : c.line = partBody.line) (hd : c.decode = true) (mem : Bytes) :
    ∃ s', s'.stream = Bytes.lit ".\r\n" ∧ s'.issoftline = false ∧ s'.off = 8191 ∧
      readbodyStep c ⟨fullBody text, mem, 0, false, 0, plainPart, 0, []⟩ = shipLine c s' := by
  have hsize : (text ++ [Bytes.lf]).length = 8191 := by
    rw [List.length_append, hlen, List.length_singleton]
  -- the line just fits into the empty buffer
  have hread : sockRead (bufSize - 4 - 0) (fullBody text) =
      some (text ++ [Bytes.lf], Bytes.lit ".\r\n") := by
    have hline := @readUpTo_line 8191 text (Bytes.lit ".\r\n") htext
    rw [List.take_of_length_le (Nat.le_of_eq hsize), List.drop_eq_nil_of_le (Nat.le_of_eq hsize)]
      at hline
    have hroom : bufSize - 4 - 0 - 1 = 8191 := by decide
    rw [sockRead, if_neg (by decide), hroom, fullBody, hline, List.nil_append]
  have hclip : clippedLine c.line.delimited 0 (text ++ [Bytes.lf]) =
      (text ++ [Bytes.lf], -8191) := by
    rw [clippedLine, hc, if_neg (fun h => absurd h.1 (by decide)), hsize]
    rfl
  have hend : endOfBody c.line.delimited (text ++ [Bytes.lf] ++ [Bytes.nul]) = false := by
    cases text with
    | nil => exact absurd hlen (by decide)
    | cons b text =>
      have hb : b ≠ Bytes.dot := fun h => hdot (by rw [h]; rfl)
      simp [endOfBody, hb]
  have hfull : Bytes.nul ∉ text ++ [Bytes.lf] := by
    rw [List.mem_append, List.mem_singleton]
    exact not_or.mpr ⟨hzero, by decide⟩
  obtain ⟨last, s₁, -, hfill, hstep⟩ := @readbodyStep_filled c
    ⟨fullBody text, mem, 0, false, 0, plainPart, 0, []⟩ _ _ hread (.inl (by rw [hc]; rfl))
    (Nat.zero_le _)
  rw [hclip] at hfill hstep
  obtain ⟨tail, hholds⟩ := hfill.holds
  rw [hend, if_neg Bool.false_ne_true, decodeLine_plainPart hd hfill.mime hfull hholds, hsize]
    at hstep
  refine ⟨_, ?_, ?_, ?_, hstep⟩
  · exact hfill.stream
  · rfl
  · rw [hfill.off, Nat.zero_add]

/-- The line is shipped, and the next one ends the message. -/
theorem readbody_forwarding_full (htext : Bytes.lf ∉ text) (hzero : Bytes.nul ∉ text)
    (hdot : text.head? ≠ some Bytes.dot) (hlen : text.length = 8190) :
    (readbody partBody.forwarding (fullBody text) [] 0 plainPart 0).1 = .success := by
  obtain ⟨s', hstream, hhard, -, hstep⟩ :=
    @readbodyStep_full text htext hzero hdot hlen partBody.forwarding rfl rfl []
  have hsent : ∃ mem out, shipLine partBody.forwarding s' =
      .more { s' with off := 0, mem := mem, out := out } := by
    simp [shipLine, rbSend, BodyCtl.forwarding, hhard]
  obtain ⟨mem, out, hsent⟩ := hsent
  rw [readbody, runBody_step _ (.inl rfl), hstep, hsent]
  simp only
  rw [runBody_step _ (.inl rfl)]
  have hread : sockRead (bufSize - 4 - 0) s'.stream = some (Bytes.lit ".\r\n", []) := by
    rw [hstream]
    decide +kernel
  obtain ⟨last, s₂, hlast, -, hstep₂⟩ := @readbodyStep_filled partBody.forwarding
    { s' with off := 0, mem := mem, out := out } _ _ hread (.inl rfl) (Nat.zero_le _)
  have hend : endOfBody partBody.forwarding.line.delimited
      ((clippedLine partBody.forwarding.line.delimited s'.len (Bytes.lit ".\r\n")).1 ++
        [Bytes.nul]) = true := by
    simp only [clippedLine, BodyCtl.forwarding, partBody, Bool.true_eq_false, false_and, if_false]
    decide
  rw [hstep₂, if_pos hend]
  exact (flushLine_forwarding partBody last).1

/-- There is no room for the next line. -/
theorem readbody_discarding_full (htext : Bytes.lf ∉ text) (hzero : Bytes.nul ∉ text)
    (hdot : text.head? ≠ some Bytes.dot) (hlen : text.length = 8190) :
    (readbody partBody.discarding (fullBody text) [] 0 plainPart 0).1 = .socket := by
  obtain ⟨s', -, -, hoff, hstep⟩ :=
    @readbodyStep_full text htext hzero hdot hlen partBody.discarding rfl rfl []
  have hnone : readbodyStep partBody.discarding s' = .leave .socket s' := by
    have hroom : sockRead (bufSize - 4 - s'.off) s'.stream = none := by
      rw [hoff]
      rfl
    simp only [readbodyStep, hroom]
  rw [readbody, runBody_step _ (.inl rfl), hstep, shipLine_discarding]
  simp only
  rw [runBody_step _ (.inl rfl), hnone]

end

end Fetchmail.Transact
