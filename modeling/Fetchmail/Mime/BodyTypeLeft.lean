import Fetchmail.Mime.BodyTypeOrder

/-!
# Headers that Run into the Next

A header that `nxtaddr` leaves is read in what follows. Two other headers, which it does not leave,
make a block with it that is read one way or another by the order.
-/

namespace Fetchmail.Mime

open Fetchmail.Lib Fetchmail.Rfc822

variable {bufsiz : Nat} {b : UInt8} {s f : Bytes} {v w : AddrVars} {fs : List Bytes}

/-! ## A header that is left -/

/-- A loop that gets behind the line end has taken it as an escaped character, outside a comment. -/
theorem visits_taken {hp : Bytes} {r : Region} (h : Visits bufsiz s v hp w) (hhp : hp = [])
    (hclosed : Closed s) (hfits : r.Fits v) :
    ∃ r' : Region, r'.Fits w ∧ w.state ≠ .insideParens := by
  induction h generalizing r with
  | here =>
    subst hhp
    exact absurd hclosed not_closed_nil
  | step hstate hend hb hgo _ ih =>
    rcases hclosed.cases with ⟨rfl, rfl⟩ | ⟨-, hclosed⟩
    · exact absurd hend (by decide)
    · exact ih hhp hclosed (switchStep_fits hfits hgo)
  | @escape c s hp v v'' hstate hparens hvisits ih =>
    rcases hclosed.cases with ⟨hlf, -⟩ | ⟨-, hclosed⟩
    · exact absurd hlf (by decide)
    rcases hclosed.cases with ⟨-, rfl⟩ | ⟨-, hclosed⟩
    -- nothing is left, and the state is what it was
    · subst hhp
      cases hvisits
      exact ⟨r, hfits.address _, hparens⟩
    · exact ih hhp hclosed (hfits.address _)
  | comment hparens _ ih =>
    rcases hclosed.cases with ⟨hlf, -⟩ | ⟨-, hclosed⟩
    · exact absurd hlf (by decide)
    · exact ih hhp hclosed hfits

/-- A header that is left has no address of its own: it is read in what follows. -/
theorem fieldValue_left (hf : IsField f) (hleft : ¬Stays bufsiz f) : fieldValue bufsiz f = none ∧
    ∃ (r : Region) (w : AddrVars), r.Fits w ∧ w.state ≠ .insideParens ∧
      ∀ rest, Begins rest →
        nxtLoop bufsiz (f ++ rest) startVars = nxtLoop bufsiz rest w := by
  obtain ⟨hp, w, hvisits, hends⟩ := @nxtLoop_ends bufsiz f startVars
  have hover := @nxtLoop_ne_overread bufsiz f startVars (Closed.getLast? hf.ended)
  have hnil : (nxtLoop bufsiz f startVars).2.1 = [] := not_not.mp hleft
  rw [fieldValue]
  generalize nxtLoop bufsiz f startVars = result at hends hover hnil
  cases hends with
  | nul =>
    obtain ⟨r, hfits, hparens⟩ := @visits_taken bufsiz _ _ _ _ .name hvisits rfl hf.ended rfl
    exact ⟨rfl, r, w, hfits, hparens, fun rest hrest => visits_append hvisits hrest⟩
  | overread => exact absurd rfl hover
  | finished => cases hnil
  | header => split at hnil <;> cases hnil
  | @ret b s' address behind _ _ hstate hend hb hret =>
    dsimp only at hnil
    split at hnil
    -- the bracket that ends the address would be the last character
    · subst hnil
      obtain ⟨front, rfl⟩ := visits_suffix hvisits
      have hlast := Closed.getLast? hf.ended
      rw [List.getLast?_concat] at hlast
      obtain rfl := Option.some.inj hlast
      exact absurd hend (by decide)
    · cases hnil

/-- The states in which a bracket begins an address. -/
inductive Opens : HdrState → Prop where
  | outside {st : HdrState} (h : Outside st) : Opens st
  | insideBrackets : Opens .insideBrackets

theorem Opens.langle {st : HdrState} (h : Opens st) (acc : Bytes) :
    Passes bufsiz st acc [Rfc822.langle] .insideBrackets [] := by
  cases h with
  | outside hst => exact .langle hst acc
  | insideBrackets => exact .char (by decide) (by decide) (by decide) fun o d => ⟨o, d, rfl⟩

theorem Opens.plain {st : HdrState} (h : Opens st) (hb : PlainChar b) (acc : Bytes) :
    ∃ st', Opens st' ∧ Passes bufsiz st acc [b] st' (nexttp bufsiz acc b) := by
  cases h with
  | outside hst => exact ⟨.bareAddress, .outside .bareAddress, .plain hb hst acc⟩
  | insideBrackets => exact ⟨.insideBrackets, .insideBrackets, .plain_insideBrackets hb acc⟩

theorem passes_plain {t : Bytes} (ht : ∀ b ∈ t, PlainChar b) (acc : Bytes) :
    Passes bufsiz .insideBrackets acc t .insideBrackets (putAll bufsiz acc t) := by
  induction t generalizing acc with
  | nil => exact .nil _ _
  | cons b t ih =>
    rw [List.forall_mem_cons] at ht
    exact (Passes.plain_insideBrackets ht.1 acc).cons (ih ht.2 _)

/-- The address in brackets is returned, whatever was collected before. -/
theorem Opens.reads {st : HdrState} (h : Opens st) {t : Bytes} (ht : ∀ b ∈ t, PlainChar b)
    (hroom : t.length < bufsiz) (s acc : Bytes) (o : HdrState) (d : Int) : ∃ w,
      nxtLoop bufsiz (Rfc822.langle :: (t ++ rangle :: s)) ⟨st, o, acc, d⟩ =
        (.address t, s, w) := by
  have hpass : Passes bufsiz st acc (Rfc822.langle :: t) .insideBrackets (putAll bufsiz [] t) :=
    (h.langle acc).cons (passes_plain ht [])
  obtain ⟨o', d', heq⟩ := hpass (rangle :: s) o d
  refine ⟨⟨.skipJunk, o', [], d'⟩, ?_⟩
  rw [← List.cons_append, heq, nxtLoop_rangle, putAll_fits (by rwa [List.length_nil, Nat.zero_add]),
    List.nil_append]

/-- A header with the text in brackets, within a quoted string and behind one. -/
def decoy (t : Bytes) : Bytes :=
  88 :: colon :: langle :: (t ++ rangle :: dquote :: langle :: (t ++ [rangle, Bytes.lf]))

theorem quotedText_of_forall {q : Bytes}
    (h : ∀ b ∈ q, b ≠ dquote ∧ b ≠ backslash ∧ b ≠ Bytes.lf) : QuotedText q := by
  induction q with
  | nil => exact .nil
  | cons b q ih =>
    rw [List.forall_mem_cons] at h
    exact .char h.1.1 h.1.2.1 h.1.2.2 (ih h.2)

/-- Whatever the loop is in but a comment, it reads the text. -/
theorem nxtLoop_decoy {t : Bytes} (ht : ∀ b ∈ t, PlainChar b) (hroom : t.length < bufsiz)
    {r : Region} (hfits : r.Fits v) (hparens : v.state ≠ .insideParens) (rest : Bytes) :
    (nxtLoop bufsiz (decoy t ++ rest) v).1 = .address t := by
  obtain ⟨st, o, acc, d⟩ := v
  have hletter : PlainChar 88 := by constructor <;> decide
  have hcolon : PlainChar colon := by constructor <;> decide
  -- behind the letter and the colon, the bracket begins the address
  have hgoes : ∀ {st' acc'}, Opens st' → Passes bufsiz st acc [88, colon] st' acc' →
      (nxtLoop bufsiz (decoy t ++ rest) ⟨st, o, acc, d⟩).1 = .address t := by
    intro st' acc' hopens hpass
    have htext : decoy t ++ rest = [88, colon] ++ (langle :: (t ++ rangle ::
        (dquote :: langle :: (t ++ [rangle, Bytes.lf]) ++ rest))) := by
      simp [decoy]
    obtain ⟨o', d', heq⟩ := hpass (langle :: (t ++ rangle ::
      (dquote :: langle :: (t ++ [rangle, Bytes.lf]) ++ rest))) o d
    obtain ⟨w, hreads⟩ := hopens.reads ht hroom
      (dquote :: langle :: (t ++ [rangle, Bytes.lf]) ++ rest) acc' o' d'
    rw [htext, heq, hreads]
  have hopen : Opens st → (nxtLoop bufsiz (decoy t ++ rest) ⟨st, o, acc, d⟩).1 = .address t := by
    intro hopens
    obtain ⟨st₁, hopens₁, hfirst⟩ := hopens.plain hletter acc
    obtain ⟨st₂, hopens₂, hsecond⟩ := hopens₁.plain hcolon (nexttp bufsiz acc 88)
    exact hgoes hopens₂ (hfirst.cons hsecond)
  cases r with
  | name =>
    obtain rfl : st = .startHdr := hfits
    have hfirst : Passes bufsiz .startHdr acc [88] .startHdr acc :=
      .char (by decide) (by decide) (by decide) fun o d => ⟨o, d, rfl⟩
    have hsecond : Passes bufsiz .startHdr acc [colon] .skipJunk acc :=
      .char (by decide) (by decide) (by decide) fun o d => ⟨o, d, rfl⟩
    exact hgoes (.outside .skipJunk) (hfirst.cons hsecond)
  | list =>
    obtain rfl | rfl : st = .skipJunk ∨ st = .bareAddress := hfits
    · exact hopen (.outside .skipJunk)
    · exact hopen (.outside .bareAddress)
  | angle =>
    obtain rfl : st = .insideBrackets := hfits
    exact hopen .insideBrackets
  | quote inAngle =>
    obtain ⟨hstate, hold⟩ : st = .insideDquote ∧
      if inAngle then o = .insideBrackets else inList o := hfits
    subst hstate
    have hopens : Opens o := by
      split at hold
      · rw [hold]
        exact .insideBrackets
      · rcases hold with hold | hold <;> rw [hold]
        · exact .outside .skipJunk
        · exact .outside .bareAddress
    have hquoted : QuotedText (88 :: colon :: langle :: (t ++ [rangle])) := by
      refine .char (by decide) (by decide) (by decide) <|
        .char (by decide) (by decide) (by decide) <|
        .char (by decide) (by decide) (by decide) <| quotedText_of_forall fun b hb => ?_
      rcases List.mem_append.mp hb with hb | hb
      · exact ⟨(ht b hb).dquote, (ht b hb).backslash, (ht b hb).lf⟩
      · rw [List.mem_singleton.mp hb]
        decide
    have htext : decoy t ++ rest = (88 :: colon :: langle :: (t ++ [rangle])) ++
        dquote :: (langle :: (t ++ rangle :: (Bytes.lf :: rest))) := by
      simp [decoy]
    -- the first brackets are quoted, the others are behind the closing quote
    obtain ⟨w, hreads⟩ := hopens.reads ht hroom (Bytes.lf :: rest)
      (putAll bufsiz acc ((88 :: colon :: langle :: (t ++ [rangle])) ++ [dquote])) o d
    rw [htext, hquoted.loop, hreads]
  | comment depth => exact absurd hfits.1 hparens

/-- What the header says, if the body is eight-bit text. -/
def eightBit : Kind → Bytes
  | .transferEncoding => Bytes.lit "8bit"
  | .contentType => Bytes.lit "text/plain"
  | .mimeVersion => Bytes.lit "1.0"

/-- The header that says so, in brackets. -/
def bracketField (k : Kind) : Bytes :=
  (fieldName k ++ [colon]) ++ langle :: (eightBit k ++ [rangle, Bytes.lf])

/-- The other kind that `nxtaddr` is called for. -/
def otherKind : Kind → Kind
  | .mimeVersion => .transferEncoding
  | _ => .mimeVersion

/-- The header, with one that it is read on in, and the other one that counts. -/
def exposing (k : Kind) (f : Bytes) : List Bytes :=
  [f, decoy (eightBit k), bracketField (otherKind k)]

theorem decoy_field (k : Kind) :
    IsField (decoy (eightBit k)) ∧ kind (decoy (eightBit k)) = none := by
  cases k <;>
    exact ⟨⟨by decide +kernel, ⟨by decide +kernel, by decide +kernel⟩, by decide +kernel⟩,
      by decide +kernel⟩

theorem bracketField_field (k : Kind) :
    IsField (bracketField k) ∧ kind (bracketField k) = some k := by
  cases k <;>
    exact ⟨⟨by decide +kernel, ⟨by decide +kernel, by decide +kernel⟩, by decide +kernel⟩,
      by decide +kernel⟩

theorem plainChar_eightBit (k : Kind) (hk : k ≠ .contentType) : ∀ b ∈ eightBit k, PlainChar b := by
  have hall : ∀ b ∈ eightBit k, atomChar b = true ∨ b = Bytes.dot ∨ b = 64 := by
    cases k with
    | contentType => exact absurd rfl hk
    | transferEncoding | mimeVersion => decide +kernel
  exact fun b hb => plainChar (hall b hb)

theorem length_eightBit (k : Kind) (hk : k ≠ .contentType) : (eightBit k).length ≤ 4 := by
  cases k with
  | contentType => exact absurd rfl hk
  | transferEncoding | mimeVersion => decide

theorem nxtLoop_bracketField {k : Kind} (hk : k ≠ .contentType) (hbuf : 4 < bufsiz) : ∃ w,
    nxtLoop bufsiz (bracketField k) startVars = (.address (eightBit k), [Bytes.lf], w) := by
  have hname : ∀ b ∈ fieldName k, b ≠ colon ∧ b ≠ backslash ∧ b ≠ Bytes.lf := by
    cases k <;> decide +kernel
  obtain ⟨o, d, hpass⟩ := Passes.name hname
    (langle :: (eightBit k ++ [rangle, Bytes.lf])) .startHdr 0
  rw [bracketField, startVars, hpass]
  exact Opens.reads (.outside .skipJunk) (plainChar_eightBit k hk)
    (Nat.lt_of_le_of_lt (length_eightBit k hk) hbuf) [Bytes.lf] [] o d

/-- What is found in three headers. -/
theorem get_three {a b c : Bytes} (ha : IsField a) (hb : IsField b) (j : Kind) :
    (Found.addAll bufsiz 0 [a, b, c] ⟨none, none, none, none, 0⟩).get j =
      (if kind c = some j then fieldText bufsiz j c else none).or
        ((if kind b = some j then fieldText bufsiz j (b ++ c) else none).or
          (if kind a = some j then fieldText bufsiz j (a ++ (b ++ c)) else none)) := by
  have hnone : Found.get j ⟨none, none, none, none, 0⟩ = none := by
    cases j <;> rfl
  simp only [Found.addAll, get_add, List.flatten_cons, List.flatten_nil, List.append_nil,
    kind_append (Closed.lf_mem ha.ended), kind_append (Closed.lf_mem hb.ended), hnone]
  split <;> split <;> split <;> simp

theorem mimeBodyType_bodyType {wantDecode : Bool} {r : BodyType} {statics : AddrStatics}
    (hfields : ∀ f ∈ fs, IsField f) (hunique : ∀ k, fs.countP (fun f => kind f = some k) ≤ 1)
    (hr : mimeBodyType bufsiz statics fs.flatten wantDecode = some r) :
    r.bodyType = (verdict wantDecode
      ((Found.addAll bufsiz 0 fs ⟨none, none, none, none, 0⟩).get .transferEncoding)
      ((Found.addAll bufsiz 0 fs ⟨none, none, none, none, 0⟩).get .contentType)
      ((Found.addAll bufsiz 0 fs ⟨none, none, none, none, 0⟩).get .mimeVersion)).bodyType := by
  rw [mimeBodyType, scan_found hfields hunique, Option.bind_some] at hr
  dsimp only at hr
  split at hr
  · obtain ⟨hdrs, -, rfl⟩ := Option.map_eq_some_iff.mp hr
    rfl
  · rw [← Option.some.inj hr]
    rfl

theorem verdict_no_encoding (wantDecode : Bool) (mimeVer : Option Bytes) :
    (verdict wantDecode none none mimeVer).bodyType = 0 := by
  rw [verdict]
  split <;> rfl

theorem verdict_no_version (wantDecode : Bool) (xferEnc cntType : Option Bytes) :
    (verdict wantDecode xferEnc cntType none).bodyType = 0 := by
  rw [verdict, if_pos (Option.some_ne_none _).symm]

/-- The block says that the body is eight-bit text, but not if it is turned round. -/
theorem exposing_not_intact {k : Kind} (hk : k ≠ .contentType) (hbuf : 4 < bufsiz)
    (wantDecode : Bool) (hf : IsField f) (hkind : kind f = some k) (hleft : ¬Stays bufsiz f)
    (hfields : ∀ f' ∈ exposing k f, IsField f')
    (hunique : ∀ k', (exposing k f).countP (fun f => kind f = some k') ≤ 1) :
    ¬Intact bufsiz wantDecode (exposing k f) := by
  obtain ⟨hdecoy, hnone⟩ := decoy_field k
  obtain ⟨hother, hsome⟩ := bracketField_field (otherKind k)
  obtain ⟨halone, r, v, hfits, hparens, hrest⟩ := fieldValue_left hf hleft
  have hbegins : Begins (decoy (eightBit k) ++ bracketField (otherKind k)) :=
    ⟨fun h => absurd (Option.some.inj h) (by decide),
      fun h => absurd (Option.some.inj h) (by decide)⟩
  -- what follows is read as the value of the header
  have hread : fieldValue bufsiz (f ++ (decoy (eightBit k) ++ bracketField (otherKind k))) =
      some (eightBit k) := by
    have hdecoyed := nxtLoop_decoy (plainChar_eightBit k hk)
      (Nat.lt_of_le_of_lt (length_eightBit k hk) hbuf) hfits hparens (bracketField (otherKind k))
    rw [fieldValue, hrest _ hbegins, hdecoyed]
  have hvalue : fieldValue bufsiz (bracketField (otherKind k)) = some (eightBit (otherKind k)) := by
    obtain ⟨w, hloop⟩ := @nxtLoop_bracketField bufsiz (otherKind k) (by cases k <;> decide) hbuf
    rw [fieldValue, hloop]
  -- turned round, nothing follows the header, and it has no value
  intro hintact
  obtain ⟨result, hresult, horder, -⟩ := hintact ⟨none, startVars⟩
  obtain ⟨result', hresult', hbody, -⟩ := horder (exposing k f).reverse ⟨none, startVars⟩
    (List.reverse_perm _).symm
  have hperm := List.reverse_perm (exposing k f)
  rw [mimeBodyType_bodyType hfields hunique hresult,
    mimeBodyType_bodyType (fun f' hf' => hfields f' (hperm.mem_iff.mp hf'))
      (fun k' => by rw [hperm.countP_eq]; exact hunique k') hresult'] at hbody
  have hturned : (exposing k f).reverse = [bracketField (otherKind k), decoy (eightBit k), f] := rfl
  rw [hturned, exposing] at hbody
  simp only [get_three hf hdecoy, get_three hother hdecoy, hnone, hsome, hkind] at hbody
  cases k with
  | contentType => exact hk rfl
  | transferEncoding =>
    simp only [otherKind] at hread hvalue hbody
    simp [fieldText, hread, hvalue, halone, verdict_no_encoding] at hbody
    cases wantDecode <;> exact absurd hbody (by decide +kernel)
  | mimeVersion =>
    simp only [otherKind] at hread hvalue hbody
    simp [fieldText, hread, hvalue, halone, verdict_no_version] at hbody
    cases wantDecode <;> exact absurd hbody (by decide +kernel)

/-- **A header that is left shows** in a block with two others that are not. -/
theorem exists_not_intact (hbuf : 4 < bufsiz) (wantDecode : Bool) (hf : IsField f)
    (hunsteady : ¬Steady bufsiz f) : ∃ fs, f ∈ fs ∧ (∀ f' ∈ fs, IsField f') ∧
      (∀ k, fs.countP (fun f => kind f = some k) ≤ 1) ∧
      (∀ f' ∈ fs, f' ≠ f → Steady bufsiz f') ∧ ¬Intact bufsiz wantDecode fs := by
  obtain ⟨hkinds, hleft⟩ := Classical.not_imp.mp hunsteady
  obtain ⟨k, hk, hkind⟩ : ∃ k, k ≠ .contentType ∧ kind f = some k := by
    rcases hkinds with hkind | hkind
    · exact ⟨.transferEncoding, by decide, hkind⟩
    · exact ⟨.mimeVersion, by decide, hkind⟩
  obtain ⟨hdecoy, hnone⟩ := decoy_field k
  obtain ⟨hother, hsome⟩ := bracketField_field (otherKind k)
  have hfields : ∀ f' ∈ exposing k f, IsField f' := by
    simp only [exposing, List.forall_mem_cons]
    exact ⟨hf, hdecoy, hother, fun _ h => absurd h List.not_mem_nil⟩
  have hunique : ∀ k', (exposing k f).countP (fun f => kind f = some k') ≤ 1 := by
    intro k'
    simp only [exposing, List.countP_cons, List.countP_nil, hkind, hnone, hsome]
    cases k <;> cases k' <;> decide
  refine ⟨exposing k f, List.mem_cons_self, hfields, hunique, ?_,
    exposing_not_intact hk hbuf wantDecode hf hkind hleft hfields hunique⟩
  simp only [exposing, List.forall_mem_cons]
  refine ⟨fun h => absurd rfl h, fun _ h => ?_, fun _ _ => ?_, fun _ h => absurd h List.not_mem_nil⟩
  · rw [hnone] at h
    rcases h with h | h <;> cases h
  · obtain ⟨w, hloop⟩ := @nxtLoop_bracketField bufsiz (otherKind k) (by cases k <;> decide) hbuf
    rw [Stays, hloop]
    exact List.cons_ne_nil _ _

/-- **A block is intact if `nxtaddr` does not get from one of its headers into the next**; and every
header that it does get out of spoils a block in which the others are as they should be. -/
theorem mimeBodyType_intact (bufsiz : Nat) (wantDecode : Bool) :
    (∀ fs, IsBlock bufsiz fs → Intact bufsiz wantDecode fs) ∧
      (4 < bufsiz → ∀ f, IsField f → ¬Steady bufsiz f → ∃ fs, f ∈ fs ∧ (∀ f' ∈ fs, IsField f') ∧
        (∀ k, fs.countP (fun f => kind f = some k) ≤ 1) ∧
        (∀ f' ∈ fs, f' ≠ f → Steady bufsiz f') ∧ ¬Intact bufsiz wantDecode fs) :=
  ⟨fun _ h => h.intact, fun hbuf _ hf hunsteady => exists_not_intact hbuf wantDecode hf hunsteady⟩

instance (f : Bytes) : Decidable (Steady bufsiz f) := inferInstanceAs (Decidable (_ → _))

/-- A block whose encoding is patched. -/
def textBlock : List Bytes :=
  [Bytes.lit "Content-Type: text/plain;\n charset=utf-8\n", Bytes.lit "Subject: x\n",
    Bytes.lit "MIME-Version: 1.0\n", Bytes.lit "Content-Transfer-Encoding: quoted-printable\n"]

theorem mimeBodyType_intact_text : Intact 8192 true textBlock := by
  refine (mimeBodyType_intact 8192 true).1 textBlock
    ⟨fun f hf => ?_, fun k => by cases k <;> decide +kernel, ?_⟩
  · simp only [textBlock, List.mem_cons, List.not_mem_nil, or_false] at hf
    rcases hf with rfl | rfl | rfl | rfl <;>
      exact ⟨by decide +kernel, ⟨by decide +kernel, by decide +kernel⟩, by decide +kernel⟩
  · decide +kernel

/-- A version that ends in a backslash, and a header with an address in brackets. -/
def escapedBlock : List Bytes :=
  [Bytes.lit "MIME-Version: \\\n", Bytes.lit "X: <1.0>\n",
    Bytes.lit "Content-Transfer-Encoding: 8bit\n"]

/-- The backslash takes the line end, and the version is read in the next header. If the version and
the encoding are exchanged, there is no next header. -/
theorem mimeBodyType_escaped_version : (∀ f ∈ escapedBlock, IsField f) ∧
    (∀ k, escapedBlock.countP (fun f => kind f = some k) ≤ 1) ∧
    ¬Intact 8192 true escapedBlock := by
  refine ⟨fun f hf => ?_, fun k => by cases k <;> decide +kernel, fun h => ?_⟩
  · simp only [escapedBlock, List.mem_cons, List.not_mem_nil, or_false] at hf
    rcases hf with rfl | rfl | rfl <;>
      exact ⟨by decide +kernel, ⟨by decide +kernel, by decide +kernel⟩, by decide +kernel⟩
  · obtain ⟨r, hr, horder, -⟩ := h ⟨none, startVars⟩
    obtain ⟨r', hr', hbody, -⟩ := horder escapedBlock.reverse ⟨none, startVars⟩
      (List.reverse_perm _).symm
    have hone : (mimeBodyType 8192 ⟨none, startVars⟩ escapedBlock.flatten true).map
        BodyType.bodyType = some 2 := by
      decide +kernel
    have htwo : (mimeBodyType 8192 ⟨none, startVars⟩ escapedBlock.reverse.flatten true).map
        BodyType.bodyType = some 0 := by
      decide +kernel
    rw [hr, Option.map_some] at hone
    rw [hr', Option.map_some, hbody, hone] at htwo
    exact absurd htwo (by decide)

end Fetchmail.Mime
