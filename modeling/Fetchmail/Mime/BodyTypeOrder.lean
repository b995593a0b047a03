import Fetchmail.Mime.BodyType

/-!
# The Order of the Headers of a Body

On headers that `nxtaddr` does not leave, `MimeBodyType` finds the same in any order, and what it
patches lies in one of them.
-/

namespace Fetchmail.Mime

open Fetchmail.Lib Fetchmail.Rfc822

variable {bufsiz : Nat} {b : UInt8} {s rest f : Bytes} {v w : AddrVars} {fs : List Bytes}

/-! ## A header and what follows it -/

/-- The header ends at the last byte. -/
def Closed (s : Bytes) : Prop := headerText s ++ [Bytes.lf] = s

/-- What follows does not continue the header. -/
def Begins (s : Bytes) : Prop := s.head? ≠ some Bytes.space ∧ s.head? ≠ some Bytes.tab

theorem headerEnd_append (h : Begins rest) : headerEnd (b :: (s ++ rest)) = headerEnd (b :: s) := by
  cases s with
  | cons c s => rfl
  | nil =>
    by_cases hb : b = Bytes.lf
    · rw [hb, List.nil_append, headerEnd_begins h]
      rfl
    · rw [headerEnd_of_ne hb, headerEnd_of_ne hb]

theorem Closed.cases (h : Closed (b :: s)) :
    (b = Bytes.lf ∧ s = []) ∨ (headerEnd (b :: s) = false ∧ Closed s) := by
  rw [Closed, headerText] at h
  cases hend : headerEnd (b :: s) with
  | true =>
    rw [hend, if_pos rfl, List.nil_append, List.cons.injEq] at h
    exact .inl ⟨h.1.symm, h.2.symm⟩
  | false =>
    rw [hend, if_neg Bool.false_ne_true, List.cons_append, List.cons_inj_right] at h
    exact .inr ⟨rfl, h⟩

theorem not_closed_nil : ¬Closed [] := fun h => by cases h

theorem Closed.getLast? (h : Closed s) : s.getLast? = some Bytes.lf := by
  rw [← h, List.getLast?_concat]

/-! ## The address does not depend on what follows -/

/-- The variables are the same, but for an old state that is not needed. -/
def Agree (v w : AddrVars) : Prop :=
  ∃ o, w = { v with oldstate := o } ∧
    (v.state = .insideDquote ∨ v.state = .insideParens → o = v.oldstate)

theorem Agree.state (h : Agree v w) : w.state = v.state := by
  obtain ⟨o, rfl, -⟩ := h
  rfl

theorem Agree.address (h : Agree v w) : w.address = v.address := by
  obtain ⟨o, rfl, -⟩ := h
  rfl

theorem Agree.put (h : Agree v w) (address : Bytes) :
    Agree { v with address := address } { w with address := address } := by
  obtain ⟨o, rfl, ho⟩ := h
  exact ⟨o, rfl, ho⟩

/-- Both steps go on, or return the same. -/
inductive SameStep : NxtStep → NxtStep → Prop where
  | go {v w : AddrVars} (h : Agree v w) : SameStep (.go v) (.go w)
  | ret (s : Bytes) (behind : Bool) (v w : AddrVars) : SameStep (.ret s behind v) (.ret s behind w)

theorem bareStep_agree (h : Agree v w) (hstate : v.state = .bareAddress) :
    SameStep (bareStep bufsiz b v) (bareStep bufsiz b w) := by
  obtain ⟨o, rfl, -⟩ := h
  unfold bareStep
  repeat' split
  all_goals first
    | exact .ret _ _ _ _
    | exact .go ⟨o, rfl, by simp [hstate]⟩
    | exact .go ⟨_, rfl, fun _ => rfl⟩

theorem switchStep_agree (h : Agree v w) :
    SameStep (switchStep bufsiz b v) (switchStep bufsiz b w) := by
  obtain ⟨o, rfl, ho⟩ := h
  obtain ⟨state, oldstate, address, parendepth⟩ := v
  unfold switchStep
  cases state with
  | bareAddress => exact bareStep_agree ⟨o, rfl, ho⟩ rfl
  | insideDquote | insideParens =>
    obtain rfl : o = oldstate := ho (by simp)
    exact .go ⟨_, rfl, fun _ => rfl⟩
  | startHdr | skipJunk | insideBrackets | enditAll =>
    dsimp only
    repeat' split
    all_goals first
      | exact .ret _ _ _ _
      | exact bareStep_agree ⟨o, rfl, by simp⟩ rfl
      | exact .go ⟨o, rfl, by simp⟩
      | exact .go ⟨_, rfl, fun _ => rfl⟩

theorem nxtLoop_comment (hparens : v.state = .insideParens) :
    nxtLoop bufsiz (backslash :: s) v = nxtLoop bufsiz s v := by
  rw [nxtLoop.eq_def]
  simp only
  rw [if_neg (by simp [hparens]), headerEnd_of_ne (by decide), if_neg Bool.false_ne_true,
    if_pos trivial, if_neg (by simp [hparens])]

/-- The old state is set before it is used. -/
theorem nxtLoop_agree (h : Agree v w) : (nxtLoop bufsiz s w).1 = (nxtLoop bufsiz s v).1 := by
  -- the cases of the loop, in which the state and the address are the same
  induction s, v using nxtLoop.induct bufsiz generalizing w with
  | case1 v => rfl
  | case2 b s v hstate => rw [nxtLoop_endit hstate, nxtLoop_endit (h.state.trans hstate)]
  | case3 b s v hstate hend haddress =>
    rw [nxtLoop_end hstate hend, nxtLoop_end (by rwa [h.state]) hend, h.address]
    split <;> rfl
  | case4 b s v hstate hend haddress =>
    rw [nxtLoop_end hstate hend, nxtLoop_end (by rwa [h.state]) hend, h.address]
    split <;> rfl
  | case5 v hstate hparens hend =>
    have hrun : ∀ {v : AddrVars}, v.state ≠ .enditAll → v.state ≠ .insideParens →
        nxtLoop bufsiz [backslash] v = (.overread, [], v) := by
      intro v hstate hparens
      rw [nxtLoop, if_neg hstate, if_neg hend, if_pos rfl, if_pos hparens]
    rw [hrun hstate hparens, hrun (by rwa [h.state]) (by rwa [h.state])]
  | case6 v hstate hparens c s hend ih =>
    rw [nxtLoop_escape hstate hparens, nxtLoop_escape (by rwa [h.state]) (by rwa [h.state]),
      h.address]
    exact ih (h.put _)
  | case7 s v hstate hparens hend ih =>
    have hparens := not_not.mp hparens
    rw [nxtLoop_comment hparens, nxtLoop_comment (h.state.trans hparens)]
    exact ih h
  | case8 b s v hstate hend hb v' hgo ih =>
    have hfalse : headerEnd (b :: s) = false := by simpa using hend
    have hsame := @switchStep_agree bufsiz b v w h
    rw [nxtLoop_cons hstate hfalse hb, nxtLoop_cons (by rwa [h.state]) hfalse hb, hgo]
    rw [hgo] at hsame
    generalize switchStep bufsiz b w = step at hsame
    cases hsame with
    | go hagree => exact ih hagree
  | case9 b s v hstate hend hb address behind v' hret =>
    have hfalse : headerEnd (b :: s) = false := by simpa using hend
    have hsame := @switchStep_agree bufsiz b v w h
    rw [nxtLoop_cons hstate hfalse hb, nxtLoop_cons (by rwa [h.state]) hfalse hb, hret]
    rw [hret] at hsame
    generalize switchStep bufsiz b w = step at hsame
    cases hsame
    rfl

/-- What the loop does with a text does not depend on what follows. -/
theorem visits_append {hp : Bytes} (h : Visits bufsiz s v hp w) (hrest : Begins rest) :
    nxtLoop bufsiz (s ++ rest) v = nxtLoop bufsiz (hp ++ rest) w := by
  induction h with
  | here => rfl
  | step hstate hend hb hgo _ ih =>
    rw [List.cons_append, nxtLoop_cons hstate ((headerEnd_append hrest).trans hend) hb, hgo]
    exact ih
  | escape hstate hparens _ ih =>
    rw [List.cons_append, List.cons_append, nxtLoop_escape hstate hparens]
    exact ih
  | comment hparens _ ih =>
    rw [List.cons_append, nxtLoop_comment hparens]
    exact ih

/-- A loop that does not get to the end of the text does not see what follows. -/
theorem nxtLoop_append (hrest : Begins rest) (hstays : (nxtLoop bufsiz s v).2.1 ≠ []) :
    (nxtLoop bufsiz (s ++ rest) v).1 = (nxtLoop bufsiz s v).1 := by
  obtain ⟨hp, w, hvisits, hends⟩ := @nxtLoop_ends bufsiz s v
  rw [visits_append hvisits hrest]
  generalize nxtLoop bufsiz s v = r at hends hstays
  cases hends with
  | nul | overread => exact absurd rfl hstays
  | finished hstate => rw [List.cons_append, nxtLoop_endit hstate]
  | header hstate hend =>
    rw [List.cons_append, nxtLoop_end hstate ((headerEnd_append hrest).trans hend)]
    split <;> rfl
  | ret hstate hend hb hret =>
    rw [List.cons_append, nxtLoop_cons hstate ((headerEnd_append hrest).trans hend) hb, hret]

theorem visits_suffix {hp : Bytes} (h : Visits bufsiz s v hp w) : hp <:+ s := by
  induction h with
  | here => exact List.suffix_rfl
  | step _ _ _ _ _ ih => exact ih.trans (List.suffix_cons _ _)
  | escape _ _ _ ih => exact ih.trans ((List.suffix_cons _ _).trans (List.suffix_cons _ _))
  | comment _ _ ih => exact ih.trans (List.suffix_cons _ _)

/-- A line end is behind every backslash. -/
theorem nxtLoop_ne_overread (h : s.getLast? = some Bytes.lf) :
    (nxtLoop bufsiz s v).1 ≠ .overread := by
  obtain ⟨hp, w, hvisits, hends⟩ := @nxtLoop_ends bufsiz s v
  intro hover
  generalize nxtLoop bufsiz s v = r at hends hover
  cases hends with
  | nul | finished | ret => cases hover
  | header => split at hover <;> cases hover
  | overread =>
    obtain ⟨front, rfl⟩ := visits_suffix hvisits
    rw [List.getLast?_concat] at h
    exact absurd h (by decide)

theorem length_nexttp_le (address : Bytes) (c : UInt8) :
    (nexttp bufsiz address c).length ≤ address.length + 1 := by
  unfold nexttp
  split
  · rw [List.length_append, List.length_singleton]
  · exact Nat.le_succ _

/-- The step adds one byte at most to an address of `n` bytes. -/
def Adds (n : Nat) : NxtStep → Prop
  | .go v => v.address.length ≤ n + 1
  | .ret a _ _ => a.length ≤ n

theorem bareStep_adds : Adds v.address.length (bareStep bufsiz b v) := by
  have hput := @length_nexttp_le bufsiz v.address b
  unfold bareStep
  repeat' split
  all_goals first
    | exact Nat.le_refl v.address.length
    | exact Nat.le_succ v.address.length
    | exact Nat.zero_le (v.address.length + 1)
    | exact hput

theorem switchStep_adds : Adds v.address.length (switchStep bufsiz b v) := by
  have hput := @length_nexttp_le bufsiz v.address b
  obtain ⟨state, oldstate, address, parendepth⟩ := v
  unfold switchStep
  cases state with
  | bareAddress => exact bareStep_adds
  | insideDquote => exact hput
  | insideParens | enditAll => exact Nat.le_succ _
  | startHdr | skipJunk | insideBrackets =>
    dsimp only
    repeat' split
    all_goals first
      | exact @bareStep_adds bufsiz b ⟨.bareAddress, oldstate, address, parendepth⟩
      | exact Nat.le_refl address.length
      | exact Nat.le_succ address.length
      | exact Nat.zero_le (address.length + 1)
      | exact hput

theorem visits_length {hp : Bytes} (h : Visits bufsiz s v hp w) :
    w.address.length + hp.length ≤ v.address.length + s.length := by
  induction h with
  | here => exact Nat.le_refl _
  | @step b s hp v v' v'' _ _ _ hgo _ ih =>
    have hlen : Adds v.address.length _ := @switchStep_adds bufsiz b v
    rw [hgo, Adds] at hlen
    rw [List.length_cons]
    omega
  | @escape c s hp v v'' _ _ _ ih =>
    have hfirst := @length_nexttp_le bufsiz v.address backslash
    have hsecond := @length_nexttp_le bufsiz (nexttp bufsiz v.address backslash) c
    rw [List.length_cons, List.length_cons]
    simp only at ih
    omega
  | comment _ _ ih =>
    rw [List.length_cons]
    omega

/-- Each byte adds one to the address at most. -/
theorem nxtLoop_length {a : Bytes} (h : (nxtLoop bufsiz s v).1 = .address a) :
    a.length ≤ v.address.length + s.length := by
  obtain ⟨hp', v', hvisits, hends⟩ := @nxtLoop_ends bufsiz s v
  have hlen := visits_length hvisits
  generalize nxtLoop bufsiz s v = r at h hends
  cases hends with
  | nul | finished | overread => cases h
  | header =>
    split at h
    · cases h
      have htrim : (trimEnd v'.address).length ≤ v'.address.length := by
        rw [trimEnd, List.length_reverse, ← @List.length_reverse _ v'.address]
        exact List.length_dropWhile_le _ _
      omega
    · cases h
  | @ret c _ _ _ _ _ _ _ _ hret =>
    cases h
    have hstep := @switchStep_adds bufsiz c v'
    rw [hret, Adds] at hstep
    omega

/-! ## The kind of a header -/

/-- A name is compared within the first line. -/
theorem startsWithCI_append {pre : Bytes} (hlf : Bytes.lf ∈ f)
    (hpre : Bytes.lf ∉ pre.map Bytes.toLower) :
    Bytes.startsWithCI (f ++ rest) pre = Bytes.startsWithCI f pre := by
  by_cases hlen : pre.length ≤ f.length
  · rw [Bytes.startsWithCI, Bytes.startsWithCI, List.take_append_of_le_length hlen]
  · have hshort : f.take pre.length = f := List.take_of_length_le (by omega)
    have hne : ∀ t : Bytes, (f ++ t).map Bytes.toLower ≠ pre.map Bytes.toLower := by
      intro t heq
      refine hpre (heq ▸ List.mem_map.mpr ⟨Bytes.lf, List.mem_append_left t hlf, rfl⟩)
    have hone : Bytes.startsWithCI (f ++ rest) pre = false := by
      rw [Bytes.startsWithCI, List.take_append, hshort]
      exact decide_eq_false (hne _)
    have htwo : Bytes.startsWithCI f pre = false := by
      rw [Bytes.startsWithCI, hshort]
      have hself := hne []
      rw [List.append_nil] at hself
      exact decide_eq_false hself
    rw [hone, htwo]

theorem kind_append (hlf : Bytes.lf ∈ f) : kind (f ++ rest) = kind f := by
  unfold kind
  rw [startsWithCI_append hlf (by decide), startsWithCI_append hlf (by decide),
    startsWithCI_append hlf (by decide)]

theorem Closed.lf_mem (h : Closed s) : Bytes.lf ∈ s := by
  rw [← h]
  exact List.mem_append_right _ List.mem_cons_self

/-- A line that continues a header is none of those that are looked for. -/
theorem kind_blank (h : b = Bytes.space ∨ b = Bytes.tab) : kind (b :: s) = none := by
  have hne : ∀ c pre, Bytes.toLower b ≠ Bytes.toLower c →
      Bytes.startsWithCI (b :: s) (c :: pre) = false := by
    intro c pre hne
    refine decide_eq_false fun heq => hne ?_
    exact (List.cons.inj heq).1
  rcases h with rfl | rfl <;>
    exact (if_neg (by rw [Bool.not_eq_true]; exact hne 67 _ (by decide))).trans
      ((if_neg (by rw [Bool.not_eq_true]; exact hne 67 _ (by decide))).trans
        (if_neg (by rw [Bool.not_eq_true]; exact hne 77 _ (by decide))))

/-! ## Lines -/

theorem afterNewline_append {c : Bytes} (h : afterNewline s = some c) :
    afterNewline (s ++ rest) = some (c ++ rest) := by
  induction s with
  | nil => cases h
  | cons b s ih =>
    rw [afterNewline] at h
    rw [List.cons_append, afterNewline]
    split at h
    · next hb =>
      cases h
      rw [if_pos hb]
    · next hb => rw [if_neg hb, ih h]

/-- The rest of a header is continued, if there is one. -/
theorem Closed.afterNewline (h : Closed s) : ∃ c, Mime.afterNewline s = some c ∧
    c.length < s.length ∧
    (c = [] ∨ Closed c ∧ (c.head? = some Bytes.space ∨ c.head? = some Bytes.tab)) := by
  induction s with
  | nil => exact absurd h not_closed_nil
  | cons b s ih =>
    rw [Mime.afterNewline]
    rcases h.cases with ⟨rfl, rfl⟩ | ⟨hend, hclosed⟩
    · exact ⟨[], rfl, Nat.zero_lt_one, .inl rfl⟩
    · split
      · next hb =>
        refine ⟨s, rfl, Nat.lt_succ_self _, .inr ⟨hclosed, ?_⟩⟩
        subst hb
        cases s with
        | nil => exact absurd hclosed not_closed_nil
        | cons c s =>
          by_contra hnone
          rw [not_or] at hnone
          rw [headerEnd_begins hnone] at hend
          cases hend
      · obtain ⟨c, hc, hlen, hcont⟩ := ih hclosed
        exact ⟨c, hc, Nat.lt_succ_of_lt hlen, hcont⟩

/-- Blanks and tabs at the beginning do not change where the line ends. -/
theorem afterNewline_skipBlanks (s : Bytes) : afterNewline (skipBlanks s) = afterNewline s := by
  induction s with
  | nil => rfl
  | cons b s ih =>
    rw [skipBlanks, List.dropWhile_cons]
    split
    · next hb =>
      have hlf : b ≠ Bytes.lf := by
        rintro rfl
        cases hb
      rw [show afterNewline (b :: s) = afterNewline s from if_neg hlf]
      exact ih
    · rfl

theorem skipBlanks_append (hlf : Bytes.lf ∈ s) : skipBlanks (s ++ rest) = skipBlanks s ++ rest := by
  induction s with
  | nil => cases hlf
  | cons b s ih =>
    rw [List.cons_append, skipBlanks, skipBlanks, List.dropWhile_cons, List.dropWhile_cons]
    split
    · next hb =>
      rcases List.mem_cons.mp hlf with rfl | hlf
      · cases hb
      · exact ih hlf
    · rfl

theorem afterNewline_drop (n : Nat) (h : Bytes.lf ∉ s.take n) :
    afterNewline (s.drop n) = afterNewline s := by
  induction n generalizing s with
  | zero => rfl
  | succ n ih =>
    cases s with
    | nil => rfl
    | cons b s =>
      rw [List.take_succ_cons, List.mem_cons, not_or] at h
      rw [List.drop_succ_cons, ih h.2]
      exact (if_neg (Ne.symm h.1)).symm

/-! ## The scan of a block -/

/-- What a header adds to what has been found, given with all that follows it. -/
def Found.add (bufsiz ofs : Nat) (nxtHdr : Bytes) (g : Found) : Found :=
  match kind nxtHdr with
  | some .transferEncoding =>
    let g := { g with xferEncOfs := some ofs }
    match fieldValue bufsiz nxtHdr with
    | some p => { g with xferEnc := some p, hdrsFound := g.hdrsFound + 1 }
    | none => g
  | some .contentType =>
    { g with
      cntType := some (headerText (skipBlanks (nxtHdr.drop 13)))
      hdrsFound := g.hdrsFound + 1 }
  | some .mimeVersion =>
    match fieldValue bufsiz nxtHdr with
    | some p => { g with mimeVer := some p, hdrsFound := g.hdrsFound + 1 }
    | none => g
  | none => g

/-- What some headers add, the first of which is at `ofs`. -/
def Found.addAll (bufsiz : Nat) : (ofs : Nat) → List Bytes → Found → Found
  | _, [], g => g
  | ofs, f :: fs, g => addAll bufsiz (ofs + f.length) fs (g.add bufsiz ofs (f :: fs).flatten)

/-- The first address does not depend on what `nxtaddr` was called for before. -/
theorem nxtaddr_first (hlast : s.getLast? = some Bytes.lf) (statics : AddrStatics) :
    ∃ statics', nxtaddr bufsiz (some s) statics =
      (match fieldValue bufsiz s with
        | some p => .address p
        | none => .null, statics') := by
  have hagree : Agree startVars
      { statics.vars with state := .startHdr, address := [], parendepth := 0 } :=
    ⟨statics.vars.oldstate, rfl, by simp [startVars]⟩
  refine ⟨_, Prod.ext ?_ rfl⟩
  refine Eq.trans (nxtLoop_agree hagree) ?_
  rw [fieldValue]
  cases hret : (nxtLoop bufsiz s startVars).1 with
  | address p => rfl
  | null => rfl
  | overread => exact absurd hret (nxtLoop_ne_overread hlast)

theorem scanHeader_eq (hlast : s.getLast? = some Bytes.lf) (ofs : Nat) (statics : AddrStatics)
    (g : Found) : ∃ statics',
      scanHeader bufsiz ofs s statics g = some (g.add bufsiz ofs s, statics') := by
  obtain ⟨statics', hnxt⟩ := @nxtaddr_first bufsiz s hlast statics
  rw [scanHeader, Found.add]
  cases kind s with
  | none => exact ⟨statics, rfl⟩
  | some k =>
    cases k with
    | contentType => exact ⟨statics, rfl⟩
    | transferEncoding | mimeVersion =>
      refine ⟨statics', ?_⟩
      simp only [hnxt]
      cases fieldValue bufsiz s <;> rfl

theorem headerText_append (h : Closed s) (hrest : Begins rest) :
    headerText (s ++ rest) = headerText s := by
  induction s with
  | nil => exact absurd h not_closed_nil
  | cons b s ih =>
    rw [List.cons_append, headerText, headerText, headerEnd_append hrest]
    rcases h.cases with ⟨rfl, rfl⟩ | ⟨hend, hclosed⟩
    · rfl
    · rw [hend, if_neg Bool.false_ne_true, if_neg Bool.false_ne_true, ih hclosed]

/-- What is behind some bytes of a header, none of which ends a line. -/
theorem Closed.drop (h : Closed s) (n : Nat) (hlf : Bytes.lf ∉ s.take n) : Closed (s.drop n) := by
  induction n generalizing s with
  | zero => exact h
  | succ n ih =>
    cases s with
    | nil => exact absurd h not_closed_nil
    | cons b s =>
      rw [List.take_succ_cons, List.mem_cons, not_or] at hlf
      rcases h.cases with ⟨rfl, -⟩ | ⟨-, hclosed⟩
      · exact absurd rfl hlf.1
      · exact ih hclosed hlf.2

theorem Closed.skipBlanks (h : Closed s) : Closed (Mime.skipBlanks s) := by
  induction s with
  | nil => exact absurd h not_closed_nil
  | cons b s ih =>
    rw [Mime.skipBlanks, List.dropWhile_cons]
    split
    · next hb =>
      rcases h.cases with ⟨rfl, -⟩ | ⟨-, hclosed⟩
      · cases hb
      · exact ih hclosed
    · exact h

/-- The name of the header, without the colon. -/
def fieldName : Kind → Bytes
  | .transferEncoding => Bytes.lit "Content-Transfer-Encoding"
  | .contentType => Bytes.lit "Content-Type"
  | .mimeVersion => Bytes.lit "MIME-Version"

theorem kind_name {k : Kind} (h : kind f = some k) :
    Bytes.startsWithCI f (fieldName k ++ [colon]) = true := by
  unfold kind at h
  split at h
  · next hname =>
    cases h
    exact hname
  split at h
  · next hname =>
    cases h
    exact hname
  split at h
  · next hname =>
    cases h
    exact hname
  · cases h

/-- The name of the header is on one line. -/
theorem lf_notMem_name (h : kind f = some .contentType) : Bytes.lf ∉ f.take 13 := by
  intro hmem
  have heq := of_decide_eq_true (kind_name h)
  have hlower : Bytes.toLower Bytes.lf ∈ (Bytes.lit "Content-Type:").map Bytes.toLower :=
    heq ▸ List.mem_map_of_mem hmem
  exact absurd hlower (by decide)

/-- The line does not end in the name. -/
theorem length_name {n : Nat} (hf : IsField f) (hname : Bytes.lf ∉ f.take n) : n ≤ f.length := by
  by_contra hshort
  rw [List.take_of_length_le (by omega)] at hname
  exact hname (Closed.lf_mem hf.ended)

theorem add_hdrsFound (ofs : Nat) (g : Found) :
    (g.add bufsiz ofs s).hdrsFound ≤ g.hdrsFound + if (kind s).isSome then 1 else 0 := by
  rw [Found.add]
  cases kind s with
  | none => exact Nat.le_refl _
  | some k => cases k <;> cases fieldValue bufsiz s <;> simp

theorem kind_flatten (hf : IsField f) : kind (f :: fs).flatten = kind f :=
  kind_append (Closed.lf_mem hf.ended)

theorem addAll_none (ofs : Nat) (g : Found) (hfields : ∀ f ∈ fs, IsField f)
    (h : ∀ f ∈ fs, kind f = none) : Found.addAll bufsiz ofs fs g = g := by
  induction fs generalizing ofs with
  | nil => rfl
  | cons f fs ih =>
    rw [List.forall_mem_cons] at hfields h
    rw [Found.addAll, Found.add, kind_flatten hfields.1, h.1]
    exact ih _ hfields.2 h.2

/-- The lines that continue a header are passed over. -/
theorem scan_next {size fuel : Nat} {c : Bytes} {statics : AddrStatics} {g R : Found}
    (hcont : c = [] ∨ Closed c ∧ (c.head? = some Bytes.space ∨ c.head? = some Bytes.tab))
    (hrest : ∀ fuel statics, rest.length < fuel →
      scanLoop bufsiz size fuel rest statics g = some R)
    (hstop : rest = [] ∨ g.hdrsFound = 3 → R = g) (hfuel : (c ++ rest).length < fuel) :
    (if c ++ rest ≠ [] ∧ g.hdrsFound ≠ 3 then scanLoop bufsiz size fuel (c ++ rest) statics g
      else some g) = some R := by
  induction fuel generalizing c with
  | zero => exact absurd hfuel (Nat.not_lt_zero _)
  | succ fuel ih =>
    by_cases hfound : g.hdrsFound = 3
    · rw [if_neg fun h => h.2 hfound, hstop (.inr hfound)]
    rcases hcont with rfl | ⟨hclosed, hhead⟩
    · rw [List.nil_append]
      by_cases hnil : rest = []
      · rw [if_neg fun h => h.1 hnil, hstop (.inl hnil)]
      · rw [if_pos ⟨hnil, hfound⟩]
        exact hrest _ _ hfuel
    · obtain ⟨c', hnext, hlen, hcont'⟩ := hclosed.afterNewline
      cases c with
      | nil => exact absurd hclosed not_closed_nil
      | cons b c =>
        have hblank : b = Bytes.space ∨ b = Bytes.tab :=
          hhead.imp (Option.some.inj ·) (Option.some.inj ·)
        -- a continuation begins with a blank, and no header that is looked for does
        have hkind : kind (b :: c ++ rest) = none := kind_blank hblank
        rw [if_pos ⟨List.cons_ne_nil _ _, hfound⟩, scanLoop, scanHeader, hkind]
        simp only [Option.bind_some, reduceCtorEq, if_false, afterNewline_append hnext]
        refine ih hcont' ?_
        rw [List.length_append] at hfuel ⊢
        omega

/-- Where the line of a header ends. -/
theorem afterNewline_field (hf : IsField f) {c : Bytes} (hc : afterNewline f = some c) :
    afterNewline (if kind (f ++ rest) = some .contentType then skipBlanks ((f ++ rest).drop 13)
      else f ++ rest) = some (c ++ rest) := by
  have hlf : Bytes.lf ∈ f := Closed.lf_mem hf.ended
  rw [kind_append hlf]
  split
  · next hkind =>
    have hname := lf_notMem_name hkind
    have hlen := length_name hf hname
    rw [List.drop_append_of_le_length hlen, afterNewline_skipBlanks]
    refine afterNewline_append ?_
    rw [afterNewline_drop 13 hname, hc]
  · exact afterNewline_append hc

theorem begins_flatten (h : ∀ f ∈ fs, IsField f) : Begins fs.flatten := by
  cases fs with
  | nil => exact ⟨by simp, by simp⟩
  | cons f fs =>
    have hf := h f List.mem_cons_self
    cases f with
    | nil => exact absurd hf.ended not_closed_nil
    | cons b f => exact hf.begins

theorem getLast?_flatten (hf : IsField f) (h : ∀ f ∈ fs, IsField f) :
    (f :: fs).flatten.getLast? = some Bytes.lf := by
  induction fs generalizing f with
  | nil =>
    rw [List.flatten_cons, List.flatten_nil, List.append_nil]
    exact Closed.getLast? hf.ended
  | cons f' fs ih =>
    rw [List.forall_mem_cons] at h
    rw [List.flatten_cons, List.getLast?_append, ih h.1 h.2]
    rfl

/-- **The scan** finds what its headers add, one by one. -/
theorem scanLoop_fields {size : Nat} (ofs : Nat) (g : Found) (hfields : ∀ f ∈ fs, IsField f)
    (hsize : size = ofs + fs.flatten.length)
    (hfound : g.hdrsFound + fs.countP (fun f => (kind f).isSome) ≤ 3) (fuel : Nat)
    (statics : AddrStatics) (hfuel : fs.flatten.length < fuel) :
    scanLoop bufsiz size fuel fs.flatten statics g = some (Found.addAll bufsiz ofs fs g) := by
  induction fs generalizing ofs g fuel statics with
  | nil =>
    obtain ⟨fuel, rfl⟩ : ∃ n, fuel = n + 1 := ⟨fuel - 1, by simp at hfuel; omega⟩
    rfl
  | cons f fs ih =>
    obtain ⟨fuel, rfl⟩ : ∃ n, fuel = n + 1 := ⟨fuel - 1, by omega⟩
    rw [List.forall_mem_cons] at hfields
    have hofs : size - (f :: fs).flatten.length = ofs := by omega
    obtain ⟨statics', hscan⟩ := @scanHeader_eq bufsiz _ (getLast?_flatten hfields.1 hfields.2)
      ofs statics g
    obtain ⟨c, hc, hlen, hcont⟩ := Closed.afterNewline hfields.1.ended
    have hadd := @add_hdrsFound bufsiz (f :: fs).flatten ofs g
    rw [kind_flatten hfields.1] at hadd
    rw [List.countP_cons] at hfound
    rw [scanLoop, hofs, hscan, Option.bind_some, Found.addAll]
    rw [List.flatten_cons] at hsize hfuel ⊢
    simp only [afterNewline_field hfields.1 hc]
    -- behind the header, the scan goes on in the rest, or it has found all there is
    refine scan_next hcont ?_ ?_ ?_
    · intro fuel statics hfuel
      refine ih _ _ hfields.2 ?_ (by simp only [List.flatten_cons] at hadd; omega) fuel statics
        hfuel
      rw [hsize, List.length_append]
      omega
    · rintro (hnil | hthree)
      · cases fs with
        | nil => rfl
        | cons f' fs =>
          have hempty := List.append_eq_nil_iff.mp hnil
          have hclosed := (hfields.2 f' List.mem_cons_self).ended
          rw [hempty.1] at hclosed
          exact absurd hclosed not_closed_nil
      · refine addAll_none _ _ hfields.2 fun f' hf' => ?_
        have hzero : fs.countP (fun f => (kind f).isSome) = 0 := by
          simp only [List.flatten_cons] at hadd
          omega
        simpa using List.countP_eq_zero.mp hzero f' hf'
    · rw [List.length_append] at hfuel ⊢
      omega

/-- What is asked of a header: `nxtaddr` stays in it, if it is called. -/
def Steady (bufsiz : Nat) (f : Bytes) : Prop :=
  kind f = some .transferEncoding ∨ kind f = some .mimeVersion → Stays bufsiz f

/-- A steady header adds what it would add alone. -/
theorem add_steady (hf : IsField f) (hsteady : Steady bufsiz f) (hrest : Begins rest) (ofs : Nat)
    (g : Found) : g.add bufsiz ofs (f ++ rest) = g.add bufsiz ofs f := by
  have hlf : Bytes.lf ∈ f := Closed.lf_mem hf.ended
  have hvalue : Stays bufsiz f → fieldValue bufsiz (f ++ rest) = fieldValue bufsiz f := by
    intro hstays
    rw [fieldValue, fieldValue, nxtLoop_append hrest hstays]
  rw [Found.add, Found.add, kind_append hlf]
  cases hkind : kind f with
  | none => rfl
  | some k =>
    cases k with
    | transferEncoding => rw [hvalue (hsteady (.inl hkind))]
    | mimeVersion => rw [hvalue (hsteady (.inr hkind))]
    | contentType =>
      have hname := lf_notMem_name hkind
      have hclosed := Closed.drop hf.ended 13 hname
      have hlen := length_name hf hname
      dsimp only
      rw [List.drop_append_of_le_length hlen, skipBlanks_append hclosed.lf_mem,
        headerText_append hclosed.skipBlanks hrest]

/-! ## What is found -/

/-- The header of a kind. -/
def only (k : Kind) (fs : List Bytes) : Option Bytes := fs.find? fun f => kind f = some k

/-- What is kept of a header. -/
def fieldText (bufsiz : Nat) (k : Kind) (f : Bytes) : Option Bytes :=
  match k with
  | .contentType => some (headerText (skipBlanks (f.drop 13)))
  | _ => fieldValue bufsiz f

def Found.get (k : Kind) (g : Found) : Option Bytes :=
  match k with
  | .transferEncoding => g.xferEnc
  | .contentType => g.cntType
  | .mimeVersion => g.mimeVer

theorem get_add (k : Kind) (ofs : Nat) (g : Found) : (g.add bufsiz ofs f).get k =
    if kind f = some k then (fieldText bufsiz k f).or (g.get k) else g.get k := by
  rw [Found.add]
  cases hkind : kind f with
  | none => rfl
  | some k' =>
    cases k' <;> cases k <;> cases hvalue : fieldValue bufsiz f <;>
      simp [Found.get, fieldText, hvalue]

theorem only_cons_pos {k : Kind} (h : kind f = some k) : only k (f :: fs) = some f :=
  List.find?_cons_of_pos (by simpa using h)

theorem only_cons_neg {k : Kind} (h : kind f ≠ some k) : only k (f :: fs) = only k fs :=
  List.find?_cons_of_neg (by simpa using h)

theorem only_eq_none {k : Kind} (h : fs.countP (fun f => kind f = some k) = 0) :
    only k fs = none := by
  rw [only, List.find?_eq_none]
  exact List.countP_eq_zero.mp h

theorem get_addAll (k : Kind) (ofs : Nat) (g : Found) (hfields : ∀ f ∈ fs, IsField f)
    (hsteady : ∀ f ∈ fs, Steady bufsiz f) (hunique : fs.countP (fun f => kind f = some k) ≤ 1) :
    (Found.addAll bufsiz ofs fs g).get k =
      ((only k fs).bind (fieldText bufsiz k)).or (g.get k) := by
  induction fs generalizing ofs g with
  | nil => rfl
  | cons f fs ih =>
    rw [List.countP_cons] at hunique
    rw [List.forall_mem_cons] at hfields hsteady
    rw [Found.addAll, ih _ _ hfields.2 hsteady.2 (by omega), List.flatten_cons,
      add_steady hfields.1 hsteady.1 (begins_flatten hfields.2), get_add]
    by_cases hkind : kind f = some k
    · rw [if_pos (decide_eq_true hkind)] at hunique
      rw [if_pos hkind, only_eq_none (by omega), only_cons_pos hkind]
      rfl
    · rw [if_neg hkind, only_cons_neg hkind]

theorem addAll_ofs_none (ofs : Nat) (g : Found) (hfields : ∀ f ∈ fs, IsField f)
    (h : ∀ f ∈ fs, kind f ≠ some .transferEncoding) :
    (Found.addAll bufsiz ofs fs g).xferEncOfs = g.xferEncOfs := by
  induction fs generalizing ofs g with
  | nil => rfl
  | cons f fs ih =>
    rw [List.forall_mem_cons] at hfields h
    rw [Found.addAll, ih _ _ hfields.2 h.2, Found.add, kind_flatten hfields.1]
    cases hkind : kind f with
    | none => rfl
    | some k =>
      cases k with
      | transferEncoding => exact absurd hkind h.1
      | contentType => rfl
      | mimeVersion => cases fieldValue bufsiz (f :: fs).flatten <;> rfl

/-- Where the header with the encoding is. -/
theorem addAll_ofs (ofs : Nat) (g : Found) (hfields : ∀ f ∈ fs, IsField f)
    (hunique : fs.countP (fun f => kind f = some .transferEncoding) ≤ 1)
    (h : only .transferEncoding fs = some f) : ∃ pre post, fs = pre ++ f :: post ∧
      kind f = some .transferEncoding ∧
      (Found.addAll bufsiz ofs fs g).xferEncOfs = some (ofs + pre.flatten.length) := by
  induction fs generalizing ofs g with
  | nil => cases h
  | cons f' fs ih =>
    rw [List.countP_cons] at hunique
    rw [List.forall_mem_cons] at hfields
    by_cases hkind : kind f' = some .transferEncoding
    · rw [only_cons_pos hkind] at h
      obtain rfl := Option.some.inj h
      rw [if_pos (decide_eq_true hkind)] at hunique
      have hrest : ∀ f ∈ fs, kind f ≠ some .transferEncoding := by
        have hzero : fs.countP (fun f => kind f = some .transferEncoding) = 0 := by omega
        simpa using List.countP_eq_zero.mp hzero
      refine ⟨[], fs, rfl, hkind, ?_⟩
      rw [Found.addAll, addAll_ofs_none _ _ hfields.2 hrest, Found.add, kind_flatten hfields.1,
        hkind]
      cases fieldValue bufsiz (f' :: fs).flatten <;> rfl
    · rw [only_cons_neg hkind] at h
      obtain ⟨pre, post, hsplit, hf, hofs⟩ := ih (ofs + f'.length)
        (g.add bufsiz ofs (f' :: fs).flatten) hfields.2 (by omega) h
      refine ⟨f' :: pre, post, by rw [hsplit, List.cons_append], hf, ?_⟩
      rw [Found.addAll, hofs, List.flatten_cons, List.length_append, Nat.add_assoc]

theorem eq_of_perm_of_length {l l' : List Bytes} (h : l.Perm l') (hlen : l.length ≤ 1) :
    l = l' := by
  cases l with
  | nil => exact (List.nil_perm.mp h).symm
  | cons a l =>
    cases l with
    | nil => exact (List.singleton_perm.mp h)
    | cons b l =>
      rw [List.length_cons, List.length_cons] at hlen
      omega

/-- It is the same in any order. -/
theorem only_perm {fs' : List Bytes} (h : fs.Perm fs') (k : Kind)
    (hunique : fs.countP (fun f => kind f = some k) ≤ 1) : only k fs = only k fs' := by
  rw [only, only, ← List.head?_filter, ← List.head?_filter]
  rw [List.countP_eq_length_filter] at hunique
  rw [eq_of_perm_of_length (h.filter _) hunique]

/-- There are three kinds of headers that are looked for. -/
theorem countP_kinds (hunique : ∀ k, fs.countP (fun f => kind f = some k) ≤ 1) :
    fs.countP (fun f => (kind f).isSome) ≤ 3 := by
  have hsum : ∀ fs : List Bytes, fs.countP (fun f => (kind f).isSome) =
      fs.countP (fun f => kind f = some .transferEncoding) +
        fs.countP (fun f => kind f = some .contentType) +
        fs.countP (fun f => kind f = some .mimeVersion) := by
    intro fs
    induction fs with
    | nil => rfl
    | cons f fs ih =>
      simp only [List.countP_cons, ih]
      cases kind f with
      | none => simp
      | some k => cases k <;> simp <;> omega
  have hone := hunique .transferEncoding
  have htwo := hunique .contentType
  have hthree := hunique .mimeVersion
  rw [hsum]
  omega

/-! ## The patch -/

/-- The name of the header is no part of the value. -/
theorem fieldValue_length {p : Bytes} (hkind : kind f = some .transferEncoding)
    (h : fieldValue bufsiz f = some p) : 26 + p.length ≤ f.length := by
  have hlower : (f.take 26).map Bytes.toLower =
      (Bytes.lit "content-transfer-encoding").map Bytes.toLower ++ [colon] :=
    of_decide_eq_true (kind_name hkind)
  obtain ⟨name, last, htake, hfirst, hlast⟩ := List.map_eq_append_iff.mp hlower
  obtain ⟨c, rfl, hc⟩ := List.map_eq_singleton_iff.mp hlast
  obtain rfl := Bytes.eq_of_toLower hc (by decide)
  -- before the colon, the loop only looks for it
  have hplain : ∀ b ∈ name, b ≠ colon ∧ b ≠ backslash ∧ b ≠ Bytes.lf := by
    intro b hb
    have hmem := hfirst ▸ List.mem_map_of_mem (f := Bytes.toLower) hb
    refine ⟨?_, ?_, ?_⟩ <;> rintro rfl <;> exact absurd hmem (by decide)
  have hlen : (name ++ [colon]).length = 26 := by
    rw [List.length_append, ← List.length_map Bytes.toLower, hfirst]
    rfl
  have hsplit : f = (name ++ [colon]) ++ f.drop 26 := by rw [← htake, List.take_append_drop]
  obtain ⟨o, d, hpass⟩ := Passes.name hplain (f.drop 26) .startHdr 0
  have hret : (nxtLoop bufsiz (f.drop 26) ⟨.skipJunk, o, [], d⟩).1 = .address p := by
    rw [← hpass, ← hsplit]
    rw [fieldValue] at h
    split at h
    · next heq => rw [← Option.some.inj h]; exact heq
    · cases h
  have hvalue := nxtLoop_length hret
  have htotal := congrArg List.length hsplit
  rw [List.length_append, hlen] at htotal
  rw [List.length_nil] at hvalue
  omega

/-- The loop stops at the line end at the latest. -/
theorem blankOut_append (h : s.getLast? = some Bytes.lf) : ∃ q, q.length = s.length ∧
    q.getLast? = some Bytes.lf ∧ ∀ t, blankOut (s ++ t) = some (q ++ t) := by
  induction s with
  | nil => cases h
  | cons c s ih =>
    by_cases hc : Bytes.space ≤ c
    · cases s with
      | nil =>
        obtain rfl := Option.some.inj h
        exact absurd hc (by decide)
      | cons d s =>
        rw [List.getLast?_cons_cons] at h
        obtain ⟨q, hlen, hlast, hblank⟩ := ih h
        refine ⟨Bytes.space :: q, congrArg Nat.succ hlen, ?_, fun t => ?_⟩
        · cases q with
          | nil => cases hlast
          | cons e q => rwa [List.getLast?_cons_cons]
        · rw [List.cons_append, blankOut, if_pos hc, hblank]
          rfl
    · exact ⟨c :: s, rfl, h, fun t => if_neg hc⟩

/-- The patch stays in a header that is long enough. -/
theorem setEncoding8bit_field (pre post : Bytes) (hlen : enc8bit.length < f.length)
    (hlast : f.getLast? = some Bytes.lf) : ∃ f', f'.length = f.length ∧
      f'.getLast? = some Bytes.lf ∧
      setEncoding8bit (pre ++ f ++ post) pre.length = some (pre ++ f' ++ post) := by
  have hdrop : (f.drop enc8bit.length).getLast? = some Bytes.lf := by
    rw [List.getLast?_drop, if_neg (by omega), hlast]
  obtain ⟨q, hq, hqlast, hblank⟩ := blankOut_append hdrop
  refine ⟨enc8bit ++ q, ?_, ?_, ?_⟩
  · rw [List.length_append, hq, List.length_drop]
    omega
  · rw [List.getLast?_append, hqlast]
    rfl
  · have hfits : pre.length + enc8bit.length ≤ (pre ++ f ++ post).length := by
      rw [List.length_append, List.length_append]
      omega
    have htake : (pre ++ f ++ post).take pre.length = pre := by
      rw [List.append_assoc, List.take_left]
    have hbehind : (pre ++ f ++ post).drop (pre.length + enc8bit.length) =
        f.drop enc8bit.length ++ post := by
      rw [List.append_assoc, ← List.drop_drop, List.drop_left,
        List.drop_append_of_le_length (by omega)]
    have hmem : pre.length + enc8bit.length = (pre ++ enc8bit).length := List.length_append.symm
    rw [setEncoding8bit, Storage.write, if_pos hfits, htake, hbehind, Option.bind_some, hmem,
      List.drop_left, List.take_left, hblank, Option.map_some]
    simp only [List.append_assoc]

/-! ## The result -/

/-- The headers of a block: at most one of each kind, and `nxtaddr` stays in those it is called
for. -/
structure IsBlock (bufsiz : Nat) (fs : List Bytes) : Prop where
  fields : ∀ f ∈ fs, IsField f
  unique : ∀ k, fs.countP (fun f => kind f = some k) ≤ 1
  steady : ∀ f ∈ fs, Steady bufsiz f

theorem IsBlock.perm {fs' : List Bytes} (h : IsBlock bufsiz fs) (hperm : fs.Perm fs') :
    IsBlock bufsiz fs' where
  fields f hf := h.fields f (hperm.mem_iff.mpr hf)
  unique k := by
    rw [← hperm.countP_eq]
    exact h.unique k
  steady f hf := h.steady f (hperm.mem_iff.mpr hf)

/-- What is said of the block. -/
def blockVerdict (bufsiz : Nat) (wantDecode : Bool) (fs : List Bytes) : Verdict :=
  verdict wantDecode ((only .transferEncoding fs).bind (fieldText bufsiz .transferEncoding))
    ((only .contentType fs).bind (fieldText bufsiz .contentType))
    ((only .mimeVersion fs).bind (fieldText bufsiz .mimeVersion))

/-- The patch is only made for quoted-printable text that is to be decoded. -/
theorem verdict_set8bit {wantDecode : Bool} {xferEnc cntType mimeVer : Option Bytes}
    (h : (verdict wantDecode xferEnc cntType mimeVer).set8bit = true) :
    (wantDecode = true ∧
      (verdict wantDecode xferEnc cntType mimeVer).state.currTypeNeedsDecode = true ∧
      (verdict wantDecode xferEnc cntType mimeVer).state.currEncodingIsQP = true) ∧
      ∃ enc, xferEnc = some enc ∧ Bytes.equalsCI enc (Bytes.lit "quoted-printable") = true := by
  rw [verdict] at h ⊢
  split at h
  · cases h
  next hmime =>
  rw [if_neg hmime]
  dsimp only at h ⊢
  cases hbound : boundary cntType with
  | some p1 =>
    rw [hbound] at h
    cases h
  | none =>
    rw [hbound] at h
    -- the one branch that sets the flag is that of `quoted-printable`
    cases xferEnc with
    | none => cases h
    | some enc =>
      dsimp only at h ⊢
      by_cases hqp : Bytes.equalsCI enc (Bytes.lit "quoted-printable") = true
      · rw [if_pos hqp] at h ⊢
        have hboth := Bool.and_eq_true_iff.mp h
        exact ⟨⟨hboth.1, hboth.2, rfl⟩, enc, rfl, hqp⟩
      · rw [if_neg hqp] at h
        split at h
        · cases h
        · split at h <;> cases h

theorem scan_found (hfields : ∀ f ∈ fs, IsField f)
    (hunique : ∀ k, fs.countP (fun f => kind f = some k) ≤ 1) (statics : AddrStatics) :
    scanLoop bufsiz fs.flatten.length (fs.flatten.length + 1) fs.flatten statics
      ⟨none, none, none, none, 0⟩ =
      some (Found.addAll bufsiz 0 fs ⟨none, none, none, none, 0⟩) :=
  @scanLoop_fields bufsiz fs _ 0 ⟨none, none, none, none, 0⟩ hfields (Nat.zero_add _).symm
    (by rw [Nat.zero_add]; exact countP_kinds hunique) _ statics (Nat.lt_succ_self _)

/-- The result is what is said of the headers, whatever their order. -/
theorem mimeBodyType_block {wantDecode : Bool} (h : IsBlock bufsiz fs) (statics : AddrStatics) :
    ∃ r, mimeBodyType bufsiz statics fs.flatten wantDecode = some r ∧
      r.bodyType = (blockVerdict bufsiz wantDecode fs).bodyType ∧
      r.state = (blockVerdict bufsiz wantDecode fs).state ∧
      (r.hdrs = fs.flatten ++ [Bytes.nul] ∨
        (wantDecode = true ∧ r.state.currTypeNeedsDecode = true ∧
          r.state.currEncodingIsQP = true) ∧
        ∃ pre f post f', fs = pre ++ f :: post ∧ kind f = some .transferEncoding ∧
          r.hdrs = (pre ++ f' :: post).flatten ++ [Bytes.nul] ∧ f'.length = f.length ∧
          f'.getLast? = some Bytes.lf) := by
  have hget : ∀ k, (Found.addAll bufsiz 0 fs ⟨none, none, none, none, 0⟩).get k =
      (only k fs).bind (fieldText bufsiz k) := by
    intro k
    rw [get_addAll k 0 _ h.fields h.steady (h.unique k)]
    cases k <;> exact Option.or_none
  have hverdict : verdict wantDecode
      (Found.addAll bufsiz 0 fs ⟨none, none, none, none, 0⟩).xferEnc
      (Found.addAll bufsiz 0 fs ⟨none, none, none, none, 0⟩).cntType
      (Found.addAll bufsiz 0 fs ⟨none, none, none, none, 0⟩).mimeVer =
      blockVerdict bufsiz wantDecode fs := by
    rw [blockVerdict, ← hget, ← hget, ← hget]
    rfl
  rw [mimeBodyType, scan_found h.fields h.unique, Option.bind_some]
  dsimp only
  rw [hverdict]
  cases hset : (blockVerdict bufsiz wantDecode fs).set8bit with
  | false => exact ⟨_, rfl, rfl, rfl, .inl rfl⟩
  | true =>
    obtain ⟨hwanted, enc, henc, hqp⟩ := verdict_set8bit hset
    obtain ⟨f, hf, hvalue⟩ := Option.bind_eq_some_iff.mp henc
    obtain ⟨pre, post, hsplit, hkind, hofs⟩ := @addAll_ofs bufsiz f fs 0
      ⟨none, none, none, none, 0⟩ h.fields (h.unique .transferEncoding) hf
    -- the name and `quoted-printable` take more bytes than what is written over them
    have hlen := fieldValue_length hkind hvalue
    have hqplen : enc.length = 16 := by
      have hlower := congrArg List.length (of_decide_eq_true hqp)
      rwa [List.length_map, List.length_map] at hlower
    have hlast : f.getLast? = some Bytes.lf := by
      rw [← (h.fields f (by simp [hsplit])).ended, List.getLast?_concat]
    have hlong : enc8bit.length < f.length := by
      have hname : enc8bit.length = 31 := rfl
      omega
    obtain ⟨f', hlen', hlast', hset8⟩ :=
      setEncoding8bit_field pre.flatten (post.flatten ++ [Bytes.nul]) hlong hlast
    have hblock : fs.flatten ++ [Bytes.nul] =
        pre.flatten ++ f ++ (post.flatten ++ [Bytes.nul]) := by
      simp [hsplit]
    rw [hofs, Nat.zero_add, hblock]
    dsimp only
    rw [hset8]
    exact ⟨_, rfl, rfl, rfl,
      .inr ⟨hwanted, pre, f, post, f', hsplit, hkind, by simp, hlen', hlast'⟩⟩

/-- The result does not depend on the order, and the headers are intact but for the encoding. -/
theorem IsBlock.intact {wantDecode : Bool} (h : IsBlock bufsiz fs) :
    Intact bufsiz wantDecode fs := by
  intro statics
  obtain ⟨r, hr, hbody, hstate, hdrs⟩ := @mimeBodyType_block bufsiz fs wantDecode h statics
  refine ⟨r, hr, fun fs' statics' hperm => ?_, hdrs⟩
  obtain ⟨r', hr', hbody', hstate', -⟩ :=
    @mimeBodyType_block bufsiz fs' wantDecode (h.perm hperm) statics'
  have hsame : blockVerdict bufsiz wantDecode fs' = blockVerdict bufsiz wantDecode fs := by
    simp only [blockVerdict, only_perm hperm _ (h.unique _)]
  exact ⟨r', hr', by rw [hbody', hbody, hsame], by rw [hstate', hstate, hsame]⟩

end Fetchmail.Mime
