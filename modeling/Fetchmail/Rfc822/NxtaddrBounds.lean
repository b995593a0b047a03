import Fetchmail.Rfc822.Nxtaddr

/-!
# Where `nxtaddr` Reads and Writes

The loop of `nxtaddr` from one character to the next, over all calls on a header. The scan
pointer stops at the end of the header, but for one slip: a backslash takes the character
behind it without a look at it, and that may be the newline that ends the header, or the zero
byte. Whether it is depends on the quoting alone, which a small scanner over the text of the
header follows.
-/

namespace Fetchmail.Rfc822

open Fetchmail.Lib

/-! ## The end of a header -/

/-- The header up to its end: a newline that no blank follows, or the zero byte. -/
def headerText : Bytes → Bytes
  | [] => []
  | b :: s => if headerEnd (b :: s) then [] else b :: headerText s

/-- The end of the header, and all that lies behind it. -/
def headerRest : Bytes → Bytes
  | [] => []
  | b :: s => if headerEnd (b :: s) then b :: s else headerRest s

theorem headerText_append_rest (s : Bytes) : headerText s ++ headerRest s = s := by
  induction s with
  | nil => rfl
  | cons b s ih =>
    simp only [headerText, headerRest]
    split
    · rfl
    · rw [List.cons_append, ih]

/-- The text goes up to the rest, which is at an end or empty; there is no end before. -/
structure Bounded (text rest : Bytes) : Prop where
  ended : rest = [] ∨ headerEnd rest = true
  clean : ∀ b s, b :: s <:+ text → headerEnd (b :: s ++ rest) = false

theorem bounded_header (s : Bytes) : Bounded (headerText s) (headerRest s) := by
  induction s with
  | nil => exact ⟨.inl rfl, by simp [headerText]⟩
  | cons b s ih =>
    simp only [headerText, headerRest]
    split
    · next hend => exact ⟨.inr hend, by simp⟩
    · next hend =>
      refine ⟨ih.ended, fun c t hsuffix => ?_⟩
      rcases List.suffix_cons_iff.mp hsuffix with heq | hsuffix
      · rw [heq, List.cons_append, headerText_append_rest]
        simpa using hend
      · exact ih.clean c t hsuffix

theorem Bounded.tail {b : UInt8} {text rest : Bytes} (h : Bounded (b :: text) rest) :
    Bounded text rest :=
  ⟨h.ended, fun c s hsuffix => h.clean c s (hsuffix.trans (List.suffix_cons b text))⟩

/-! ## Quoting in a header -/

/-- The parts of a header in which characters mean different things. -/
inductive Region where
  /-- before the colon -/
  | name
  | list
  /-- between angle brackets -/
  | angle
  /-- between double quotes -/
  | quote (inAngle : Bool)
  /-- inside `depth + 1` pairs of parentheses -/
  | comment (depth : Nat)
  deriving DecidableEq, Repr

/-- The region behind a character. -/
def Region.next : Region → UInt8 → Region
  | .name, b => if b = colon then .list else .name
  | .list, b => if b = dquote then .quote false else if b = lparen then .comment 0
      else if b = langle then .angle else .list
  | .angle, b => if b = rangle then .list else if b = dquote then .quote true else .angle
  | .quote inAngle, b => if b = dquote then (if inAngle then .angle else .list) else .quote inAngle
  | .comment depth, b => if b = lparen then .comment (depth + 1)
      else if b = rparen then (if depth = 0 then .list else .comment (depth - 1))
      else .comment depth

/-- In comments a backslash means nothing. -/
def Region.isComment : Region → Bool
  | .comment _ => true
  | _ => false

/-- The text ends in a backslash that takes the character behind it. -/
def endsEscaped : Region → Bytes → Bool
  | _, [] => false
  | r, b :: s =>
    if b = backslash then
      if r.isComment then endsEscaped r s
      else match s with
        | [] => true
        | _ :: s => endsEscaped r s
    else endsEscaped (r.next b) s

theorem endsEscaped_char (r : Region) {b : UInt8} (s : Bytes) (hb : b ≠ backslash) :
    endsEscaped r (b :: s) = endsEscaped (r.next b) s := by
  rw [endsEscaped.eq_def]
  simp only [if_neg hb]

theorem endsEscaped_comment {r : Region} (s : Bytes) (hr : r.isComment = true) :
    endsEscaped r (backslash :: s) = endsEscaped r s := by
  rw [endsEscaped.eq_def]
  simp only [hr, if_true]

theorem endsEscaped_escape {r : Region} (c : UInt8) (s : Bytes) (hr : ¬ r.isComment = true) :
    endsEscaped r (backslash :: c :: s) = endsEscaped r s := by
  rw [endsEscaped.eq_def]
  simp only [if_true, if_neg hr]

theorem endsEscaped_last {r : Region} (hr : ¬ r.isComment = true) :
    endsEscaped r [backslash] = true := by
  rw [endsEscaped.eq_def]
  simp only [if_true, if_neg hr]

/-! ## The loop, character by character -/

section

variable {bufsiz : Nat}

/-- Started with the first two, the loop comes to the others. -/
inductive Visits (bufsiz : Nat) : Bytes → AddrVars → Bytes → AddrVars → Prop where
  | here {hp : Bytes} {v : AddrVars} : Visits bufsiz hp v hp v
  | step {b : UInt8} {s hp : Bytes} {v v' v'' : AddrVars} (hstate : v.state ≠ .enditAll)
      (hend : headerEnd (b :: s) = false) (hb : b ≠ backslash)
      (hgo : switchStep bufsiz b v = .go v') :
      Visits bufsiz s v' hp v'' → Visits bufsiz (b :: s) v hp v''
  | escape {c : UInt8} {s hp : Bytes} {v v'' : AddrVars} (hstate : v.state ≠ .enditAll)
      (hparens : v.state ≠ .insideParens) :
      Visits bufsiz s { v with address := nexttp bufsiz (nexttp bufsiz v.address backslash) c }
        hp v'' →
      Visits bufsiz (backslash :: c :: s) v hp v''
  | comment {s hp : Bytes} {v v'' : AddrVars} (hparens : v.state = .insideParens) :
      Visits bufsiz s v hp v'' → Visits bufsiz (backslash :: s) v hp v''

/-- How the loop ends. -/
inductive Ends (bufsiz : Nat) : Bytes → AddrVars → NxtReturn × Bytes × AddrVars → Prop where
  | nul {v : AddrVars} : Ends bufsiz [] v (.null, [], v)
  | finished {b : UInt8} {s : Bytes} {v : AddrVars} (hstate : v.state = .enditAll) :
      Ends bufsiz (b :: s) v (.null, b :: s, v)
  | header {b : UInt8} {s : Bytes} {v : AddrVars} (hstate : v.state ≠ .enditAll)
      (hend : headerEnd (b :: s) = true) :
      Ends bufsiz (b :: s) v
        (if v.address ≠ [] then
          (.address (trimEnd v.address), b :: s, { v with state := .enditAll, address := [] })
        else (.null, b :: s, { v with state := .enditAll }))
  | overread {v : AddrVars} (hstate : v.state ≠ .enditAll) (hparens : v.state ≠ .insideParens) :
      Ends bufsiz [backslash] v (.overread, [], v)
  | ret {b : UInt8} {s address : Bytes} {behind : Bool} {v v' : AddrVars}
      (hstate : v.state ≠ .enditAll) (hend : headerEnd (b :: s) = false) (hb : b ≠ backslash)
      (hret : switchStep bufsiz b v = .ret address behind v') :
      Ends bufsiz (b :: s) v (.address address, if behind then s else b :: s, v')

/-- The loop comes to an end. -/
theorem nxtLoop_ends (hp : Bytes) (v : AddrVars) :
    ∃ hp' v', Visits bufsiz hp v hp' v' ∧ Ends bufsiz hp' v' (nxtLoop bufsiz hp v) := by
  -- the cases of the loop: at the end of the text, done, at the end of the header, a backslash
  induction hp, v using nxtLoop.induct bufsiz with
  | case1 v => exact ⟨[], v, .here, .nul⟩
  | case2 b s v hstate =>
    rw [nxtLoop_endit hstate]
    exact ⟨b :: s, v, .here, .finished hstate⟩
  | case3 b s v hstate hend haddress =>
    rw [nxtLoop_end hstate hend]
    exact ⟨b :: s, v, .here, .header hstate hend⟩
  | case4 b s v hstate hend haddress =>
    rw [nxtLoop_end hstate hend]
    exact ⟨b :: s, v, .here, .header hstate hend⟩
  | case5 v hstate hparens hend =>
    refine ⟨[backslash], v, .here, ?_⟩
    have hrun : nxtLoop bufsiz [backslash] v = (.overread, [], v) := by
      rw [nxtLoop, if_neg hstate, if_neg hend, if_pos rfl, if_pos hparens]
    rw [hrun]
    exact .overread hstate hparens
  | case6 v hstate hparens c s hend ih =>
    obtain ⟨hp', v', hvisits, hends⟩ := ih
    rw [nxtLoop_escape hstate hparens]
    exact ⟨hp', v', .escape hstate hparens hvisits, hends⟩
  | case7 s v hstate hparens hend ih =>
    obtain ⟨hp', v', hvisits, hends⟩ := ih
    have hrun : nxtLoop bufsiz (backslash :: s) v = nxtLoop bufsiz s v := by
      rw [nxtLoop.eq_def]
      simp only
      rw [if_neg hstate, if_neg hend, if_pos trivial, if_neg hparens]
    rw [hrun]
    exact ⟨hp', v', .comment (not_not.mp hparens) hvisits, hends⟩
  | case8 b s v hstate hend hb v' hgo ih =>
    obtain ⟨hp', v'', hvisits, hends⟩ := ih
    have hfalse : headerEnd (b :: s) = false := by simpa using hend
    rw [nxtLoop_cons hstate hfalse hb, hgo]
    exact ⟨hp', v'', .step hstate hfalse hb hgo hvisits, hends⟩
  | case9 b s v hstate hend hb address behind v' hret =>
    have hfalse : headerEnd (b :: s) = false := by simpa using hend
    rw [nxtLoop_cons hstate hfalse hb, hret]
    exact ⟨b :: s, v, .here, .ret hstate hfalse hb hret⟩

/-- The bare address goes no further than its comma, the one in brackets than its bracket. -/
theorem switchStep_ret {b : UInt8} {v v' : AddrVars} {address : Bytes} {behind : Bool}
    (h : switchStep bufsiz b v = .ret address behind v') :
    v'.state = .skipJunk ∧ v'.address = [] ∧
      ((behind = false ∧ v.state = .bareAddress ∧ b = comma) ∨
        (behind = true ∧ v.state = .insideBrackets ∧ b = rangle)) := by
  -- `SKIP_JUNK` hands its character over to `BARE_ADDRESS`
  have hbare : ∀ {v : AddrVars}, bareStep bufsiz b v = .ret address behind v' →
      v'.state = .skipJunk ∧ v'.address = [] ∧ behind = false ∧ b = comma := by
    intro v h
    unfold bareStep at h
    split at h
    · next hb =>
      split at h
      · cases h
        exact ⟨rfl, rfl, rfl, hb⟩
      · cases h
    · repeat' split at h
      all_goals cases h
  unfold switchStep at h
  cases hstate : v.state with
  | bareAddress =>
    simp only [hstate] at h
    obtain ⟨hjunk, hempty, hbehind, hb⟩ := hbare h
    exact ⟨hjunk, hempty, .inl ⟨hbehind, rfl, hb⟩⟩
  | insideBrackets =>
    simp only [hstate] at h
    split at h
    · next hb =>
      cases h
      exact ⟨rfl, rfl, .inr ⟨rfl, rfl, hb⟩⟩
    · repeat' split at h
      all_goals cases h
  | skipJunk =>
    simp only [hstate] at h
    split at h
    · cases h
    · split at h
      · cases h
      · split at h
        · cases h
        · split at h
          · next hb => exact absurd (hbare h).2.2.2 hb.1
          · cases h
  | startHdr | insideDquote | insideParens | enditAll =>
    simp only [hstate] at h
    repeat' split at h
    all_goals cases h

/-! ## The address buffer -/

/-- The characters in the buffer leave room for the zero byte, so that every place that
`NEXTTP` gives is in it. -/
def InBuffer (bufsiz : Nat) (v : AddrVars) : Prop := v.address.length ≤ bufsiz - 1

theorem length_nexttp {address : Bytes} (h : address.length ≤ bufsiz - 1) (c : UInt8) :
    (nexttp bufsiz address c).length ≤ bufsiz - 1 := by
  unfold nexttp
  split
  · rw [List.length_append, List.length_singleton]
    omega
  · exact h

theorem bareStep_inBuffer {b : UInt8} {v v' : AddrVars} (h : InBuffer bufsiz v)
    (hgo : bareStep bufsiz b v = .go v') : InBuffer bufsiz v' := by
  have hput := length_nexttp h b
  unfold bareStep at hgo
  repeat' split at hgo
  all_goals cases hgo
  all_goals first | exact h | exact hput | exact Nat.zero_le _

theorem switchStep_inBuffer {b : UInt8} {v v' : AddrVars} (h : InBuffer bufsiz v)
    (hgo : switchStep bufsiz b v = .go v') : InBuffer bufsiz v' := by
  have hput := length_nexttp h b
  unfold switchStep at hgo
  cases hstate : v.state with
  | bareAddress =>
    simp only [hstate] at hgo
    exact bareStep_inBuffer h hgo
  | skipJunk =>
    simp only [hstate] at hgo
    split at hgo
    · cases hgo
      exact hput
    · split at hgo
      · cases hgo
        exact h
      · split at hgo
        · cases hgo
          exact Nat.zero_le _
        · split at hgo
          · exact bareStep_inBuffer (v := { v with state := .bareAddress }) h hgo
          · cases hgo
            exact h
  -- the other states put the character, leave the buffer as it is, or start it again
  | startHdr | insideDquote | insideParens | enditAll | insideBrackets =>
    simp only [hstate] at hgo
    repeat' split at hgo
    all_goals cases hgo
    all_goals first | exact h | exact hput | exact Nat.zero_le _

theorem Visits.inBuffer {hp hp' : Bytes} {v v' : AddrVars} (h : Visits bufsiz hp v hp' v')
    (hv : InBuffer bufsiz v) : InBuffer bufsiz v' := by
  induction h with
  | here => exact hv
  | step _ _ _ hgo _ ih => exact ih (switchStep_inBuffer hv hgo)
  | escape _ _ _ ih => exact ih (length_nexttp (length_nexttp hv _) _)
  | comment _ _ ih => exact ih hv

theorem Ends.inBuffer {hp : Bytes} {v : AddrVars} {r : NxtReturn × Bytes × AddrVars}
    (h : Ends bufsiz hp v r) (hv : InBuffer bufsiz v) : InBuffer bufsiz r.2.2 := by
  cases h with
  | nul => exact hv
  | finished _ => exact hv
  | header _ _ =>
    split
    · exact Nat.zero_le _
    · exact hv
  | overread _ _ => exact hv
  | ret _ _ _ hret =>
    have hempty := (switchStep_ret hret).2.1
    show InBuffer bufsiz _
    rw [InBuffer, hempty]
    exact Nat.zero_le _

/-! ## Progress -/

/-- How near the state is to the end, when the pointer does not move. -/
def HdrState.rank : HdrState → Nat
  | .enditAll => 0
  | .skipJunk => 1
  | _ => 2

def remaining (hp : Bytes) (v : AddrVars) : Nat := 3 * hp.length + v.state.rank

theorem rank_le (state : HdrState) : state.rank ≤ 2 := by
  cases state <;> decide

theorem Visits.remaining_le {hp hp' : Bytes} {v v' : AddrVars} (h : Visits bufsiz hp v hp' v') :
    remaining hp' v' ≤ remaining hp v := by
  unfold remaining
  induction h with
  | here => exact Nat.le_refl _
  | step _ _ _ _ _ ih =>
    next v₁ _ _ _ _ _ _ =>
    have hrank := rank_le v₁.state
    rw [List.length_cons]
    omega
  | escape _ _ _ ih =>
    simp only [List.length_cons]
    simp only at ih
    omega
  | comment _ _ ih =>
    rw [List.length_cons]
    omega

/-- A call that returns an address has come nearer to the end. -/
theorem Ends.remaining_lt {hp : Bytes} {v : AddrVars} {r : NxtReturn × Bytes × AddrVars}
    (h : Ends bufsiz hp v r) {address : Bytes} (hr : r.1 = .address address) :
    remaining r.2.1 r.2.2 < remaining hp v := by
  cases h with
  | nul => cases hr
  | finished _ => cases hr
  | header hstate _ =>
    -- at the end of the header the pointer stays, but the state becomes `ENDIT_ALL`
    have hrank : 0 < v.state.rank := by
      cases hs : v.state <;> simp_all [HdrState.rank]
    split at hr
    · next hne =>
      rw [if_pos hne]
      exact Nat.add_lt_add_left hrank _
    · cases hr
  | overread _ _ => cases hr
  | ret _ _ _ hret =>
    obtain ⟨hjunk, -, ⟨rfl, hbare, -⟩ | ⟨rfl, hbrackets, -⟩⟩ := switchStep_ret hret
    · simp [remaining, hjunk, hbare, HdrState.rank]
    · simp only [remaining, hjunk, hbrackets, HdrState.rank, if_true, List.length_cons]
      omega

/-! ## The region that the loop is in -/

/-- The state between two addresses of a list. -/
def inList (state : HdrState) : Prop := state = .skipJunk ∨ state = .bareAddress

/-- The loop is in a region of the header. -/
def Region.Fits : Region → AddrVars → Prop
  | .name, v => v.state = .startHdr
  | .list, v => inList v.state
  | .angle, v => v.state = .insideBrackets
  | .quote inAngle, v => v.state = .insideDquote ∧
      if inAngle then v.oldstate = .insideBrackets else inList v.oldstate
  | .comment depth, v => v.state = .insideParens ∧ v.parendepth = depth + 1 ∧ inList v.oldstate

theorem Region.Fits.comment_iff {r : Region} {v : AddrVars} (h : r.Fits v) :
    r.isComment = true ↔ v.state = .insideParens := by
  cases r with
  | list =>
    rcases h with h | h <;> simp [Region.isComment, h]
  | name | angle | quote | comment =>
    simp only [Region.Fits] at h
    simp [Region.isComment, h]

theorem Region.Fits.running {r : Region} {v : AddrVars} (h : r.Fits v) : v.state ≠ .enditAll := by
  cases r with
  | list =>
    rcases h with h | h <;> simp [h]
  | name | angle | quote | comment =>
    simp only [Region.Fits] at h
    simp [h]

/-- The address that is collected does not matter. -/
theorem Region.Fits.address {r : Region} {v : AddrVars} (h : r.Fits v) (address : Bytes) :
    r.Fits { v with address := address } := by
  cases r <;> exact h

theorem bareStep_fits {b : UInt8} {v v' : AddrVars} (hstate : v.state = .bareAddress)
    (hgo : bareStep bufsiz b v = .go v') : (Region.list.next b).Fits v' := by
  have hbare : inList v.state := .inr hstate
  unfold bareStep at hgo
  split at hgo
  · next hb =>
    subst hb
    split at hgo
    · cases hgo
    · cases hgo
      exact hbare
  · split at hgo
    · next hb =>
      subst hb
      cases hgo
      exact ⟨rfl, rfl, .inr rfl⟩
    · split at hgo
      · next hb =>
        subst hb
        cases hgo
        rfl
      · split at hgo
        · next hb =>
          subst hb
          cases hgo
          exact ⟨rfl, hbare⟩
        -- any other character leaves the scanner in the list
        · next hparen hangle hquote =>
          have hnext : Region.list.next b = .list := by
            simp only [Region.next, if_neg hparen, if_neg hangle, if_neg hquote]
          rw [hnext]
          split at hgo <;> cases hgo <;> exact hbare

/-- **Step.** The `switch` follows the regions. -/
theorem switchStep_fits {r : Region} {b : UInt8} {v v' : AddrVars} (h : r.Fits v)
    (hgo : switchStep bufsiz b v = .go v') : (r.next b).Fits v' := by
  unfold switchStep at hgo
  cases r with
  | name =>
    have hstate : v.state = .startHdr := h
    simp only [hstate] at hgo
    simp only [Region.next]
    split at hgo
    · next hb =>
      cases hgo
      rw [if_pos hb]
      exact .inl rfl
    · next hb =>
      cases hgo
      rw [if_neg hb]
      exact hstate
  -- two states: nothing collected yet, or a bare address
  | list =>
    rcases h with hstate | hstate
    · simp only [hstate] at hgo
      split at hgo
      · next hb =>
        subst hb
        cases hgo
        exact ⟨rfl, .inl rfl⟩
      · next hquote =>
        split at hgo
        · next hb =>
          subst hb
          cases hgo
          exact ⟨rfl, rfl, .inl rfl⟩
        · next hparen =>
          split at hgo
          · next hb =>
            subst hb
            cases hgo
            rfl
          · next hangle =>
            have hnext : Region.list.next b = .list := by
              simp only [Region.next, if_neg hparen, if_neg hangle, if_neg hquote]
            split at hgo
            · exact bareStep_fits rfl hgo
            · cases hgo
              rw [hnext]
              exact .inl hstate
    · simp only [hstate] at hgo
      exact bareStep_fits hstate hgo
  | angle =>
    have hstate : v.state = .insideBrackets := h
    simp only [hstate] at hgo
    simp only [Region.next]
    split at hgo
    · cases hgo
    · next hb =>
      rw [if_neg hb]
      split at hgo
      · next hb =>
        have hquote : b ≠ dquote := hb ▸ by decide
        rw [if_neg hquote]
        cases hgo
        rfl
      · split at hgo
        · next hb =>
          rw [if_pos hb]
          cases hgo
          exact ⟨rfl, rfl⟩
        · next hb =>
          rw [if_neg hb]
          cases hgo
          rfl
  -- `oldstate` tells where the string began
  | quote inAngle =>
    obtain ⟨hstate, hold⟩ := h
    simp only [hstate] at hgo
    cases hgo
    simp only [Region.next]
    split
    · cases inAngle with
      | true => exact hold
      | false => exact hold
    · exact ⟨rfl, hold⟩
  -- `parendepth` is one more than the depth of the region
  | comment depth =>
    obtain ⟨hstate, hdepth, hold⟩ := h
    simp only [hstate] at hgo
    cases hgo
    simp only [Region.next]
    split
    · next hb =>
      have hne : v.parendepth + 1 ≠ 0 := by omega
      simp only [if_neg hne]
      refine ⟨rfl, ?_, hold⟩
      push_cast
      omega
    · split
      · split
        · next hzero =>
          have heq : v.parendepth - 1 = 0 := by omega
          simp only [heq, if_true]
          exact hold
        · next hzero =>
          have hne : v.parendepth - 1 ≠ 0 := by omega
          simp only [if_neg hne]
          refine ⟨rfl, ?_, hold⟩
          simp only
          omega
      · have hne : v.parendepth ≠ 0 := by omega
        simp only [if_neg hne]
        exact ⟨rfl, hdepth, hold⟩

/-! ## Where the loop is in the header -/

/-- The loop is in front of a text, in a region of the header, and behind the text is the rest. -/
structure Within (rest : Bytes) (escaped : Bool) (hp : Bytes) (v : AddrVars) : Prop where
  at_text : ∃ r text, hp = text ++ rest ∧ Bounded text rest ∧ Region.Fits r v ∧
    endsEscaped r text = escaped

/-- At the end nothing is escaped any more. -/
theorem Within.escaped_of_end {rest : Bytes} {escaped : Bool} {hp : Bytes} {v : AddrVars}
    (h : Within rest escaped hp v) (hend : hp = [] ∨ headerEnd hp = true) :
    escaped = false ∧ hp = rest := by
  obtain ⟨r, text, rfl, hbounded, hfits, rfl⟩ := h.at_text
  -- a header does not end within its text
  cases text with
  | nil => exact ⟨rfl, rfl⟩
  | cons b text =>
    have hclean := hbounded.clean b text (List.suffix_refl _)
    rw [hclean] at hend
    rcases hend with hnil | hend
    · cases hnil
    · cases hend

/-- Before the end there is text. -/
theorem Within.exists_text {rest s : Bytes} {b : UInt8} {escaped : Bool} {v : AddrVars}
    (h : Within rest escaped (b :: s) v) (hend : headerEnd (b :: s) = false) :
    ∃ r text, s = text ++ rest ∧ Bounded (b :: text) rest ∧ Region.Fits r v ∧
      endsEscaped r (b :: text) = escaped := by
  obtain ⟨r, text, hhp, hbounded, hfits, hescaped⟩ := h.at_text
  cases text with
  | nil =>
    rw [List.nil_append] at hhp
    rcases hbounded.ended with hnil | hheader
    · rw [hnil] at hhp
      cases hhp
    · rw [← hhp, hend] at hheader
      cases hheader
  | cons c text =>
    obtain ⟨rfl, rfl⟩ := List.cons.inj hhp
    exact ⟨r, text, rfl, hbounded, hfits, hescaped⟩

/-- **Run.** As long as the rest is not run into, the loop stays within the header. It does not
run into the rest if nothing is escaped there. -/
theorem Visits.within {rest hp hp' : Bytes} {escaped : Bool} {v v' : AddrVars}
    (h : Visits bufsiz hp v hp' v') (hin : Within rest escaped hp v)
    (hrest : escaped = true → ∀ hp' v', Visits bufsiz hp v hp' v' → rest <:+ hp') :
    Within rest escaped hp' v' := by
  -- along the loop; a backslash at the end of the text would lead into the rest
  induction h with
  | here => exact hin
  | step hstate hend hb hgo _ ih =>
    obtain ⟨r, text, rfl, hbounded, hfits, hescaped⟩ := hin.exists_text hend
    have hnext : Within rest escaped (text ++ rest) _ :=
      ⟨_, text, rfl, hbounded.tail, switchStep_fits hfits hgo, by
        rwa [endsEscaped_char r _ hb] at hescaped⟩
    exact ih hnext fun he hp' v' hvisits => hrest he hp' v' (.step hstate hend hb hgo hvisits)
  | escape hstate hparens _ ih =>
    next c s hp v v'' _ =>
    obtain ⟨r, text, htext, hbounded, hfits, hescaped⟩ :=
      hin.exists_text (headerEnd_of_ne (by decide))
    have hcomment : ¬ r.isComment = true := mt hfits.comment_iff.mp hparens
    cases text with
    | nil =>
      rw [endsEscaped_last hcomment] at hescaped
      -- the rest is run into
      have hsuffix := hrest hescaped.symm s _ (.escape hstate hparens .here)
      rw [List.nil_append] at htext
      have hle := hsuffix.length_le
      rw [← htext, List.length_cons] at hle
      omega
    | cons d text =>
      obtain ⟨rfl, rfl⟩ := List.cons.inj htext
      rw [endsEscaped_escape _ _ hcomment] at hescaped
      have hnext : Within rest escaped (text ++ rest)
          { v with address := nexttp bufsiz (nexttp bufsiz v.address backslash) c } :=
        ⟨r, text, rfl, hbounded.tail.tail, hfits.address _, hescaped⟩
      exact ih hnext fun he hp' v' hvisits => hrest he hp' v' (.escape hstate hparens hvisits)
  | comment hparens _ ih =>
    obtain ⟨r, text, rfl, hbounded, hfits, hescaped⟩ :=
      hin.exists_text (headerEnd_of_ne (by decide))
    rw [endsEscaped_comment _ (hfits.comment_iff.mpr hparens)] at hescaped
    have hnext : Within rest escaped (text ++ rest) _ :=
      ⟨r, text, rfl, hbounded.tail, hfits, hescaped⟩
    exact ih hnext fun he hp' v' hvisits => hrest he hp' v' (.comment hparens hvisits)

/-! ## All calls -/

/-- The static variables before the first call on the header, where `hdr` has been taken over,
and after so many calls. -/
def staticsAfter (bufsiz : Nat) (hdr : Bytes) (st : AddrStatics) : Nat → AddrStatics
  | 0 => ⟨some hdr, { st.vars with state := .startHdr, address := [] }⟩
  | calls + 1 => (nxtaddr bufsiz none (staticsAfter bufsiz hdr st calls)).2

/-- What a call returns, the first having the number zero. -/
def returned (bufsiz : Nat) (hdr : Bytes) (st : AddrStatics) (call : Nat) : NxtReturn :=
  (nxtaddr bufsiz none (staticsAfter bufsiz hdr st call)).1

/-- During a call the loop comes to a place of the header. -/
def Comes (bufsiz : Nat) (hdr : Bytes) (st : AddrStatics) (call : Nat) (hp : Bytes) (v : AddrVars) :
    Prop :=
  ∃ start, (staticsAfter bufsiz hdr st call).hp = some start ∧
    Visits bufsiz start { (staticsAfter bufsiz hdr st call).vars with parendepth := 0 } hp v

/-- The calls on a header are in order. -/
structure SafeOn (bufsiz : Nat) (hdr : Bytes) (st : AddrStatics) : Prop where
  /-- The scan pointer stays before the end of the header, or on it. -/
  reads : ∀ call hp v, Comes bufsiz hdr st call hp v → headerRest hdr <:+ hp
  no_overread : ∀ call, returned bufsiz hdr st call ≠ .overread
  writes : ∀ call hp v, Comes bufsiz hdr st call hp v → InBuffer bufsiz v
  stops : ∃ call, returned bufsiz hdr st call = .null

/-- One call, seen from the loop. -/
theorem call_ends (hdr : Bytes) (st : AddrStatics) (call : Nat) :
    ∃ start hp v r, (staticsAfter bufsiz hdr st call).hp = some start ∧
      Visits bufsiz start { (staticsAfter bufsiz hdr st call).vars with parendepth := 0 } hp v ∧
      Ends bufsiz hp v r ∧ returned bufsiz hdr st call = r.1 ∧
      staticsAfter bufsiz hdr st (call + 1) = ⟨some r.2.1, r.2.2⟩ := by
  have hset : ∀ call, ∃ start, (staticsAfter bufsiz hdr st call).hp = some start := by
    intro call
    induction call with
    | zero => exact ⟨hdr, rfl⟩
    | succ call ih =>
      obtain ⟨start, hstart⟩ := ih
      simp only [staticsAfter, nxtaddr, hstart]
      exact ⟨_, rfl⟩
  obtain ⟨start, hstart⟩ := hset call
  obtain ⟨hp, v, hvisits, hends⟩ := @nxtLoop_ends bufsiz start
    { (staticsAfter bufsiz hdr st call).vars with parendepth := 0 }
  refine ⟨start, hp, v, _, hstart, hvisits, hends, ?_, ?_⟩
  · simp only [returned, nxtaddr, hstart]
  · simp only [staticsAfter, nxtaddr, hstart]

/-! ### What is written -/

theorem staticsAfter_inBuffer (hdr : Bytes) (st : AddrStatics) (call : Nat) :
    InBuffer bufsiz (staticsAfter bufsiz hdr st call).vars := by
  induction call with
  | zero => exact Nat.zero_le _
  | succ call ih =>
    obtain ⟨start, hp, v, r, -, hvisits, hends, -, hnext⟩ :=
      @call_ends bufsiz hdr st call
    rw [hnext]
    exact hends.inBuffer (hvisits.inBuffer ih)

theorem comes_inBuffer {hdr hp : Bytes} {st : AddrStatics} {call : Nat} {v : AddrVars}
    (h : Comes bufsiz hdr st call hp v) : InBuffer bufsiz v := by
  obtain ⟨start, -, hvisits⟩ := h
  exact hvisits.inBuffer (staticsAfter_inBuffer hdr st call)

/-! ### The calls stop -/

/-- How much a call has before it. -/
def toGo (bufsiz : Nat) (hdr : Bytes) (st : AddrStatics) (call : Nat) : Nat :=
  remaining ((staticsAfter bufsiz hdr st call).hp.getD []) (staticsAfter bufsiz hdr st call).vars

theorem toGo_lt {hdr address : Bytes} {st : AddrStatics} {call : Nat}
    (h : returned bufsiz hdr st call = .address address) :
    toGo bufsiz hdr st (call + 1) < toGo bufsiz hdr st call := by
  obtain ⟨start, hp, v, r, hstart, hvisits, hends, hreturned, hnext⟩ :=
    @call_ends bufsiz hdr st call
  have hlt := hends.remaining_lt (hreturned.symm.trans h)
  have hle := hvisits.remaining_le
  unfold toGo
  rw [hstart, hnext, Option.getD_some, Option.getD_some]
  exact Nat.lt_of_lt_of_le hlt hle

/-- Without addresses coming for ever, something else is returned. -/
theorem exists_not_address (hdr : Bytes) (st : AddrStatics) (call : Nat) :
    ∃ later, call ≤ later ∧ (∀ k, call ≤ k → k < later →
      ∃ address, returned bufsiz hdr st k = .address address) ∧
      ∀ address, returned bufsiz hdr st later ≠ .address address := by
  -- on what is left to do, which each address makes less
  induction hgo : toGo bufsiz hdr st call using Nat.strongRecOn generalizing call with
  | _ n ih =>
    by_cases h : ∃ address, returned bufsiz hdr st call = .address address
    · obtain ⟨address, haddress⟩ := h
      obtain ⟨later, hle, hbefore, hlater⟩ := ih _ (hgo ▸ toGo_lt haddress) (call + 1) rfl
      refine ⟨later, Nat.le_of_succ_le hle, ?_, hlater⟩
      intro k hk hklt
      rcases Nat.eq_or_lt_of_le hk with rfl | hk
      · exact ⟨address, haddress⟩
      · exact hbefore k hk hklt
    · exact ⟨call, Nat.le_refl _, fun k hk hklt => absurd hk (Nat.not_le.mpr hklt),
        fun address haddress => h ⟨address, haddress⟩⟩

/-! ### The end of the header -/

/-- Between calls: in the header, or done with it. -/
def Course (rest : Bytes) (escaped : Bool) (st : AddrStatics) : Prop :=
  ∃ hp, st.hp = some hp ∧
    (Within rest escaped hp { st.vars with parendepth := 0 } ∨
      escaped = false ∧ rest <:+ hp ∧ (hp = [] ∨ st.vars.state = .enditAll))

theorem course_zero (hdr : Bytes) (st : AddrStatics) :
    Course (headerRest hdr) (endsEscaped .name (headerText hdr)) (staticsAfter bufsiz hdr st 0) :=
  ⟨hdr, rfl, .inl ⟨.name, headerText hdr, (headerText_append_rest hdr).symm, bounded_header hdr,
    rfl, rfl⟩⟩

/-- When the loop has ended in the header, the next call starts in it, or it is done. -/
theorem Ends.course {rest hp : Bytes} {escaped : Bool} {v : AddrVars}
    {r : NxtReturn × Bytes × AddrVars} (h : Ends bufsiz hp v r) (hin : Within rest escaped hp v)
    (hover : r.1 ≠ .overread) : Course rest escaped ⟨some r.2.1, r.2.2⟩ := by
  cases h with
  | nul =>
    obtain ⟨rfl, rfl⟩ := hin.escaped_of_end (.inl rfl)
    exact ⟨[], rfl, .inr ⟨rfl, List.suffix_refl _, .inl rfl⟩⟩
  | finished hstate =>
    obtain ⟨r, text, -, -, hfits, -⟩ := hin.at_text
    exact absurd hstate hfits.running
  | header hstate hend =>
    obtain ⟨rfl, rfl⟩ := hin.escaped_of_end (.inr hend)
    split
    · exact ⟨_, rfl, .inr ⟨rfl, List.suffix_refl _, .inr rfl⟩⟩
    · exact ⟨_, rfl, .inr ⟨rfl, List.suffix_refl _, .inr rfl⟩⟩
  | overread _ _ => exact absurd rfl hover
  | ret hstate hend hb hret =>
    obtain ⟨r, text, rfl, hbounded, hfits, hescaped⟩ := hin.exists_text hend
    obtain ⟨hjunk, -, ⟨rfl, hbare, rfl⟩ | ⟨rfl, hbrackets, rfl⟩⟩ := switchStep_ret hret
    · -- the next call looks at the comma again
      have hr : r = .list := by
        cases r <;> simp_all [Region.Fits]
      subst hr
      exact ⟨_, rfl, .inl ⟨.list, comma :: text, rfl, hbounded, .inl hjunk, hescaped⟩⟩
    -- behind the bracket the list goes on
    · have hr : r = .angle := by
        cases r with
        | list => rcases hfits with hfits | hfits <;> simp [hbrackets] at hfits
        | name | quote | comment => simp_all [Region.Fits]
        | angle => rfl
      subst hr
      rw [endsEscaped_char _ _ hb] at hescaped
      exact ⟨_, rfl, .inl ⟨.list, text, rfl, hbounded.tail, .inl hjunk, hescaped⟩⟩

/-- Done with a header, the loop goes nowhere. -/
theorem Visits.done {hp hp' : Bytes} {v v' : AddrVars} (h : Visits bufsiz hp v hp' v')
    (hdone : hp = [] ∨ v.state = .enditAll) : hp' = hp ∧ v' = v := by
  cases h with
  | here => exact ⟨rfl, rfl⟩
  | step hstate _ _ _ _ => exact absurd (hdone.resolve_left (by simp)) hstate
  | escape hstate _ _ => exact absurd (hdone.resolve_left (by simp)) hstate
  | comment hparens _ =>
    have hendit := hdone.resolve_left (by simp)
    rw [hparens] at hendit
    cases hendit

/-- One call stays in the header, if nothing is escaped at its end or it is known to do so. -/
theorem Course.call {hdr : Bytes} {st : AddrStatics} {call : Nat} {rest : Bytes} {escaped : Bool}
    (h : Course rest escaped (staticsAfter bufsiz hdr st call))
    (hreads : escaped = true → ∀ hp v, Comes bufsiz hdr st call hp v → rest <:+ hp)
    (hover : escaped = true → returned bufsiz hdr st call ≠ .overread) :
    (∀ hp v, Comes bufsiz hdr st call hp v → rest <:+ hp) ∧
      returned bufsiz hdr st call ≠ .overread ∧
      Course rest escaped (staticsAfter bufsiz hdr st (call + 1)) := by
  obtain ⟨start, hp, v, r, hstart, hvisits, hends, hreturned, hnext⟩ :=
    @call_ends bufsiz hdr st call
  obtain ⟨start', hstart', hcase⟩ := h
  obtain rfl : start' = start := Option.some.inj (hstart'.symm.trans hstart)
  rw [hnext, hreturned]
  rcases hcase with hin | ⟨rfl, hsuffix, hdone⟩
  -- wherever the loop comes to in this call, it is within the header
  · have hkeeps : ∀ hp v, Visits bufsiz start'
        { (staticsAfter bufsiz hdr st call).vars with parendepth := 0 } hp v →
        Within rest escaped hp v := by
      intro hp v hvisits
      exact hvisits.within hin fun he hp' v' h => hreads he hp' v' ⟨start', hstart, h⟩
    -- a backslash before the NUL would be an escaped end
    have hnot : r.1 ≠ .overread := by
      intro hr
      cases hescaped : escaped with
      | true => exact hover hescaped (hreturned.trans hr)
      | false =>
        have hin := hkeeps hp v hvisits
        cases hends with
        | overread hstate hparens =>
          obtain ⟨r, text, htext, -, hfits, hesc⟩ := hin.exists_text (by decide)
          obtain ⟨rfl, -⟩ := List.append_eq_nil_iff.mp htext.symm
          rw [endsEscaped_last (mt hfits.comment_iff.mp hparens), hescaped] at hesc
          cases hesc
        | nul | finished _ | ret _ _ _ _ => cases hr
        | header _ _ => split at hr <;> cases hr
    refine ⟨?_, hnot, hends.course (hkeeps hp v hvisits) hnot⟩
    rintro hp₁ v₁ ⟨start, hs, hv⟩
    obtain rfl : start = start' := Option.some.inj (hs.symm.trans hstart)
    obtain ⟨-, text, rfl, -⟩ := (hkeeps hp₁ v₁ hv).at_text
    exact List.suffix_append text rest
  · -- the loop returns at once
    obtain ⟨rfl, rfl⟩ := hvisits.done hdone
    have hnull : r.1 = .null ∧ r.2.1 = hp ∧
        r.2.2.state = (staticsAfter bufsiz hdr st call).vars.state := by
      cases hends with
      | nul => exact ⟨rfl, rfl, rfl⟩
      | finished _ => exact ⟨rfl, rfl, rfl⟩
      | header hstate _ => exact absurd (hdone.resolve_left (by simp)) hstate
      | overread hstate _ => exact absurd (hdone.resolve_left (by simp)) hstate
      | ret hstate _ _ _ => exact absurd (hdone.resolve_left (by simp)) hstate
    obtain ⟨hr, hhp, hstate⟩ := hnull
    refine ⟨?_, by simp [hr], hp, by rw [hhp], .inr ⟨rfl, hsuffix, ?_⟩⟩
    · rintro hp₁ v₁ ⟨start, hs, hv⟩
      have hsame := Option.some.inj (hs.symm.trans hstart)
      rw [hsame] at hv
      rw [(hv.done hdone).1]
      exact hsuffix
    · exact hdone.imp id fun h => hstate.trans h

/-- **Run.** -/
theorem course_call {hdr : Bytes} {st : AddrStatics}
    (hescaped : endsEscaped .name (headerText hdr) = false) (call : Nat) :
    Course (headerRest hdr) false (staticsAfter bufsiz hdr st call) := by
  induction call with
  | zero => exact hescaped ▸ course_zero hdr st
  | succ call ih => exact (ih.call (by simp) (by simp)).2.2

/-- If something is escaped, the calls go on to return addresses. -/
theorem escaped_address {rest hdr : Bytes} {st : AddrStatics} {call : Nat}
    (h : Course rest true (staticsAfter bufsiz hdr st call))
    (hreads : ∀ hp v, Comes bufsiz hdr st call hp v → rest <:+ hp)
    (hover : returned bufsiz hdr st call ≠ .overread) :
    ∃ address, returned bufsiz hdr st call = .address address := by
  obtain ⟨start, hp, v, r, hstart, hvisits, hends, hreturned, -⟩ :=
    @call_ends bufsiz hdr st call
  obtain ⟨start', hstart', hin | ⟨hfalse, -⟩⟩ := h
  · obtain rfl : start' = start := Option.some.inj (hstart'.symm.trans hstart)
    have hin := hvisits.within hin fun _ hp' v' h => hreads hp' v' ⟨start', hstart, h⟩
    rw [hreturned] at hover ⊢
    cases hends with
    | nul => cases (hin.escaped_of_end (.inl rfl)).1
    | finished hstate =>
      obtain ⟨_, _, _, _, hfits, _⟩ := hin.at_text
      exact absurd hstate hfits.running
    | header _ hend => cases (hin.escaped_of_end (.inr hend)).1
    | overread _ _ => exact absurd rfl hover
    | ret _ _ _ _ => exact ⟨_, rfl⟩
  · cases hfalse

/-- The calls on a header are in order exactly if its text does not end in a backslash that
takes the character behind it. -/
theorem nxtaddr_safe_iff (bufsiz : Nat) (hdr : Bytes) (st : AddrStatics) :
    SafeOn bufsiz hdr st ↔ endsEscaped .name (headerText hdr) = false := by
  constructor
  · intro hsafe
    rw [← Bool.not_eq_true]
    intro hescaped
    -- the calls would return addresses for ever
    have hcourse : ∀ call, Course (headerRest hdr) true (staticsAfter bufsiz hdr st call) := by
      intro call
      induction call with
      | zero => exact hescaped ▸ course_zero hdr st
      | succ call ih =>
        exact (ih.call (fun _ => hsafe.reads call) (fun _ => hsafe.no_overread call)).2.2
    obtain ⟨call, hnull⟩ := hsafe.stops
    obtain ⟨address, haddress⟩ :=
      escaped_address (hcourse call) (hsafe.reads call) (hsafe.no_overread call)
    rw [hnull] at haddress
    cases haddress
  · intro hescaped
    have hcall := fun call => (@course_call bufsiz _ st hescaped call).call
      (by simp) (by simp)
    refine ⟨fun call => (hcall call).1, fun call => (hcall call).2.1,
      fun call hp v => comes_inBuffer, ?_⟩
    obtain ⟨call, -, -, hlast⟩ := @exists_not_address bufsiz hdr st 0
    refine ⟨call, ?_⟩
    cases hreturned : returned bufsiz hdr st call with
    | null => rfl
    | address address => exact absurd hreturned (hlast address)
    | overread => exact absurd hreturned (hcall call).2.1

end

/-- A header that ends in an escaped newline, and one behind it. -/
def escapedNewline : Bytes :=
  [84, 111, colon, Bytes.space, 97, backslash, Bytes.lf, 67, 99, colon, Bytes.space, 98, Bytes.lf]

/-- Nothing yet. -/
def freshStatics : AddrStatics := ⟨none, ⟨.startHdr, .startHdr, [], 0⟩⟩

/-- The scan goes on in the next header. -/
theorem nxtaddr_runs_on : ¬ SafeOn 8192 escapedNewline freshStatics := by
  intro hsafe
  have hcomes : Comes 8192 escapedNewline freshStatics 0
      [67, 99, colon, Bytes.space, 98, Bytes.lf]
      ⟨.bareAddress, .startHdr, [97, backslash, Bytes.lf], 0⟩ := by
    refine ⟨_, rfl, ?_⟩
    apply Visits.step (by decide) rfl (by decide) rfl
    apply Visits.step (by decide) rfl (by decide) rfl
    apply Visits.step (by decide) rfl (by decide) rfl
    apply Visits.step (by decide) rfl (by decide) rfl
    apply Visits.step (by decide) rfl (by decide) rfl
    apply Visits.escape (by decide) (by decide)
    exact Visits.here
  exact absurd (hsafe.reads 0 _ _ hcomes) (by decide)

end Fetchmail.Rfc822
