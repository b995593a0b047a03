import Fetchmail.Imap.Getauth

/-!
# Passwords in the Trace

The text that `gen_send` and `gen_transact` report of a command with a password in it, and for
which passwords it is one and the same. `enshroud` puts an asterisk for the first occurrence of a
copy of the password, and copy and command are cut to the sizes of their buffers.
-/

namespace Fetchmail.Transact

open Fetchmail.Lib

/-- `'*'` -/
def asterisk : UInt8 := 42

/-- `sizeof(shroud) - 1` -/
def shroudLen : Nat := 130

/-- `sizeof(buf) - 3`: the longest command, as the line end is put behind it. -/
def commandLen : Nat := 8190

/-- `enshroud` -/
def enshroud (shroud buf : Bytes) : Bytes :=
  if shroud = [] then buf
  else match Bytes.findSub shroud buf with
    | none => buf
    | some i => buf.take i ++ asterisk :: buf.drop (i + shroud.length)

/-- `buf[strlen(buf)-2] = '\0'` -/
def cutLineEnd (buf : Bytes) : Bytes := buf.take (buf.length - 2)

/-- What is reported of a command that ends with a secret, of which `shroud` is a copy. -/
def traced (front secret : Bytes) : Bytes :=
  cutLineEnd (enshroud (secret.take shroudLen) ((front ++ secret).take commandLen ++ Bytes.crlf))

/-- The commands that are sent while `shroud` is set. -/
inductive Login where
  | pass
  | rpop
  | helo (remotename : Bytes)
  | login (tag remotename : Bytes)
  deriving DecidableEq, Repr

namespace Login

/-- `protocol->name` -/
def protocolName : Login → Bytes
  | pass => Bytes.lit "POP3"
  | rpop => Bytes.lit "POP3"
  | helo _ => Bytes.lit "POP2"
  | login _ _ => Bytes.lit "IMAP"

/-- The command up to the password. -/
def front : Login → Bytes
  | pass => Bytes.lit "PASS "
  | rpop => Bytes.lit "RPOP "
  | helo remotename => Bytes.lit "HELO " ++ remotename ++ Bytes.lit " "
  | login tag remotename => tag ++ Bytes.lit " LOGIN \"" ++ Imap.imapCanonicalize remotename ++
      Bytes.lit "\" "

/-- The password as it stands in the command and in `shroud`. -/
def secret : Login → Bytes → Bytes
  | login _ _, password => Bytes.lit "\"" ++ Imap.imapCanonicalize password ++ Bytes.lit "\""
  | _, password => password

/-- `report(stdout, "%s> %s\n", protocol->name, buf)` -/
def reported (c : Login) (password : Bytes) : Bytes :=
  c.protocolName ++ Bytes.lit "> " ++ traced c.front (c.secret password) ++ [Bytes.lf]

end Login

/-! ## Where a pattern stands first -/

/-- The first `pat` in `s` has `x` before it and `y` behind it. -/
structure FirstAt (pat s x y : Bytes) : Prop where
  eq : s = x ++ (pat ++ y)
  first : ∀ x' y', s = x' ++ (pat ++ y') → x.length ≤ x'.length

section

variable {pat s x y : Bytes} {i : Nat}

/-- `findSub` finds the first occurrence. -/
theorem FirstAt.findSub (h : FirstAt pat s x y) : Bytes.findSub pat s = some x.length := by
  obtain ⟨i, hi, hfind⟩ := Bytes.findSub_append pat x y
  rw [← h.eq] at hfind
  obtain ⟨x', y', hs, hlen⟩ := Bytes.findSub_spec hfind
  have hle := h.first x' y' hs
  rw [hfind]
  congr 1
  omega

theorem firstAt_of_findSub (hs : s = x ++ (pat ++ y))
    (hfind : Bytes.findSub pat s = some x.length) : FirstAt pat s x y := by
  refine ⟨hs, fun x' y' hs' => ?_⟩
  obtain ⟨j, hj, hfind'⟩ := Bytes.findSub_append pat x' y'
  rw [← hs', hfind] at hfind'
  obtain rfl := Option.some.inj hfind'
  exact hj

/-- A pattern that occurs has a first occurrence. -/
theorem exists_firstAt (h : pat <:+: s) : ∃ x y, FirstAt pat s x y := by
  obtain ⟨u, v, huv⟩ := h
  rw [List.append_assoc] at huv
  obtain ⟨i, -, hfind⟩ := Bytes.findSub_append pat u v
  rw [huv] at hfind
  obtain ⟨x, y, hs, rfl⟩ := Bytes.findSub_spec hfind
  exact ⟨x, y, firstAt_of_findSub hs hfind⟩

theorem enshroud_firstAt (hne : pat ≠ []) (h : FirstAt pat s x y) :
    enshroud pat s = x ++ asterisk :: y := by
  rw [enshroud, if_neg hne, h.findSub, h.eq]
  have hdrop : (x ++ (pat ++ y)).drop (x.length + pat.length) = y := by
    rw [← List.append_assoc, ← List.length_append]
    exact List.drop_left
  simp only [List.take_left, hdrop]

theorem enshroud_absent (h : ¬ pat <:+: s) : enshroud pat s = s := by
  unfold enshroud
  split
  · rfl
  · cases hfind : Bytes.findSub pat s with
    | none => rfl
    | some i =>
      obtain ⟨x, y, rfl, -⟩ := Bytes.findSub_spec hfind
      exact absurd ⟨x, y, List.append_assoc _ _ _⟩ h

/-- What is cut off again. -/
theorem cutLineEnd_append (s : Bytes) : cutLineEnd (s ++ Bytes.crlf) = s := by
  rw [cutLineEnd, List.length_append]
  exact List.take_left' (by simp [Bytes.crlf])

end

/-! ## Passwords that are replaced -/

/-- The passwords for which the same text is reported. -/
inductive Shroudable (front secret : Bytes) : Prop
  /-- The line ends with as much of the secret as there is a copy of, and this stands nowhere
  before. -/
  | replaced (hfront : front.length < commandLen) (hne : secret ≠ [])
      (hcopy : secret.take (commandLen - front.length) = secret.take shroudLen)
      (hfirst : FirstAt (secret.take shroudLen) (front ++ secret.take shroudLen) front [])
  /-- It does stand before, but what is behind it there is what was between it and an asterisk that
  began it, and an asterisk. -/
  | echoed (hfront : front.length < commandLen) (hne : secret ≠ [])
      (hcopy : secret.take (commandLen - front.length) = secret.take shroudLen) (x w : Bytes)
      (hfirst : FirstAt (secret.take shroudLen) (front ++ secret.take shroudLen) x (w ++ [asterisk]))
      (hecho : front = x ++ asterisk :: w)
  /-- Of a longer secret that begins with an asterisk, the line has room for no more. -/
  | cut (hfront : front.length < commandLen)
      (hshown : secret.take (commandLen - front.length) = [asterisk]) (hlong : 1 < secret.length)
      (habsent : ¬ secret.take shroudLen <:+: front ++ [asterisk] ++ Bytes.crlf)
  /-- The line has no room for the secret, and the copy is not in it. -/
  | beyond (hfront : commandLen ≤ front.length)
      (habsent : secret = [] ∨ ¬ secret.take shroudLen <:+: front.take commandLen ++ Bytes.crlf)
  /-- Or it is a single character: an asterisk, or one of the line end. -/
  | single (hfront : commandLen ≤ front.length) (b : UInt8) (hcopy : secret = [b])
      (hb : b = asterisk ∨ b ∉ front.take commandLen)

/-- The text that is reported for them. -/
def masked (front : Bytes) : Bytes :=
  if front.length < commandLen then front ++ [asterisk] else front.take commandLen

variable {front secret shroud shown x y : Bytes}

/-- The copy is that part of the secret which the line ends with. -/
theorem traced_of_lt (hfront : front.length < commandLen) :
    traced front secret = cutLineEnd (enshroud (secret.take shroudLen)
      (front ++ secret.take (commandLen - front.length) ++ Bytes.crlf)) := by
  rw [traced, List.take_append, List.take_of_length_le (Nat.le_of_lt hfront)]

theorem traced_of_le (hfront : commandLen ≤ front.length) :
    traced front secret = cutLineEnd (enshroud (secret.take shroudLen)
      (front.take commandLen ++ Bytes.crlf)) := by
  rw [traced, List.take_append, Nat.sub_eq_zero_of_le hfront, List.take_zero, List.append_nil]

/-- A line in which the copy is replaced gets shorter by all of it but one character. -/
theorem length_cutLineEnd_enshroud (hne : shroud ≠ []) (hsub : shroud <:+: shown ++ Bytes.crlf) :
    (cutLineEnd (enshroud shroud (shown ++ Bytes.crlf))).length =
      shown.length + 1 - shroud.length := by
  obtain ⟨x, y, h⟩ := exists_firstAt hsub
  have hlen := congrArg List.length h.eq
  rw [enshroud_firstAt hne h, cutLineEnd, List.length_take]
  simp only [List.length_append, List.length_cons, Bytes.crlf, List.length_nil] at hlen ⊢
  omega

/-- What stands before the line end first stands there first. -/
theorem FirstAt.append (h : FirstAt shroud (front ++ shroud) x y) (tail : Bytes) :
    FirstAt shroud (front ++ shroud ++ tail) x (y ++ tail) := by
  refine ⟨by rw [h.eq, List.append_assoc, List.append_assoc], fun x' y' heq => ?_⟩
  have hle := h.first front [] (by rw [List.append_nil])
  by_contra hlt
  -- an earlier one would end before the line end
  have hprefix : x' ++ shroud <+: front ++ shroud ++ tail :=
    ⟨y', by rw [List.append_assoc, ← heq]⟩
  have hshort : (x' ++ shroud).length ≤ (front ++ shroud).length := by
    rw [List.length_append, List.length_append]
    omega
  obtain ⟨y'', hy''⟩ := List.prefix_of_prefix_length_le hprefix (List.prefix_append _ tail) hshort
  have hearlier := h.first x' y'' (by rw [← hy'', List.append_assoc])
  omega

/-- Where the copy ends the line, its first occurrence decides. -/
theorem masked_replaced (hne : shroud ≠ []) :
    cutLineEnd (enshroud shroud (front ++ shroud ++ Bytes.crlf)) = front ++ [asterisk] ↔
      FirstAt shroud (front ++ shroud) front [] ∨
        ∃ x w, FirstAt shroud (front ++ shroud) x (w ++ [asterisk]) ∧ front = x ++ asterisk :: w := by
  have hend : front ++ shroud = front ++ (shroud ++ []) := by rw [List.append_nil]
  constructor
  · intro heq
    obtain ⟨x, y, h⟩ := exists_firstAt (List.suffix_append front shroud).isInfix
    rw [enshroud_firstAt hne (h.append Bytes.crlf), ← List.cons_append, ← List.append_assoc,
      cutLineEnd_append] at heq
    rcases List.eq_nil_or_concat y with rfl | ⟨w, b, rfl⟩
    · obtain rfl : x = front := (List.append_inj' heq rfl).1
      exact .inl h
    · rw [List.concat_eq_append, ← List.cons_append, ← List.append_assoc] at heq
      obtain ⟨hfront, hb⟩ := List.append_inj' heq rfl
      obtain rfl := (List.cons.inj hb).1
      rw [List.concat_eq_append] at h
      exact .inr ⟨x, w, h, hfront.symm⟩
  · rintro (h | ⟨x, w, h, rfl⟩)
    · rw [enshroud_firstAt hne (h.append Bytes.crlf), ← List.cons_append, ← List.append_assoc,
        cutLineEnd_append]
    · rw [enshroud_firstAt hne (h.append Bytes.crlf), ← List.cons_append, ← List.append_assoc,
        cutLineEnd_append]
      simp

/-- A single character that first occurs in the line end. -/
theorem FirstAt.beyond {b : UInt8} {z : Bytes}
    (h : FirstAt [b] (shown ++ Bytes.crlf) (shown ++ z) y) :
    cutLineEnd (shown ++ z ++ asterisk :: y) = shown ∧ b ∉ shown := by
  refine ⟨?_, fun hmem => ?_⟩
  · have hlen := congrArg List.length h.eq
    rw [cutLineEnd, List.append_assoc]
    refine List.take_left' ?_
    simp only [Bytes.crlf, List.length_append, List.length_cons, List.length_nil] at hlen ⊢
    omega
  · obtain ⟨u, w, rfl⟩ := List.append_of_mem hmem
    have hle := h.first u (w ++ Bytes.crlf) (by simp)
    simp only [List.length_append, List.length_cons] at hle
    omega

/-- A single character is replaced in the line unless it first occurs in the line end. -/
theorem masked_single {b : UInt8} (hsub : [b] <:+: shown ++ Bytes.crlf) :
    cutLineEnd (enshroud [b] (shown ++ Bytes.crlf)) = shown ↔ b = asterisk ∨ b ∉ shown := by
  obtain ⟨x, y, h⟩ := exists_firstAt hsub
  have hline : shown ++ Bytes.crlf = x ++ b :: y := h.eq
  rw [enshroud_firstAt (List.cons_ne_nil _ _) h]
  rcases List.append_eq_append_iff.mp hline with ⟨z, rfl, -⟩ | ⟨z, rfl, hz⟩
  · obtain ⟨hcut, hmem⟩ := h.beyond
    exact iff_of_true hcut (.inr hmem)
  · cases z with
    | nil =>
      have hend : FirstAt [b] (x ++ Bytes.crlf) (x ++ []) y := by simpa using h
      obtain ⟨hcut, hmem⟩ := hend.beyond
      rw [List.append_nil] at hcut ⊢
      exact iff_of_true hcut (.inr hmem)
    | cons c z =>
      -- it occurs before
      obtain ⟨rfl, hy⟩ := List.cons.inj hz
      obtain rfl : y = z ++ Bytes.crlf := hy
      rw [← List.cons_append, ← List.append_assoc, cutLineEnd_append]
      simp [eq_comm]

/-- The ways in which a line is masked that has room for a part of the secret. -/
theorem shroudable_of_lt (hfront : front.length < commandLen) :
    Shroudable front secret ↔ secret ≠ [] ∧
      ((secret.take (commandLen - front.length) = secret.take shroudLen ∧
          (FirstAt (secret.take shroudLen) (front ++ secret.take shroudLen) front [] ∨
            ∃ x w, FirstAt (secret.take shroudLen) (front ++ secret.take shroudLen) x
              (w ++ [asterisk]) ∧ front = x ++ asterisk :: w)) ∨
        (secret.take (commandLen - front.length) = [asterisk] ∧ 1 < secret.length ∧
          ¬ secret.take shroudLen <:+: front ++ [asterisk] ++ Bytes.crlf)) := by
  constructor
  · rintro (⟨-, hne, hcopy, h⟩ | ⟨-, hne, hcopy, x, w, h, hecho⟩ | ⟨-, hshown, hlong, habsent⟩ |
      ⟨hle⟩ | ⟨hle⟩)
    · exact ⟨hne, .inl ⟨hcopy, .inl h⟩⟩
    · exact ⟨hne, .inl ⟨hcopy, .inr ⟨x, w, h, hecho⟩⟩⟩
    · refine ⟨?_, .inr ⟨hshown, hlong, habsent⟩⟩
      rintro rfl
      exact Nat.not_lt_zero 1 hlong
    · omega
    · omega
  · rintro ⟨hne, ⟨hcopy, h | ⟨x, w, h, hecho⟩⟩ | ⟨hshown, hlong, habsent⟩⟩
    · exact .replaced hfront hne hcopy h
    · exact .echoed hfront hne hcopy x w h hecho
    · exact .cut hfront hshown hlong habsent

/-- And one that has none. -/
theorem shroudable_of_le (hfront : commandLen ≤ front.length) :
    Shroudable front secret ↔
      (secret = [] ∨ ¬ secret.take shroudLen <:+: front.take commandLen ++ Bytes.crlf) ∨
        ∃ b, secret = [b] ∧ (b = asterisk ∨ b ∉ front.take commandLen) := by
  constructor
  · rintro (⟨hlt⟩ | ⟨hlt⟩ | ⟨hlt⟩ | ⟨-, habsent⟩ | ⟨-, b, hcopy, hb⟩)
    · omega
    · omega
    · omega
    · exact .inl habsent
    · exact .inr ⟨b, hcopy, hb⟩
  · rintro (habsent | ⟨b, hcopy, hb⟩)
    · exact .beyond hfront habsent
    · exact .single hfront b hcopy hb

/-- The line has room for a part of the secret. -/
theorem traced_eq_of_lt (hfront : front.length < commandLen) :
    traced front secret = front ++ [asterisk] ↔ Shroudable front secret := by
  rw [traced_of_lt hfront, shroudable_of_lt hfront]
  by_cases hne : secret = []
  -- no secret, no asterisk
  · refine iff_of_false ?_ fun h => h.1 hne
    rw [hne, List.take_nil, List.take_nil, enshroud, if_pos rfl, cutLineEnd_append]
    simp
  rw [and_iff_right hne]
  have hcopyne : secret.take shroudLen ≠ [] := by simp [hne, shroudLen]
  by_cases hcopy : secret.take (commandLen - front.length) = secret.take shroudLen
  -- the line ends with the copy
  · have hnotcut : ¬ (secret.take shroudLen = [asterisk] ∧ 1 < secret.length ∧
        ¬ secret.take shroudLen <:+: front ++ [asterisk] ++ Bytes.crlf) := by
      rintro ⟨hshown, hlong, -⟩
      have hlen := congrArg List.length hshown
      rw [List.length_take, List.length_singleton, shroudLen] at hlen
      omega
    rw [hcopy, masked_replaced hcopyne, or_iff_left hnotcut, and_iff_right rfl]
  rw [or_iff_right fun h => hcopy h.1]
  by_cases hsub : secret.take shroudLen <:+:
      front ++ secret.take (commandLen - front.length) ++ Bytes.crlf
  -- the line holds more of the secret than the copy, or less: its length tells
  · refine iff_of_false (fun heq => hcopy ?_) fun ⟨hshown, _, habsent⟩ => habsent (hshown ▸ hsub)
    have hlen := congrArg List.length heq
    have hpos := List.length_pos_iff.mpr hcopyne
    rw [length_cutLineEnd_enshroud hcopyne hsub] at hlen
    simp only [List.length_append, List.length_singleton, List.length_take] at hlen hpos
    exact List.take_eq_take_iff.mpr (by omega)
  -- nothing is replaced, and what the line holds of the secret has to be an asterisk
  · rw [enshroud_absent hsub, cutLineEnd_append, List.append_right_inj]
    refine ⟨fun hshown => ⟨hshown, ?_, hshown ▸ hsub⟩, fun h => h.1⟩
    by_contra hshort
    have hpos := List.length_pos_iff.mpr hne
    obtain ⟨b, rfl⟩ := List.length_eq_one_iff.mp (show secret.length = 1 by omega)
    have hmem : asterisk ∈ [b] := List.mem_of_mem_take (hshown ▸ List.mem_singleton_self asterisk)
    exact hcopy (hshown.trans (congrArg (fun c => [c]) (List.mem_singleton.mp hmem)))

/-- The line has room for nothing of the secret. -/
theorem traced_eq_of_le (hfront : commandLen ≤ front.length) :
    traced front secret = front.take commandLen ↔ Shroudable front secret := by
  rw [traced_of_le hfront, shroudable_of_le hfront]
  by_cases hne : secret = []
  · refine iff_of_true ?_ (.inl (.inl hne))
    rw [hne, List.take_nil, enshroud, if_pos rfl, cutLineEnd_append]
  by_cases hsub : secret.take shroudLen <:+: front.take commandLen ++ Bytes.crlf
  swap
  · refine iff_of_true ?_ (.inl (.inr hsub))
    rw [enshroud_absent hsub, cutLineEnd_append]
  rw [or_iff_right (not_or.mpr ⟨hne, not_not.mpr hsub⟩)]
  by_cases hsingle : ∃ b, secret = [b]
  · obtain ⟨b, rfl⟩ := hsingle
    have hcopy : [b].take shroudLen = [b] := rfl
    rw [hcopy] at hsub ⊢
    rw [masked_single hsub]
    constructor
    · exact fun hb => ⟨b, rfl, hb⟩
    · rintro ⟨c, hc, hb⟩
      obtain rfl := (List.cons.inj hc).1
      exact hb
  -- a longer copy that is replaced makes the line shorter
  · refine iff_of_false (fun heq => hsingle ?_) fun ⟨b, hb, _⟩ => hsingle ⟨b, hb⟩
    have hcopyne : secret.take shroudLen ≠ [] := by simp [hne, shroudLen]
    have hpos := List.length_pos_iff.mpr hne
    have hlen := congrArg List.length heq
    rw [length_cutLineEnd_enshroud hcopyne hsub, List.length_take, List.length_take, shroudLen,
      commandLen] at hlen
    rw [commandLen] at hfront
    exact List.length_eq_one_iff.mp (by omega)

/-- **Which passwords are masked.** -/
theorem traced_eq_masked_iff (front secret : Bytes) :
    traced front secret = masked front ↔ Shroudable front secret := by
  unfold masked
  split
  · next hfront => exact traced_eq_of_lt hfront
  · next hfront => exact traced_eq_of_le (Nat.not_lt.mp hfront)

namespace Login

/-- The passwords of which a command tells nothing. -/
def Conceals (c : Login) (password : Bytes) : Prop := Shroudable c.front (c.secret password)

theorem reported_eq_iff (c : Login) (p₁ p₂ : Bytes) :
    c.reported p₁ = c.reported p₂ ↔
      traced c.front (c.secret p₁) = traced c.front (c.secret p₂) := by
  rw [reported, reported, List.append_left_inj, List.append_right_inj]

/-- **What is reported of a command is the same for any two passwords that are concealed**, and for
no other. -/
theorem reported_exact (c : Login) (p₁ p₂ : Bytes) (h : c.Conceals p₁) :
    c.reported p₁ = c.reported p₂ ↔ c.Conceals p₂ := by
  rw [reported_eq_iff, (traced_eq_masked_iff _ _).mpr h, eq_comm, traced_eq_masked_iff]
  rfl

theorem conceals_secret : pass.Conceals (Bytes.lit "secret") :=
  .replaced (by decide) (by decide) (by decide +kernel)
    (firstAt_of_findSub (by decide +kernel) (by decide +kernel))

/-- Two passwords of the ordinary kind. -/
theorem reported_exact_pass :
    pass.reported (Bytes.lit "secret") = pass.reported (Bytes.lit "hunter") ↔
      pass.Conceals (Bytes.lit "hunter") :=
  reported_exact pass (Bytes.lit "secret") (Bytes.lit "hunter") conceals_secret

/-- A password that stands in the name of the command is seen. -/
theorem reported_reveals :
    pass.reported (Bytes.lit "secret") = Bytes.lit "POP3> PASS *\n" ∧
      pass.reported (Bytes.lit "S") = Bytes.lit "POP3> PA*S S\n" ∧
      pass.reported (Bytes.lit "secret") ≠ pass.reported (Bytes.lit "S") := by
  decide +kernel

end Login

end Fetchmail.Transact
