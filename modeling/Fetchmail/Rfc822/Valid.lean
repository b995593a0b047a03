import Fetchmail.Pop3.Getauth
import Mathlib.Data.List.TakeWhile

/-!
# Message Identifiers

`rfc822valid.c`, with each byte that it reads: a pointer is the memory from its place on, up to the
terminator of the string, and where nothing is left nothing can be read. Below, the functions
without the memory, as the `APOP` greeting is checked with them, and the grammar.
-/

namespace Fetchmail.Rfc822.Valid

open Fetchmail.Lib Fetchmail.Pop3

/-! ## The recogniser -/

/-- What a function returns, and where it leaves the pointer. -/
abbrev Scan : Type := Bool × Bytes

def backslash : UInt8 := 92

/-- `quotedpair` -/
def quotedpair (x : Bytes) : Option Scan :=
  x.head?.bind fun c =>
    if c ≠ backslash then some (false, x)
    else
      let x := x.tail
      x.head?.bind fun d =>
        if 127 < d ∨ d = Bytes.nul then some (false, x) else some (true, x.tail)

/-- The loop of `quotedstring` and `domain_literal`, up to the character `last`; `bad` is not
allowed in between. Each round moves the pointer, so the size of the memory is fuel enough. -/
def quotedLoop (last : UInt8) (bad : Bytes) : (fuel : Nat) → Bytes → Option Scan
  | 0, _ => none
  | fuel + 1, x =>
    x.head?.bind fun c =>
      if c = last then some (true, x.tail)
      else if c ∈ bad ∨ c = Bytes.nul then some (false, x)
      else if c = backslash then
        (quotedpair x).bind fun (ok, x) =>
          if ok then quotedLoop last bad fuel x else some (false, x)
      else if 127 < c then some (false, x)
      else quotedLoop last bad fuel x.tail

/-- The first character, and the loop behind it. -/
def quoted (first last : UInt8) (bad : Bytes) (x : Bytes) : Option Scan :=
  x.head?.bind fun c =>
    if c ≠ first then some (false, x) else quotedLoop last bad x.tail.length x.tail

/-- `quotedstring` -/
def quotedstring (x : Bytes) : Option Scan := quoted 34 34 [Bytes.cr] x

/-- `domain_literal` -/
def domainLiteral (x : Bytes) : Option Scan := quoted 91 93 [Bytes.cr, 91] x

/-- `strspn(x, atomchar)`, which reads up to a character that is none. -/
def skipAtom (x : Bytes) : Option Bytes :=
  match x.dropWhile (· ∈ msgidAtomChar) with
  | [] => none
  | rest => some rest

/-- `atom`; `strchr` finds the terminator, too. -/
def atom (x : Bytes) : Option Scan :=
  x.head?.bind fun c =>
    if c ∈ msgidAtomChar ∨ c = Bytes.nul then (skipAtom x).map (true, ·) else some (false, x)

/-- `word` -/
def word (x : Bytes) : Option Scan :=
  x.head?.bind fun c => if c = 34 then quotedstring x else atom x

/-- `subdomain` -/
def subdomain (x : Bytes) : Option Scan :=
  x.head?.bind fun c => if c = 91 then domainLiteral x else atom x

/-- The loops of `rfc822_valid_msgid`: parts with dots between them, up to the character `last`.
Without a pointer, the function returns 0. -/
def partsLoop (part : Bytes → Option Scan) (last : UInt8) : (fuel : Nat) → Bytes →
    Option (Option Bytes)
  | 0, _ => none
  | fuel + 1, x =>
    (part x).bind fun (ok, x) =>
      if ok then
        x.head?.bind fun c =>
          if c = Bytes.dot then partsLoop part last fuel x.tail
          else if c = last then some (some x)
          else some none
      else some none

/-- `rfc822_valid_msgid` on a string in memory; `none` if a byte is read that is not there. -/
def validMsgid (x : Bytes) : Option Bool :=
  x.head?.bind fun c =>
    if c ≠ 60 then some false
    else
      (partsLoop word 64 x.tail.length x.tail).bind fun
        | none => some false
        | some x =>
          x.head?.bind fun c =>
            if c ≠ 64 then some false
            else
              (partsLoop subdomain 62 x.tail.length x.tail).bind fun
                | none => some false
                | some x => x.head?.map fun c => decide (c = 62)

/-! ## The grammar -/

/-- What stands between quotes or brackets: characters but for some, and quoted pairs. -/
inductive Quoted (last : UInt8) (bad : Bytes) : Bytes → Prop where
  | nil : Quoted last bad []
  | text {c : UInt8} {s : Bytes} (hlast : c ≠ last) (hpair : c ≠ backslash) (hbad : c ∉ bad)
      (hchar : c ≤ 127) (hs : Quoted last bad s) : Quoted last bad (c :: s)
  | pair {d : UInt8} {s : Bytes} (hnul : d ≠ Bytes.nul) (hchar : d ≤ 127)
      (hs : Quoted last bad s) : Quoted last bad (backslash :: d :: s)

/-- `1*ATOMCHAR` -/
structure Atom (s : Bytes) : Prop where
  nonempty : s ≠ []
  chars : ∀ b ∈ s, b ∈ msgidAtomChar

/-- `word = atom/quoted-string` -/
inductive Word : Bytes → Prop where
  | atom {s : Bytes} (h : Atom s) : Word s
  | quotedString {s : Bytes} (h : Quoted 34 [Bytes.cr] s) : Word (34 :: (s ++ [34]))

/-- `sub-domain = domain-ref/domain-literal` -/
inductive SubDomain : Bytes → Prop where
  | domainRef {s : Bytes} (h : Atom s) : SubDomain s
  | domainLiteral {s : Bytes} (h : Quoted 93 [Bytes.cr, 91] s) : SubDomain (91 :: (s ++ [93]))

/-- `part *("." part)` -/
inductive Dotted (part : Bytes → Prop) : Bytes → Prop where
  | one {s : Bytes} (h : part s) : Dotted part s
  | cons {s t : Bytes} (h : part s) (ht : Dotted part t) : Dotted part (s ++ Bytes.dot :: t)

/-- `"<" word *("." word) "@" sub-domain *("." sub-domain) ">"` -/
def IsMsgid (s : Bytes) : Prop :=
  ∃ l d, Dotted Word l ∧ Dotted SubDomain d ∧ s = 60 :: (l ++ 64 :: (d ++ [62]))

/-! ## Without the memory -/

/-- A run on the memory of a C string follows a function that says what is left of the string. -/
def Follows (run : Option Scan) (rest : Option Bytes) : Prop :=
  match rest with
  | some r => run = some (true, r ++ [Bytes.nul])
  | none => ∃ m, run = some (false, m)

variable {last : UInt8} {bad s : Bytes}

theorem msgidQuoted_cons (c : UInt8) (s : Bytes) :
    msgidQuoted last bad (c :: s) =
      if c = last then some s
      else if c ∈ bad then none
      else if c = 92 then
        match s with
        | [] => none
        | d :: s => if 127 < d then none else msgidQuoted last bad s
      else if 127 < c then none
      else msgidQuoted last bad s := by
  rw [msgidQuoted.eq_def]
  cases s <;> rfl

theorem quotedLoop_follows (hlast : Bytes.nul ≠ last) (fuel : Nat) (hs : Bytes.nul ∉ s)
    (hfuel : s.length < fuel) :
    Follows (quotedLoop last bad fuel (s ++ [Bytes.nul])) (msgidQuoted last bad s) := by
  induction fuel generalizing s with
  | zero => omega
  | succ fuel ih =>
    cases s with
    | nil => simp [quotedLoop, msgidQuoted, hlast, Follows]
    | cons c s =>
      rw [List.mem_cons, not_or] at hs
      rw [List.length_cons] at hfuel
      simp only [quotedLoop, msgidQuoted_cons, List.cons_append, List.head?_cons, Option.bind_some,
        List.tail_cons, Ne.symm hs.1, or_false]
      by_cases hc : c = last
      · simp [hc, Follows]
      by_cases hb : c ∈ bad
      · simp [hc, hb, Follows]
      simp only [hc, hb, if_false]
      -- a backslash takes the next character with it, which must be there and be 7-bit
      by_cases hpair : c = 92
      · subst hpair
        cases s with
        | nil => simp [quotedpair, backslash, Follows]
        | cons d s =>
          have hd := hs.2
          rw [List.mem_cons, not_or] at hd
          by_cases hchar : 127 < d
          · simp [quotedpair, backslash, hchar, Follows]
          · have hrest := ih hd.2 (by rw [List.length_cons] at hfuel; omega)
            simpa [quotedpair, backslash, hchar, Ne.symm hd.1] using hrest
      · by_cases hchar : 127 < c
        · simp [backslash, hpair, hchar, Follows]
        · simpa [backslash, hpair, hchar] using ih hs.2 (by omega)

/-- The characters that end an atom, or begin another kind of part. -/
theorem notMem_msgidAtomChar :
    ∀ c ∈ [Bytes.nul, 34, 91, 62, 64, Bytes.dot], c ∉ msgidAtomChar := by decide +kernel

theorem atom_follows (hs : Bytes.nul ∉ s) : Follows (atom (s ++ [Bytes.nul])) (msgidAtom s) := by
  have hnul : Bytes.nul ∉ msgidAtomChar := notMem_msgidAtomChar _ (by simp)
  cases s with
  | nil => simp [atom, skipAtom, msgidAtom, Follows, hnul]
  | cons c s =>
    rw [List.mem_cons, not_or] at hs
    by_cases hc : c ∈ msgidAtomChar
    · have hskip : (s ++ [Bytes.nul]).dropWhile (· ∈ msgidAtomChar) =
          s.dropWhile (· ∈ msgidAtomChar) ++ [Bytes.nul] := by
        rw [List.dropWhile_append]
        split
        · next hnil => simp_all
        · rfl
      have hsome : skipAtom (c :: (s ++ [Bytes.nul])) =
          some (s.dropWhile (· ∈ msgidAtomChar) ++ [Bytes.nul]) := by
        rw [skipAtom, List.dropWhile_cons_of_pos (by simpa using hc), hskip]
        split
        · next hnil => simp at hnil
        · rfl
      simp [atom, msgidAtom, Follows, hc, hsome]
    · simp [atom, msgidAtom, Follows, hc, Ne.symm hs.1]

/-- A quoted string or a domain literal, or else an atom. -/
theorem quoted_follows {first : UInt8} (hlast : Bytes.nul ≠ last) {c : UInt8} (hs : Bytes.nul ∉ s)
    (hc : c = first) :
    Follows (quoted first last bad (c :: s ++ [Bytes.nul])) (msgidQuoted last bad s) := by
  have hloop := @quotedLoop_follows _ bad _ hlast (s ++ [Bytes.nul]).length hs (by simp)
  simpa [quoted, hc] using hloop

theorem quotedOrAtom_follows {first : UInt8} (hfirst : Bytes.nul ≠ first)
    (hlast : Bytes.nul ≠ last) (hs : Bytes.nul ∉ s) :
    Follows
      ((s ++ [Bytes.nul]).head?.bind fun c =>
        if c = first then quoted first last bad (s ++ [Bytes.nul]) else atom (s ++ [Bytes.nul]))
      (if s.head? = some first then msgidQuoted last bad s.tail else msgidAtom s) := by
  have hatom := atom_follows hs
  cases s with
  | nil =>
    rw [List.nil_append, List.head?_cons, Option.bind_some, if_neg hfirst, List.head?_nil,
      if_neg (Option.some_ne_none first).symm]
    exact hatom
  | cons c s =>
    rw [List.cons_append, List.head?_cons, Option.bind_some, List.head?_cons, List.tail_cons]
    by_cases hc : c = first
    · rw [if_pos hc, if_pos (congrArg some hc)]
      exact quoted_follows hlast (fun hmem => hs (List.mem_cons_of_mem c hmem)) hc
    · rw [if_neg hc, if_neg fun heq => hc (Option.some.inj heq)]
      exact hatom

theorem word_follows (hs : Bytes.nul ∉ s) : Follows (word (s ++ [Bytes.nul])) (msgidWord s) :=
  quotedOrAtom_follows (by decide) (by decide) hs

theorem subdomain_follows (hs : Bytes.nul ∉ s) :
    Follows (subdomain (s ++ [Bytes.nul])) (msgidSubdomain s) :=
  quotedOrAtom_follows (by decide) (by decide) hs

/-! ### What is left is a part of the string -/

theorem msgidQuoted_suffix {r : Bytes} (h : msgidQuoted last bad s = some r) : r <:+ s := by
  induction hlen : s.length using Nat.strongRecOn generalizing s with
  | ind n ih =>
    cases s with
    | nil => cases h
    | cons c s =>
      rw [List.length_cons] at hlen
      rw [msgidQuoted_cons] at h
      split at h
      · exact Option.some.inj h ▸ List.suffix_cons c s
      split at h
      · cases h
      split at h
      · split at h
        · cases h
        · next d s =>
          split at h
          · cases h
          · have hsuffix := ih s.length (by rw [List.length_cons] at hlen; omega) h rfl
            exact hsuffix.trans ((List.suffix_cons d s).trans (List.suffix_cons c _))
      split at h
      · cases h
      · exact (ih s.length (by omega) h rfl).trans (List.suffix_cons c s)

theorem msgidAtom_suffix {r : Bytes} (h : msgidAtom s = some r) : r <:+ s := by
  cases s with
  | nil =>
    cases h
    exact List.suffix_rfl
  | cons c s =>
    rw [msgidAtom] at h
    split at h
    · exact Option.some.inj h ▸ (List.dropWhile_suffix _).trans (List.suffix_cons c s)
    · cases h

theorem msgidWord_suffix {r : Bytes} (h : msgidWord s = some r) : r <:+ s := by
  unfold msgidWord at h
  split at h
  · exact (msgidQuoted_suffix h).trans (List.tail_suffix s)
  · exact msgidAtom_suffix h

theorem msgidSubdomain_suffix {r : Bytes} (h : msgidSubdomain s = some r) : r <:+ s := by
  unfold msgidSubdomain at h
  split at h
  · exact (msgidQuoted_suffix h).trans (List.tail_suffix s)
  · exact msgidAtom_suffix h

/-- The loop over the parts, with the same fuel but for the terminator. -/
theorem partsLoop_eq {part : Bytes → Option Scan} {rest : Bytes → Option Bytes}
    (hpart : ∀ {s}, Bytes.nul ∉ s → Follows (part (s ++ [Bytes.nul])) (rest s))
    (hsuffix : ∀ {s r}, rest s = some r → r <:+ s) (hlast : Bytes.nul ≠ last) (fuel : Nat)
    (hs : Bytes.nul ∉ s) (hfuel : s.length ≤ fuel) :
    partsLoop part last (fuel + 1) (s ++ [Bytes.nul]) =
      some ((msgidParts rest last fuel s).map fun r => last :: (r ++ [Bytes.nul])) := by
  have hdot : ¬ Bytes.nul = Bytes.dot := by decide
  induction fuel generalizing s with
  | zero =>
    obtain rfl := List.length_eq_zero_iff.mp (Nat.le_zero.mp hfuel)
    have hfollows := hpart hs
    rw [partsLoop, msgidParts, Option.map_none]
    cases hrest : rest [] with
    | none =>
      rw [hrest] at hfollows
      obtain ⟨m, hm⟩ := hfollows
      rw [hm]
      rfl
    | some r =>
      obtain rfl := List.suffix_nil.mp (hsuffix hrest)
      rw [hrest] at hfollows
      rw [hfollows]
      simp [hdot, hlast]
  | succ fuel ih =>
    have hfollows := hpart hs
    rw [partsLoop, msgidParts]
    -- a part that is refused stops both, one that is read leaves both at the same place
    cases hrest : rest s with
    | none =>
      rw [hrest] at hfollows
      obtain ⟨m, hm⟩ := hfollows
      rw [hm]
      rfl
    | some r =>
      rw [hrest] at hfollows
      rw [hfollows]
      have hr := hsuffix hrest
      cases r with
      | nil => simp [hdot, hlast]
      | cons b r =>
        have hle := hr.length_le
        have hnext := @ih r (fun hmem => hs (hr.subset (List.mem_cons_of_mem b hmem)))
          (by rw [List.length_cons] at hle; omega)
        -- behind a part is a dot and the next part, or the end
        by_cases hb : b = Bytes.dot
        · simp [hb, hnext]
        · by_cases hend : b = last
          · simp [hend ▸ hb, hend]
          · simp [hb, hend]

/-! ## The functions and the grammar -/

theorem msgidQuoted_sound {r : Bytes} (hs : Bytes.nul ∉ s) (h : msgidQuoted last bad s = some r) :
    ∃ q, s = q ++ last :: r ∧ Quoted last bad q := by
  -- on the length, as a quoted pair takes two characters
  induction hlen : s.length using Nat.strongRecOn generalizing s with
  | ind n ih =>
    cases s with
    | nil => cases h
    | cons c s =>
      rw [List.length_cons] at hlen
      rw [List.mem_cons, not_or] at hs
      rw [msgidQuoted_cons] at h
      split at h
      · next hc => exact ⟨[], by rw [hc, Option.some.inj h]; rfl, .nil⟩
      next hc =>
      split at h
      · cases h
      next hbad =>
      split at h
      · next hpair =>
        split at h
        · cases h
        next d s =>
        rw [List.mem_cons, not_or] at hs
        split at h
        · cases h
        · next hchar =>
          obtain ⟨q, rfl, hq⟩ := ih s.length (by rw [List.length_cons] at hlen; omega) hs.2.2 h rfl
          exact ⟨c :: d :: q, rfl, hpair ▸ .pair (Ne.symm hs.2.1) (UInt8.not_lt.mp hchar) hq⟩
      next hpair =>
      split at h
      · cases h
      · next hchar =>
        obtain ⟨q, rfl, hq⟩ := ih s.length (by omega) hs.2 h rfl
        exact ⟨c :: q, rfl, .text hc hpair hbad (UInt8.not_lt.mp hchar) hq⟩

theorem Quoted.read {q : Bytes} (hlast : backslash ≠ last) (hbad : backslash ∉ bad)
    (h : Quoted last bad q) (r : Bytes) : msgidQuoted last bad (q ++ last :: r) = some r := by
  induction h with
  | nil => rw [List.nil_append, msgidQuoted_cons, if_pos rfl]
  | text hc hpair hb hchar hq ih =>
    rw [List.cons_append, msgidQuoted_cons, if_neg hc, if_neg hb,
      if_neg (show ¬ _ = (92 : UInt8) from hpair), if_neg (UInt8.not_lt.mpr hchar)]
    exact ih
  | @pair d s hnul hchar hq ih =>
    rw [List.cons_append, List.cons_append, msgidQuoted_cons, if_neg hlast, if_neg hbad,
      if_pos (show backslash = 92 from rfl)]
    dsimp only
    rw [if_neg (UInt8.not_lt.mpr hchar)]
    exact ih

theorem msgidAtom_sound {b : UInt8} {r : Bytes} (h : msgidAtom s = some (b :: r)) :
    ∃ a, s = a ++ b :: r ∧ Atom a := by
  cases s with
  | nil => cases h
  | cons c s =>
    rw [msgidAtom] at h
    split at h
    · next hc =>
      refine ⟨c :: s.takeWhile (· ∈ msgidAtomChar), ?_, List.cons_ne_nil _ _, fun x hx => ?_⟩
      · rw [← Option.some.inj h, List.cons_append, List.takeWhile_append_dropWhile]
      · rcases List.mem_cons.mp hx with rfl | hx
        · exact hc
        · simpa using List.mem_takeWhile_imp hx
    · cases h

theorem Atom.read {a r : Bytes} {b : UInt8} (h : Atom a) (hb : b ∉ msgidAtomChar) :
    msgidAtom (a ++ b :: r) = some (b :: r) := by
  obtain ⟨hne, hall⟩ := h
  cases a with
  | nil => exact absurd rfl hne
  | cons c a =>
    rw [List.cons_append, msgidAtom, if_pos (hall c List.mem_cons_self),
      List.dropWhile_append_of_pos fun x hx =>
        decide_eq_true (hall x (List.mem_cons_of_mem c hx)),
      List.dropWhile_cons_of_neg (by simpa using hb)]

theorem Atom.head_ne {a : Bytes} {b c : UInt8} {r : Bytes} (h : Atom a) (hc : c ∉ msgidAtomChar) :
    (a ++ b :: r).head? ≠ some c := by
  obtain ⟨hne, hall⟩ := h
  cases a with
  | nil => exact absurd rfl hne
  | cons d a =>
    rintro heq
    obtain rfl := Option.some.inj heq
    exact hc (hall d List.mem_cons_self)

/-- A function reads the parts of a kind, where a character that is none of an atom follows. -/
structure ReadsParts (rest : Bytes → Option Bytes) (part : Bytes → Prop) : Prop where
  sound : ∀ {s : Bytes} {b : UInt8} {r : Bytes}, Bytes.nul ∉ s → rest s = some (b :: r) →
    ∃ w, s = w ++ b :: r ∧ part w
  complete : ∀ {w r : Bytes} {b : UInt8}, part w → b ∉ msgidAtomChar →
    rest (w ++ b :: r) = some (b :: r)
  nonempty : ∀ {w : Bytes}, part w → w ≠ []

/-- What the first character does not tell to be a quoted part is read as an atom. -/
theorem reads_quotedOrAtom {first : UInt8} {part : Bytes → Prop} (hfirst : first ∉ msgidAtomChar)
    (hlast : backslash ≠ last) (hbad : backslash ∉ bad)
    (hpart : ∀ w, part w ↔ Atom w ∨ ∃ q, Quoted last bad q ∧ w = first :: (q ++ [last])) :
    ReadsParts (fun s => if s.head? = some first then msgidQuoted last bad s.tail else msgidAtom s)
      part where
  sound := by
    intro s b r hs h
    split at h
    · next hhead =>
      obtain ⟨s, rfl⟩ : ∃ t, s = first :: t := ⟨s.tail, (List.cons_head?_tail hhead).symm⟩
      obtain ⟨q, hq, hquoted⟩ :=
        msgidQuoted_sound (fun hmem => hs (List.mem_cons_of_mem _ hmem)) h
      exact ⟨first :: (q ++ [last]), by simp [hq], (hpart _).mpr (.inr ⟨q, hquoted, rfl⟩)⟩
    · obtain ⟨a, ha, hatom⟩ := msgidAtom_sound h
      exact ⟨a, ha, (hpart a).mpr (.inl hatom)⟩
  complete := by
    intro w r b h hb
    rcases (hpart w).mp h with hatom | ⟨q, hquoted, rfl⟩
    · rw [if_neg (hatom.head_ne hfirst)]
      exact hatom.read hb
    · rw [List.cons_append, List.head?_cons, if_pos rfl, List.tail_cons, List.append_assoc]
      exact hquoted.read hlast hbad (b :: r)
  nonempty := by
    intro w h
    rcases (hpart w).mp h with hatom | ⟨q, -, rfl⟩
    · exact hatom.nonempty
    · exact List.cons_ne_nil _ _

theorem word_iff (w : Bytes) :
    Word w ↔ Atom w ∨ ∃ q, Quoted 34 [Bytes.cr] q ∧ w = 34 :: (q ++ [34]) := by
  constructor
  · rintro (h | h)
    · exact .inl h
    · exact .inr ⟨_, h, rfl⟩
  · rintro (h | ⟨q, h, rfl⟩)
    · exact .atom h
    · exact .quotedString h

theorem subDomain_iff (w : Bytes) :
    SubDomain w ↔ Atom w ∨ ∃ q, Quoted 93 [Bytes.cr, 91] q ∧ w = 91 :: (q ++ [93]) := by
  constructor
  · rintro (h | h)
    · exact .inl h
    · exact .inr ⟨_, h, rfl⟩
  · rintro (h | ⟨q, h, rfl⟩)
    · exact .domainRef h
    · exact .domainLiteral h

theorem reads_word : ReadsParts msgidWord Word :=
  reads_quotedOrAtom (notMem_msgidAtomChar _ (by simp)) (by decide) (by decide) word_iff

theorem reads_subdomain : ReadsParts msgidSubdomain SubDomain :=
  reads_quotedOrAtom (notMem_msgidAtomChar _ (by simp)) (by decide) (by decide) subDomain_iff

section

variable {rest : Bytes → Option Bytes} {part : Bytes → Prop}

theorem ReadsParts.msgidParts_sound (h : ReadsParts rest part) (fuel : Nat) {s r : Bytes}
    (hs : Bytes.nul ∉ s) (hparts : msgidParts rest last fuel s = some r) :
    ∃ l, s = l ++ last :: r ∧ Dotted part l := by
  induction fuel generalizing s with
  | zero => cases hparts
  | succ fuel ih =>
    rw [msgidParts] at hparts
    split at hparts
    · cases hparts
    · cases hparts
    · next b t hrest =>
      obtain ⟨w, rfl, hw⟩ := h.sound hs hrest
      split at hparts
      · next hb =>
        obtain ⟨l, rfl, hl⟩ := ih (fun hmem => hs (by simp [hmem])) hparts
        exact ⟨w ++ Bytes.dot :: l, by simp [hb], .cons hw hl⟩
      split at hparts
      · next hend => exact ⟨w, by rw [hend, Option.some.inj hparts], .one hw⟩
      · cases hparts

theorem ReadsParts.msgidParts_complete (h : ReadsParts rest part) (hlast : last ∉ msgidAtomChar)
    (hdot : last ≠ Bytes.dot) {l r : Bytes} (hl : Dotted part l) (fuel : Nat)
    (hfuel : l.length ≤ fuel) : msgidParts rest last fuel (l ++ last :: r) = some r := by
  induction hl generalizing fuel with
  | one hw =>
    have hpos := List.length_pos_iff.mpr (h.nonempty hw)
    obtain ⟨fuel, rfl⟩ := Nat.exists_eq_succ_of_ne_zero (show fuel ≠ 0 by omega)
    rw [msgidParts, h.complete hw hlast]
    dsimp only
    rw [if_neg hdot, if_pos rfl]
  | @cons w t hw ht ih =>
    rw [List.length_append, List.length_cons] at hfuel
    obtain ⟨fuel, rfl⟩ := Nat.exists_eq_succ_of_ne_zero (show fuel ≠ 0 by omega)
    rw [List.append_assoc, List.cons_append, msgidParts, h.complete hw
      (notMem_msgidAtomChar _ (by simp))]
    dsimp only
    rw [if_pos rfl]
    exact ih fuel (by omega)

end

/-- The recogniser reads nothing behind the terminator, and says what `rfc822ValidMsgid` says. -/
theorem validMsgid_eq {x : Bytes} (hx : Bytes.nul ∉ x) :
    validMsgid (x ++ [Bytes.nul]) = some (rfc822ValidMsgid x) := by
  cases x with
  | nil => rfl
  | cons c s =>
    have hs : Bytes.nul ∉ s := fun hmem => hx (List.mem_cons_of_mem c hmem)
    rw [validMsgid, List.cons_append, List.head?_cons, Option.bind_some]
    by_cases hc : c = 60
    · subst hc
      rw [if_neg (not_not.mpr rfl), List.tail_cons, List.length_append, List.length_singleton,
        partsLoop_eq word_follows msgidWord_suffix (by decide) _ hs (Nat.le_refl _),
        rfc822ValidMsgid]
      cases hparts : msgidParts msgidWord 64 s.length s with
      | none => rfl
      | some r =>
        obtain ⟨l, rfl, -⟩ := reads_word.msgidParts_sound _ hs hparts
        have hr : Bytes.nul ∉ r := fun hmem => hs (by simp [hmem])
        simp only [Option.map_some, Option.bind_some, List.head?_cons, List.tail_cons, ne_eq,
          not_true_eq_false, if_false, List.length_append, List.length_singleton]
        rw [partsLoop_eq subdomain_follows msgidSubdomain_suffix (by decide) _ hr (Nat.le_refl _)]
        cases msgidParts msgidSubdomain 62 r.length r with
        | none => rfl
        | some r' => rfl
    · rw [if_pos hc, rfc822ValidMsgid.eq_def]
      split
      · next heq => exact absurd (List.cons.inj heq).1 hc
      · rfl

/-- `rfc822ValidMsgid` accepts what begins with a message identifier. -/
theorem rfc822ValidMsgid_iff {x : Bytes} (hx : Bytes.nul ∉ x) :
    rfc822ValidMsgid x = true ↔ ∃ m, m <+: x ∧ IsMsgid m := by
  constructor
  · intro h
    unfold rfc822ValidMsgid at h
    split at h
    · next s =>
      have hs : Bytes.nul ∉ s := fun hmem => hx (List.mem_cons_of_mem _ hmem)
      split at h
      · cases h
      · next r hparts =>
        obtain ⟨l, rfl, hl⟩ := reads_word.msgidParts_sound _ hs hparts
        obtain ⟨r', hparts'⟩ := Option.isSome_iff_exists.mp h
        obtain ⟨d, rfl, hd⟩ :=
          reads_subdomain.msgidParts_sound _ (fun hmem => hs (by simp [hmem])) hparts'
        exact ⟨_, ⟨r', by simp⟩, l, d, hl, hd, rfl⟩
    · cases h
  · rintro ⟨m, ⟨r, rfl⟩, l, d, hl, hd, rfl⟩
    have hassoc : 60 :: (l ++ 64 :: (d ++ [62])) ++ r = 60 :: (l ++ 64 :: (d ++ 62 :: r)) := by simp
    rw [hassoc, rfc822ValidMsgid,
      reads_word.msgidParts_complete (notMem_msgidAtomChar _ (by simp)) (by decide) hl _ (by simp)]
    dsimp only
    rw [reads_subdomain.msgidParts_complete (notMem_msgidAtomChar _ (by simp)) (by decide) hd _
      (by simp)]
    rfl

/-- **A greeting's timestamp is accepted just if it begins with a message identifier**, and nothing
behind its terminator is read. -/
theorem validMsgid_exact (x : Bytes) (hx : Bytes.nul ∉ x) :
    ∃ valid, validMsgid (x ++ [Bytes.nul]) = some valid ∧
      (valid = true ↔ ∃ m, m <+: x ∧ IsMsgid m) :=
  ⟨_, validMsgid_eq hx, rfc822ValidMsgid_iff hx⟩

/-- A timestamp with a domain literal. -/
theorem validMsgid_exact_literal :
    ∃ valid, validMsgid (Bytes.lit "<1.2@[10.0.0.1]>" ++ [Bytes.nul]) = some valid ∧
      (valid = true ↔ ∃ m, m <+: Bytes.lit "<1.2@[10.0.0.1]>" ∧ IsMsgid m) :=
  validMsgid_exact _ (by decide)

end Fetchmail.Rfc822.Valid
