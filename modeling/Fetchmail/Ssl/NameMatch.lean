import Fetchmail.Lib.Bytes
import Mathlib.Data.List.TakeWhile
import Mathlib.Tactic.Tauto

/-!
# Certificate Names

`name_match` of `x509_name_match.c`: whether the name in a certificate is that of the host, with a
wildcard for its first component.
-/

namespace Fetchmail.Ssl

open Fetchmail.Lib

/-! ## The match -/

def asterisk : UInt8 := 42

/-- `dom` -/
def dom : Bytes := Bytes.lit "0123456789."

/-- `strspn(s, dom)` -/
def spanDom (s : Bytes) : Nat := (s.takeWhile (· ∈ dom)).length

/-- The loop that counts dots. -/
def numberDots : Bytes → Nat
  | [] => 0
  | c :: s =>
    if c = Bytes.dot then numberDots (s.dropWhile (· ≠ Bytes.dot)) + 1
    else numberDots (s.dropWhile (· ≠ Bytes.dot))
termination_by s => s.length
decreasing_by
  all_goals
    have hle := (List.dropWhile_suffix (l := s) (· ≠ Bytes.dot)).length_le
    exact Nat.lt_succ_of_le hle

/-- `wildcard_ok` -/
def wildcardOk (p1 p2 : Bytes) : Bool :=
  spanDom (p1.drop (if p1.head? = some asterisk then 1 else 0)) ≠ p1.length &&
    spanDom p2 ≠ p2.length

/-- `name_match` -/
def nameMatch (p1 p2 : Bytes) : Bool :=
  if p1 = [] then false
  else if wildcardOk p1 p2 ∧ Bytes.charAt p1 0 = asterisk ∧ Bytes.charAt p1 1 = Bytes.dot then
    -- skip over the asterisk
    let p1 := p1.drop 1
    let p2 :=
      if 2 ≤ numberDots p1 ∧ p1.length < p2.length then p2.drop (p2.length - p1.length) else p2
    Bytes.equalsCI p1 p2
  else Bytes.equalsCI p1 p2

/-! ## What a match is -/

/-- Made of digits and dots only. -/
def Numeric (s : Bytes) : Prop := ∀ b ∈ s, b ∈ dom

instance (s : Bytes) : Decidable (Numeric s) := inferInstanceAs (Decidable (∀ b ∈ s, b ∈ dom))

/-- The name of a host is that of a domain with something in front, ignoring case. -/
structure Within (d label p2 : Bytes) : Prop where
  ends : ∃ d', p2 = label ++ Bytes.dot :: d' ∧ Bytes.equalsCI d d' = true

/-- The certificate is for all hosts of a domain, and this is one of them. -/
structure WildcardMatch (p1 p2 d : Bytes) : Prop where
  wild : p1 = asterisk :: Bytes.dot :: d
  dotted : Bytes.dot ∈ d
  domain : ¬ Numeric d
  host : ¬ Numeric p2
  component : ∃ label, Within d label p2 ∧ label ≠ [] ∧ Bytes.dot ∉ label

/-- The certificate is for the host. -/
def IsMatch (p1 p2 : Bytes) : Prop :=
  p1 ≠ [] ∧ (Bytes.equalsCI p1 p2 = true ∨ ∃ d, WildcardMatch p1 p2 d)

/-- Where `name_match` goes wrong: a wildcard for a domain that is a number, for no component or
for several, or for a domain without dots, which is taken without its asterisk. -/
def Misjudged (p1 p2 : Bytes) : Prop :=
  ∃ d, p1 = asterisk :: Bytes.dot :: d ∧ ¬ Numeric p2 ∧
    if Bytes.dot ∈ d then
      ∃ label, Within d label p2 ∧ label ≠ [asterisk] ∧
        (Numeric d ∨ label = [] ∨ Bytes.dot ∈ label)
    else Bytes.equalsCI (Bytes.dot :: d) p2 = true ∨ Bytes.equalsCI p1 p2 = true

/-! ## Characters and case -/

variable {p1 p2 d label s t : Bytes}

theorem spanDom_eq_length : spanDom s = s.length ↔ Numeric s := by
  unfold spanDom Numeric
  constructor
  · intro hlen
    have hall := (List.takeWhile_prefix (l := s) (· ∈ dom)).eq_of_length hlen
    intro b hb
    rw [← hall] at hb
    simpa using List.mem_takeWhile_imp hb
  · intro hall
    rw [List.takeWhile_eq_self_iff.mpr fun b hb => decide_eq_true (hall b hb)]

theorem numberDots_eq_count (s : Bytes) : numberDots s = s.count Bytes.dot := by
  have hskip : ∀ s : Bytes, (s.dropWhile (· ≠ Bytes.dot)).count Bytes.dot = s.count Bytes.dot := by
    intro s
    induction s with
    | nil => rfl
    | cons c s ih =>
      by_cases hc : c = Bytes.dot
      · rw [List.dropWhile_cons_of_neg (by simp [hc])]
      · rw [List.dropWhile_cons_of_pos (by simp [hc]), ih, List.count_cons_of_ne hc]
  induction s using numberDots.induct with
  | case1 => rw [numberDots, List.count_nil]
  | case2 s ih => rw [numberDots, if_pos rfl, ih, hskip, List.count_cons_self]
  | case3 c s hc ih => rw [numberDots, if_neg hc, ih, hskip, List.count_cons_of_ne hc]

theorem equalsCI_iff : Bytes.equalsCI s t = true ↔ s.map Bytes.toLower = t.map Bytes.toLower :=
  decide_eq_true_iff

theorem length_of_equalsCI (h : Bytes.equalsCI s t = true) : s.length = t.length := by
  have hlen := congrArg List.length (equalsCI_iff.mp h)
  rwa [List.length_map, List.length_map] at hlen

/-- A dot and an asterisk are the same in either case. -/
theorem eq_of_toLower {c b : UInt8} (hb : b = Bytes.dot ∨ b = asterisk)
    (h : Bytes.toLower c = Bytes.toLower b) : c = b := by
  rcases hb with rfl | rfl <;> exact Bytes.eq_of_toLower h (by decide)

theorem equalsCI_cons {b : UInt8} (hb : b = Bytes.dot ∨ b = asterisk) :
    Bytes.equalsCI (b :: s) t = true ↔ ∃ t', t = b :: t' ∧ Bytes.equalsCI s t' = true := by
  rw [equalsCI_iff]
  cases t with
  | nil => simp
  | cons c t =>
    simp only [List.map_cons, List.cons.injEq, equalsCI_iff]
    constructor
    · rintro ⟨hc, hst⟩
      exact ⟨t, ⟨eq_of_toLower hb hc.symm, rfl⟩, hst⟩
    · rintro ⟨t', ⟨rfl, rfl⟩, hst⟩
      exact ⟨rfl, hst⟩

/-- The end of a name, as long as the domain, is compared. -/
theorem equalsCI_drop (d p2 : Bytes) :
    Bytes.equalsCI (Bytes.dot :: d) (p2.drop (p2.length - (Bytes.dot :: d).length)) = true ↔
      ∃ label, Within d label p2 := by
  rw [equalsCI_cons (.inl rfl)]
  constructor
  · rintro ⟨d', hdrop, heq⟩
    refine ⟨p2.take (p2.length - (Bytes.dot :: d).length), d', ?_, heq⟩
    rw [← hdrop, List.take_append_drop]
  · rintro ⟨label, d', rfl, heq⟩
    refine ⟨d', ?_, heq⟩
    have hlen : (label ++ Bytes.dot :: d').length - (Bytes.dot :: d).length = label.length := by
      rw [List.length_append, List.length_cons, List.length_cons, length_of_equalsCI heq]
      omega
    rw [hlen, List.drop_left]

/-- What stands in front is determined by the domain. -/
theorem Within.unique (h : Within d label p2) {label' : Bytes} (h' : Within d label' p2) :
    label = label' := by
  obtain ⟨d₁, rfl, heq₁⟩ := h.ends
  obtain ⟨d₂, heq, heq₂⟩ := h'.ends
  refine List.append_inj_left' heq ?_
  rw [List.length_cons, List.length_cons, ← length_of_equalsCI heq₁, ← length_of_equalsCI heq₂]

theorem equalsCI_wild :
    Bytes.equalsCI (asterisk :: Bytes.dot :: d) p2 = true ↔ Within d [asterisk] p2 := by
  rw [equalsCI_cons (.inr rfl)]
  constructor
  · rintro ⟨t, rfl, ht⟩
    obtain ⟨d', rfl, heq⟩ := (equalsCI_cons (.inl rfl)).mp ht
    exact ⟨d', rfl, heq⟩
  · rintro ⟨d', rfl, heq⟩
    exact ⟨_, rfl, (equalsCI_cons (.inl rfl)).mpr ⟨d', rfl, heq⟩⟩

/-! ## Two cases -/

/-- The first check never refuses an asterisk: the rest of the name is shorter than the name. -/
theorem wildcardOk_wild : wildcardOk (asterisk :: s) p2 = true ↔ ¬ Numeric p2 := by
  have hlen : spanDom s ≠ s.length + 1 := by
    have hle := (List.takeWhile_prefix (l := s) (· ∈ dom)).length_le
    unfold spanDom
    omega
  rw [← spanDom_eq_length]
  simp [wildcardOk, hlen]

theorem nameMatch_wild (hhost : ¬ Numeric p2) :
    nameMatch (asterisk :: Bytes.dot :: d) p2 = true ↔
      if Bytes.dot ∈ d then ∃ label, Within d label p2
      else Bytes.equalsCI (Bytes.dot :: d) p2 = true := by
  have hok : wildcardOk (asterisk :: Bytes.dot :: d) p2 = true := wildcardOk_wild.mpr hhost
  have hdots : 2 ≤ numberDots (Bytes.dot :: d) ↔ Bytes.dot ∈ d := by
    rw [numberDots_eq_count, List.count_cons_self, ← List.count_pos_iff]
    omega
  rw [nameMatch, if_neg (List.cons_ne_nil _ _), if_pos ⟨hok, rfl, rfl⟩]
  simp only [List.drop_succ_cons, List.drop_zero, hdots]
  by_cases hdot : Bytes.dot ∈ d
  · rw [if_pos hdot, ← equalsCI_drop]
    by_cases hlt : (Bytes.dot :: d).length < p2.length
    · rw [if_pos ⟨hdot, hlt⟩]
    · rw [if_neg fun h => hlt h.2, Nat.sub_eq_zero_of_le (Nat.not_lt.mp hlt), List.drop_zero]
  · rw [if_neg hdot, if_neg fun h => hdot h.1]

theorem nameMatch_plain (h : ∀ d, p1 = asterisk :: Bytes.dot :: d → Numeric p2) :
    nameMatch p1 p2 = true ↔ p1 ≠ [] ∧ Bytes.equalsCI p1 p2 = true := by
  unfold nameMatch
  by_cases hnil : p1 = []
  · simp [hnil]
  rw [if_neg hnil, if_neg, and_iff_right hnil]
  rintro ⟨hok, hfirst, hsecond⟩
  obtain ⟨d, rfl⟩ : ∃ d, p1 = asterisk :: Bytes.dot :: d := by
    match p1, hfirst, hsecond with
    | [c], _, hsecond => cases hsecond
    | c :: c' :: d, hfirst, hsecond =>
      obtain rfl : c = asterisk := hfirst
      obtain rfl : c' = Bytes.dot := hsecond
      exact ⟨d, rfl⟩
  exact wildcardOk_wild.mp hok (h d rfl)

theorem isMatch_wild (hhost : ¬ Numeric p2) :
    IsMatch (asterisk :: Bytes.dot :: d) p2 ↔ Within d [asterisk] p2 ∨
      (Bytes.dot ∈ d ∧ ¬ Numeric d ∧ ∃ label, Within d label p2 ∧ label ≠ [] ∧ Bytes.dot ∉ label) := by
  rw [IsMatch, and_iff_right (List.cons_ne_nil _ _), equalsCI_wild]
  refine or_congr_right ⟨?_, ?_⟩
  · rintro ⟨d', hmatch⟩
    obtain rfl : d = d' := by
      have heq := hmatch.wild
      simpa using heq
    exact ⟨hmatch.dotted, hmatch.domain, hmatch.component⟩
  · rintro ⟨hdot, hdomain, hcomponent⟩
    exact ⟨d, rfl, hdot, hdomain, hhost, hcomponent⟩

theorem misjudged_wild (hhost : ¬ Numeric p2) :
    Misjudged (asterisk :: Bytes.dot :: d) p2 ↔
      if Bytes.dot ∈ d then
        ∃ label, Within d label p2 ∧ label ≠ [asterisk] ∧
          (Numeric d ∨ label = [] ∨ Bytes.dot ∈ label)
      else Bytes.equalsCI (Bytes.dot :: d) p2 = true ∨
        Bytes.equalsCI (asterisk :: Bytes.dot :: d) p2 = true := by
  constructor
  · rintro ⟨d', heq, -, hcases⟩
    obtain rfl : d = d' := by simpa using heq
    exact hcases
  · exact fun hcases => ⟨d, rfl, hhost, hcases⟩

/-- What holds of the text in front of the domain, where there is one. -/
theorem Within.exists_iff (h : Within d label p2) {P : Bytes → Prop} :
    (∃ label, Within d label p2 ∧ P label) ↔ P label := by
  constructor
  · rintro ⟨label', h', hP⟩
    exact h.unique h' ▸ hP
  · exact fun hP => ⟨label, h, hP⟩

theorem Within.iff_eq (h : Within d label p2) {label' : Bytes} :
    Within d label' p2 ↔ label = label' := ⟨h.unique, fun heq => heq ▸ h⟩

/-- **`name_match` is right just where it does not misjudge a wildcard.** -/
theorem nameMatch_exact (p1 p2 : Bytes) :
    (nameMatch p1 p2 = true ↔ IsMatch p1 p2) ↔ ¬ Misjudged p1 p2 := by
  by_cases hwild : ∃ d, p1 = asterisk :: Bytes.dot :: d ∧ ¬ Numeric p2
  · obtain ⟨d, rfl, hhost⟩ := hwild
    rw [nameMatch_wild hhost, isMatch_wild hhost, misjudged_wild hhost]
    by_cases hdot : Bytes.dot ∈ d
    · rw [if_pos hdot, if_pos hdot]
      by_cases hends : ∃ label, Within d label p2
      · obtain ⟨label, hlabel⟩ := hends
        rw [hlabel.exists_iff, hlabel.exists_iff, hlabel.iff_eq]
        have hsome : ∃ label, Within d label p2 := ⟨label, hlabel⟩
        tauto
      · have hnone : ∀ label, ¬ Within d label p2 := not_exists.mp hends
        simp [hnone]
    -- the domain is compared without what is in front of it, and the name as a whole is longer
    · have hexclusive :
          ¬ (Bytes.equalsCI (Bytes.dot :: d) p2 = true ∧ Within d [asterisk] p2) := by
        rintro ⟨hd, hwild⟩
        have hlen := length_of_equalsCI hd
        have hlen' := length_of_equalsCI (equalsCI_wild.mpr hwild)
        rw [← hlen] at hlen'
        exact absurd hlen' (by simp)
      rw [if_neg hdot, if_neg hdot, equalsCI_wild]
      tauto
  · have hplain : ∀ d, p1 = asterisk :: Bytes.dot :: d → Numeric p2 := fun d hd =>
      not_not.mp fun hnot => hwild ⟨d, hd, hnot⟩
    rw [nameMatch_plain hplain, IsMatch]
    refine iff_of_true (and_congr_right' ⟨.inl, ?_⟩) ?_
    · rintro (heq | ⟨d, hmatch⟩)
      · exact heq
      · exact absurd (hplain d hmatch.wild) hmatch.host
    · rintro ⟨d, hd, hhost, -⟩
      exact hhost (hplain d hd)

/-- A wildcard for a domain of digits and dots. -/
theorem nameMatch_numeric :
    nameMatch (Bytes.lit "*.168.23.23") (Bytes.lit "a.168.23.23") = true ∧
      ¬ IsMatch (Bytes.lit "*.168.23.23") (Bytes.lit "a.168.23.23") := by
  refine ⟨by decide +kernel, ?_⟩
  rintro ⟨-, heq | ⟨d, hmatch⟩⟩
  · revert heq
    decide
  · have hwild := hmatch.wild
    obtain rfl : Bytes.lit "168.23.23" = d := (List.cons.inj (List.cons.inj hwild).2).2
    exact hmatch.domain (by decide)

end Fetchmail.Ssl
