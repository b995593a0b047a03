import Fetchmail.Imap.LineBounds
import Mathlib.Data.List.DropRight

/-!
# The Search for Unseen Messages

`imap_search` of `imap.c`, over arbitrary responses. A search command is answered by untagged
responses and a completion; on a protocol error another command is tried. Numbers are collected by
a loop around `strtoul`, which need not end: with little fuel, or where no fuel is enough, there is
no result.
-/

namespace Fetchmail.Imap

open Fetchmail.Lib

/-! ## Responses -/

/-- What the server answers to one command: the untagged responses, and the result of the last. -/
structure Attempt where
  responses : List Bytes
  completion : Ps

/-- The answers to `SEARCH UNSEEN UNDELETED`, `SEARCH UNSEEN` and `FETCH 1:n FLAGS`. -/
structure Replies where
  undeleted : Attempt
  plain : Attempt
  flags : Attempt

/-- `unseen_messages[0..unseen-1]` and `startcount`. -/
structure Found where
  unseen : List Nat
  startcount : Nat
  deriving DecidableEq, Repr

/-- `unseen_messages[unseen++] = um; if (startcount > um) startcount = um;` -/
def Found.store (um : Nat) (v : Found) : Found :=
  ⟨v.unseen ++ [um], min v.startcount um⟩

section

variable (count : Nat)

/-- The parse loop, at `cp`. -/
def parseNumbers : (fuel : Nat) → (cp : Bytes) → Found → Option Found
  | 0, _, _ => none
  | fuel + 1, cp, v =>
    if cp = [] ∨ count ≤ v.unseen.length then some v
    else
      let cp := cp.dropWhile Bytes.isspace
      if cp = [] then some v
      else
        match Bytes.strtoul cp with
        -- `ep` is `cp`
        | .noNumber => parseNumbers fuel cp v
        | .tooLarge ep => parseNumbers fuel ep v
        | .number um ep => parseNumbers fuel ep (if um ≤ count then v.store um else v)

/-- An untagged response to a search. -/
def searchResponse (fuel : Nat) (buf : Bytes) (v : Found) : Option Found :=
  match Bytes.findSub (Bytes.lit "* SEARCH") buf with
  | none => some v
  | some i => parseNumbers count fuel (buf.drop (i + 8)) v

/-- The untagged responses to a search. -/
def searchResponses (fuel : Nat) : List Bytes → Found → Option Found
  | [], v => some v
  | buf :: rest, v => (searchResponse count fuel buf v).bind (searchResponses fuel rest)

/-- `sscanf(buf, "* %u %n", &num, &consumed) == 1` -/
def scanFlags (buf : Bytes) : Option (Nat × Nat) :=
  match buf with
  | 42 :: s =>
    match Bytes.strtoul s with
    | .noNumber => none
    | .tooLarge rest => some (2 ^ 32 - 1, buf.length - (rest.dropWhile Bytes.isspace).length)
    | .number n rest => some (n % 2 ^ 32, buf.length - (rest.dropWhile Bytes.isspace).length)
  | _ => none

/-- The message that a response to `FETCH 1:n FLAGS` shows to be unseen. -/
def unseenFlags (buf : Bytes) : Option Nat :=
  match scanFlags buf with
  | none => none
  | some (num, consumed) =>
    if Bytes.startsWithCI (buf.drop consumed) (Bytes.lit "FETCH") ∧
        Bytes.isspace (Bytes.charAt buf (consumed + 5)) ∧ 1 ≤ num ∧ num ≤ count ∧
        buf.contains (Bytes.lit "FLAGS ") ∧ ¬buf.contains (Bytes.lit "\\SEEN") ∧
        ¬buf.contains (Bytes.lit "\\DELETED") then some num
    else none

/-- The responses to `FETCH 1:n FLAGS`. -/
def flagsResponses : List Bytes → Found → Found
  | [], v => v
  | buf :: rest, v =>
    match unseenFlags count buf with
    | some num => flagsResponses rest (if v.unseen.length < count then v.store num else v)
    | none => flagsResponses rest v

/-- What `imap_search` comes to. -/
structure SearchResult where
  ok : Ps
  found : Found
  /-- `unseen` when the last command was sent -/
  kept : Nat

/-- The last two commands. -/
def searchPlain (fuel : Nat) (r : Replies) (v : Found) : Option SearchResult := do
  let v' ← searchResponses count fuel r.plain.responses v
  if r.plain.completion ≠ .error then return ⟨r.plain.completion, v', v.unseen.length⟩
  return ⟨r.flags.completion, flagsResponses count r.flags.responses v', v'.unseen.length⟩

/-- `imap_search` -/
def imapSearch (skipdeleted : Bool) (fuel : Nat) (r : Replies) : Option SearchResult := do
  let v : Found := ⟨[], count + 1⟩
  if skipdeleted then
    let v' ← searchResponses count fuel r.undeleted.responses v
    if r.undeleted.completion ≠ .error then
      return ⟨r.undeleted.completion, v', v.unseen.length⟩
    searchPlain count fuel r v'
  else searchPlain count fuel r v

end

/-! ## What is listed -/

/-- The numbers up to `count` that responses list, and whether there is a text behind them that is
no number. -/
structure Listing where
  numbers : List Nat
  stuck : Bool
  deriving DecidableEq, Repr

/-- Another listing behind. -/
def Listing.append (a b : Listing) : Listing :=
  if a.stuck then a else ⟨a.numbers ++ b.numbers, b.stuck⟩

section

variable (count : Nat)

/-- The numbers of a text; as many steps as it has bytes are enough. -/
def listNumbers : (steps : Nat) → Bytes → Listing
  | 0, _ => ⟨[], false⟩
  | steps + 1, text =>
    let text := text.dropWhile Bytes.isspace
    if text = [] then ⟨[], false⟩
    else
      match Bytes.strtoul text with
      | .noNumber => ⟨[], true⟩
      | .tooLarge rest => listNumbers steps rest
      | .number um rest =>
        (Listing.mk (if um ≤ count then [um] else []) false).append (listNumbers steps rest)

/-- What a response to a search lists. -/
def listResponse (buf : Bytes) : Listing :=
  match Bytes.findSub (Bytes.lit "* SEARCH") buf with
  | none => ⟨[], false⟩
  | some i => listNumbers count (buf.length + 1) (buf.drop (i + 8))

/-- What the responses to a search list. -/
def listSearch : List Bytes → Listing
  | [] => ⟨[], false⟩
  | buf :: rest => (listResponse count buf).append (listSearch rest)

/-- What the responses to `FETCH 1:n FLAGS` list. -/
def listFlags (responses : List Bytes) : Listing :=
  ⟨responses.filterMap (unseenFlags count), false⟩

/-- The course of the search: what the commands that failed listed, what the last one listed, and
its result. -/
def searchCourse (skipdeleted : Bool) (r : Replies) : Listing × Listing × Ps :=
  let nothing : Listing := ⟨[], false⟩
  let plain (failed : Listing) :=
    let listed := listSearch count r.plain.responses
    if r.plain.completion ≠ .error then (failed, listed, r.plain.completion)
    else (failed.append listed, listFlags count r.flags.responses, r.flags.completion)
  if skipdeleted then
    let listed := listSearch count r.undeleted.responses
    if r.undeleted.completion ≠ .error then (nothing, listed, r.undeleted.completion)
    else plain listed
  else plain nothing

/-- The numbers in range that a listing has. -/
def Listing.inRange (a : Listing) : List Nat := a.numbers.filter (1 ≤ ·)

/-- The least of the numbers, or one more than the count of messages. -/
def least (numbers : List Nat) : Nat := numbers.foldl min (count + 1)

/-- What is expected of the search, when it ends. -/
structure SearchCorrect (skipdeleted : Bool) (r : Replies) (result : SearchResult) : Prop where
  inRange : ∀ n ∈ result.found.unseen, 1 ≤ n ∧ n ≤ count
  atMost : result.found.unseen.length ≤ count
  exact : result.ok = .success →
    result.found.unseen = (searchCourse count skipdeleted r).2.1.inRange ∧ result.kept = 0 ∧
      result.found.startcount = least count result.found.unseen

end

/-! ## The loops -/

/-- `strtoul` goes on behind the digits it finds. -/
theorem strtoul_shorter {s rest : Bytes} (h : Bytes.strtoul s = .tooLarge rest ∨
    ∃ n, Bytes.strtoul s = .number n rest) : rest.length < s.length := by
  have htrim : (s.dropWhile Bytes.isspace).length ≤ s.length :=
    (List.dropWhile_sublist _).length_le
  have hsign : (Bytes.takeSign (s.dropWhile Bytes.isspace)).2.length ≤
      (s.dropWhile Bytes.isspace).length := by
    unfold Bytes.takeSign
    split <;> simp [*]
  obtain ⟨digits, hdigits⟩ : ∃ d, (Bytes.takeSign (s.dropWhile Bytes.isspace)).2 = d := ⟨_, rfl⟩
  -- a number has at least one digit, and the blanks and the sign before it go as well
  have hshorter : digits.takeWhile Bytes.isdigit ≠ [] →
      (digits.dropWhile Bytes.isdigit).length < digits.length := by
    intro hne
    have hsplit := congrArg List.length
      (List.takeWhile_append_dropWhile (p := Bytes.isdigit) (l := digits))
    rw [List.length_append] at hsplit
    have hpos := List.length_pos_iff.mpr hne
    omega
  have hrest : digits.takeWhile Bytes.isdigit ≠ [] ∧ rest = digits.dropWhile Bytes.isdigit := by
    unfold Bytes.strtoul at h
    simp only [hdigits] at h
    split at h
    · simp at h
    · next hne =>
      refine ⟨hne, ?_⟩
      split at h <;> simp at h <;> exact h.symm
  rw [hdigits] at hsign
  have hlt := hshorter hrest.1
  rw [hrest.2]
  omega

section

variable {count : Nat}

/-- Numbers are stored while there is room. -/
def Found.storeAll (count : Nat) (numbers : List Nat) (v : Found) : Found :=
  numbers.foldl (fun v n => if v.unseen.length < count then v.store n else v) v

theorem storeAll_full {v : Found} (h : count ≤ v.unseen.length) (numbers : List Nat) :
    v.storeAll count numbers = v := by
  induction numbers with
  | nil => rfl
  | cons n numbers ih =>
    rw [Found.storeAll, List.foldl_cons, if_neg (by omega)]
    exact ih

theorem storeAll_append (v : Found) (a b : List Nat) :
    v.storeAll count (a ++ b) = (v.storeAll count a).storeAll count b :=
  List.foldl_append

theorem storeAll_unseen {v : Found} (h : v.unseen.length ≤ count) (numbers : List Nat) :
    (v.storeAll count numbers).unseen = (v.unseen ++ numbers).take count := by
  induction numbers generalizing v with
  | nil =>
    rw [List.append_nil, List.take_of_length_le h]
    rfl
  | cons n numbers ih =>
    rw [Found.storeAll, List.foldl_cons]
    by_cases hroom : v.unseen.length < count
    · rw [if_pos hroom]
      have hlen : (v.store n).unseen.length ≤ count := by
        simp [Found.store]
        omega
      have hstored := ih hlen
      unfold Found.storeAll at hstored
      rw [hstored]
      simp [Found.store]
    · have hle : count ≤ v.unseen.length := by omega
      have hfull := storeAll_full hle numbers
      unfold Found.storeAll at hfull
      rw [if_neg hroom, hfull, List.take_append_of_le_length hle,
        List.take_of_length_le h]

theorem storeAll_startcount {v : Found} (h : v.startcount = least count v.unseen)
    (numbers : List Nat) :
    (v.storeAll count numbers).startcount = least count (v.storeAll count numbers).unseen := by
  induction numbers generalizing v with
  | nil => exact h
  | cons n numbers ih =>
    rw [Found.storeAll, List.foldl_cons]
    apply ih
    split
    · simp [Found.store, least, h]
    · exact h

/-- What a loop does with what it is given: it stores what is listed while there is room, and does
not end at a text that is no number if there still is. -/
def Performs (count bytes : Nat) (f : Nat → Found → Option Found) (a : Listing) : Prop :=
  ∀ v : Found, v.unseen.length ≤ count →
    if a.stuck = true ∧ v.unseen.length + a.numbers.length < count then ∀ fuel, f fuel v = none
    else ∀ fuel, f fuel v = some (v.storeAll count a.numbers) ∨ f fuel v = none ∧ fuel ≤ bytes

theorem Performs.nothing (bytes : Nat) :
    Performs count bytes (fun _ v => some v) ⟨[], false⟩ := by
  intro v _
  simp [Found.storeAll]

theorem length_storeAll {v : Found} (h : v.unseen.length ≤ count) (numbers : List Nat) :
    (v.storeAll count numbers).unseen.length = min count (v.unseen.length + numbers.length) := by
  rw [storeAll_unseen h, List.length_take, List.length_append]

theorem Performs.mono {bytes bytes' : Nat} {f : Nat → Found → Option Found} {a : Listing}
    (h : Performs count bytes f a) (hle : bytes ≤ bytes') : Performs count bytes' f a := by
  intro v hv
  have hone := h v hv
  split at hone
  · rw [if_pos ‹_›]
    exact hone
  · rw [if_neg ‹_›]
    exact fun fuel => (hone fuel).imp id fun h => ⟨h.1, by omega⟩

/-- Two loops after each other. -/
theorem Performs.bind {bytes bytes' : Nat} {f g : Nat → Found → Option Found} {a b : Listing}
    (hf : Performs count bytes f a) (hg : Performs count bytes' g b) :
    Performs count (max bytes bytes') (fun fuel v => (f fuel v).bind (g fuel)) (a.append b) := by
  intro v hv
  have hfirst := hf v hv
  have hlen := length_storeAll hv a.numbers
  have hsecond := hg (v.storeAll count a.numbers) (by omega)
  unfold Listing.append
  dsimp only
  by_cases hstuck : a.stuck = true
  -- the first loop goes on for ever, unless the array is full before that
  · rw [if_pos hstuck]
    by_cases hroom : v.unseen.length + a.numbers.length < count
    · rw [if_pos ⟨hstuck, hroom⟩] at hfirst ⊢
      intro fuel
      rw [hfirst fuel]
      rfl
    · -- the second loop finds no room
      rw [if_neg fun h => hroom h.2] at hfirst ⊢
      have hfull : count ≤ (v.storeAll count a.numbers).unseen.length := by omega
      rw [if_neg (by omega), storeAll_full hfull] at hsecond
      intro fuel
      obtain hsome | ⟨hnone, hfuel⟩ := hfirst fuel
      · rw [hsome]
        exact (hsecond fuel).imp id fun h => ⟨h.1, by omega⟩
      · rw [hnone]
        exact .inr ⟨rfl, by omega⟩
  -- the first loop ends, and the second one stores behind it
  · rw [if_neg hstuck]
    rw [if_neg fun h => hstuck h.1] at hfirst
    dsimp only
    rw [List.length_append]
    by_cases hrest : b.stuck = true ∧
        v.unseen.length + (a.numbers.length + b.numbers.length) < count
    · rw [if_pos hrest]
      rw [if_pos ⟨hrest.1, by omega⟩] at hsecond
      intro fuel
      obtain hsome | ⟨hnone, -⟩ := hfirst fuel
      · rw [hsome]
        exact hsecond fuel
      · rw [hnone]
        rfl
    · rw [if_neg hrest]
      rw [if_neg fun h => hrest ⟨h.1, by omega⟩] at hsecond
      intro fuel
      rw [storeAll_append]
      obtain hsome | ⟨hnone, hfuel⟩ := hfirst fuel
      · rw [hsome]
        exact (hsecond fuel).imp id fun h => ⟨h.1, by omega⟩
      · rw [hnone]
        exact .inr ⟨rfl, by omega⟩

/-- A text that is no number stops the loop where it is. -/
theorem parseNumbers_stuck {text : Bytes} {v : Found} (htext : text ≠ [])
    (hnumber : Bytes.strtoul text = .noNumber) (hroom : v.unseen.length < count) (fuel : Nat) :
    ∀ cp : Bytes, cp.dropWhile Bytes.isspace = text → parseNumbers count fuel cp v = none := by
  induction fuel with
  | zero => exact fun _ _ => rfl
  | succ fuel ih =>
    intro cp hcp
    have hne : cp ≠ [] := by
      rintro rfl
      exact htext hcp.symm
    rw [parseNumbers, if_neg (by simp [hne]; omega)]
    simp only [hcp, if_neg htext, hnumber]
    apply ih
    rw [← hcp, List.dropWhile_idempotent]

/-- **The parse loop** stores the numbers of a text. -/
theorem parseNumbers_performs (steps : Nat) (cp : Bytes) (hsteps : cp.length < steps) :
    Performs count cp.length (fun fuel v => parseNumbers count fuel cp v)
      (listNumbers count steps cp) := by
  induction steps generalizing cp with
  | zero => omega
  | succ steps ih =>
    intro v hv
    rw [listNumbers]
    obtain ⟨text, htext⟩ : ∃ text, cp.dropWhile Bytes.isspace = text := ⟨_, rfl⟩
    have hshort : text.length ≤ cp.length := by
      rw [← htext]
      exact (List.dropWhile_sublist _).length_le
    -- a full array ends the loop at once
    have hfull : ∀ numbers, count ≤ v.unseen.length → ∀ fuel,
        parseNumbers count fuel cp v = some (v.storeAll count numbers) ∨
          parseNumbers count fuel cp v = none ∧ fuel ≤ cp.length := by
      intro numbers hle fuel
      cases fuel with
      | zero => exact .inr ⟨rfl, Nat.zero_le _⟩
      | succ fuel =>
        rw [parseNumbers, if_pos (.inr hle), storeAll_full hle]
        exact .inl rfl
    by_cases hroom : count ≤ v.unseen.length
    · rw [if_neg (by omega)]
      exact hfull _ hroom
    simp only [htext]
    by_cases hempty : text = []
    · rw [if_pos hempty]
      simp only [Bool.false_eq_true, false_and, if_false]
      intro fuel
      cases fuel with
      | zero => exact .inr ⟨rfl, Nat.zero_le _⟩
      | succ fuel =>
        left
        rw [parseNumbers]
        simp only [htext, hempty, if_true, ite_self]
        rfl
    have hcp : cp ≠ [] := by
      rintro rfl
      exact hempty htext.symm
    rw [if_neg hempty]
    -- one step of the loop
    have hstep : ∀ fuel, parseNumbers count (fuel + 1) cp v =
        match Bytes.strtoul text with
        | .noNumber => parseNumbers count fuel text v
        | .tooLarge ep => parseNumbers count fuel ep v
        | .number um ep => parseNumbers count fuel ep (if um ≤ count then v.store um else v) := by
      intro fuel
      rw [parseNumbers, if_neg (by simp [hcp]; omega)]
      simp only [htext, if_neg hempty]
    -- the loop goes on at `rest`, having stored `numbers`
    have hgo : ∀ (numbers : List Nat) (rest : Bytes), rest.length < text.length →
        (∀ fuel, parseNumbers count (fuel + 1) cp v =
          parseNumbers count fuel rest (v.storeAll count numbers)) →
        if ((Listing.mk numbers false).append (listNumbers count steps rest)).stuck = true ∧
            v.unseen.length +
              ((Listing.mk numbers false).append (listNumbers count steps rest)).numbers.length <
                count then
          ∀ fuel, parseNumbers count fuel cp v = none
        else ∀ fuel, parseNumbers count fuel cp v =
            some (v.storeAll count
              ((Listing.mk numbers false).append (listNumbers count steps rest)).numbers) ∨
          parseNumbers count fuel cp v = none ∧ fuel ≤ cp.length := by
      intro numbers rest hrest hsame
      have hlen := length_storeAll hv numbers
      have hperforms := ih rest (by omega) (v.storeAll count numbers) (by omega)
      simp only [Listing.append, Bool.false_eq_true, if_false, List.length_append]
      split
      · next hstuck =>
        rw [if_pos ⟨hstuck.1, by omega⟩] at hperforms
        intro fuel
        cases fuel with
        | zero => rfl
        | succ fuel => exact (hsame fuel).trans (hperforms fuel)
      · next hfine =>
        rw [if_neg fun h => hfine ⟨h.1, by omega⟩] at hperforms
        intro fuel
        cases fuel with
        | zero => exact .inr ⟨rfl, Nat.zero_le _⟩
        | succ fuel =>
          rw [hsame, storeAll_append]
          exact (hperforms fuel).imp id fun h => ⟨h.1, by omega⟩
    cases hnumber : Bytes.strtoul text with
    | noNumber =>
      rw [if_pos ⟨rfl, by simp; omega⟩]
      exact fun fuel => parseNumbers_stuck hempty hnumber (by omega) fuel cp htext
    | tooLarge rest =>
      apply hgo [] rest (strtoul_shorter (.inl hnumber))
      intro fuel
      rw [hstep, hnumber]
      rfl
    | number um rest =>
      apply hgo _ rest (strtoul_shorter (.inr ⟨um, hnumber⟩))
      intro fuel
      rw [hstep, hnumber]
      by_cases hum : um ≤ count
      · simp only [if_pos hum, Found.storeAll, List.foldl_cons, List.foldl_nil]
        rw [if_pos (by omega)]
      · simp only [if_neg hum, Found.storeAll, List.foldl_nil]

/-- The number of bytes in responses. -/
def bytesOf (responses : List Bytes) : Nat := (responses.map List.length).sum

theorem searchResponse_performs (buf : Bytes) :
    Performs count buf.length (fun fuel v => searchResponse count fuel buf v)
      (listResponse count buf) := by
  unfold searchResponse listResponse
  cases hfind : Bytes.findSub (Bytes.lit "* SEARCH") buf with
  | none => exact Performs.nothing _
  | some i =>
    have hlen : (buf.drop (i + 8)).length ≤ buf.length := by
      rw [List.length_drop]
      omega
    exact (parseNumbers_performs (buf.length + 1) (buf.drop (i + 8)) (by omega)).mono hlen

theorem searchResponses_performs (responses : List Bytes) :
    Performs count (bytesOf responses) (fun fuel v => searchResponses count fuel responses v)
      (listSearch count responses) := by
  induction responses with
  | nil => exact Performs.nothing _
  | cons buf rest ih =>
    refine ((searchResponse_performs buf).bind ih).mono ?_
    simp only [bytesOf, List.map_cons, List.sum_cons]
    omega

theorem flagsResponses_eq (responses : List Bytes) (v : Found) :
    flagsResponses count responses v =
      v.storeAll count (responses.filterMap (unseenFlags count)) := by
  induction responses generalizing v with
  | nil => rfl
  | cons buf rest ih =>
    rw [flagsResponses]
    cases hflags : unseenFlags count buf with
    | none =>
      rw [List.filterMap_cons_none hflags]
      exact ih v
    | some num =>
      rw [List.filterMap_cons_some hflags]
      exact ih _

theorem flagsResponses_performs (responses : List Bytes) :
    Performs count 0 (fun _ v => some (flagsResponses count responses v))
      (listFlags count responses) := by
  intro v _
  rw [if_neg (by simp [listFlags])]
  intro fuel
  exact .inl (congrArg some (flagsResponses_eq responses v))

/-! ## The search -/

/-- The search is what the commands that fail do, and then what the last one does. -/
theorem imapSearch_course (skipdeleted : Bool) (r : Replies) :
    ∃ f g bytes bytes',
      Performs count bytes f (searchCourse count skipdeleted r).1 ∧
      Performs count bytes' g (searchCourse count skipdeleted r).2.1 ∧
      ∀ fuel, imapSearch count skipdeleted fuel r =
        (f fuel ⟨[], count + 1⟩).bind fun v => (g fuel v).map fun v' =>
          ⟨(searchCourse count skipdeleted r).2.2, v', v.unseen.length⟩ := by
  have hundeleted : Performs count _ _ _ := searchResponses_performs r.undeleted.responses
  have hplain : Performs count _ _ _ := searchResponses_performs r.plain.responses
  have hflags : Performs count _ _ _ := flagsResponses_performs r.flags.responses
  have hnothing : Performs count 0 (fun _ v => some v) ⟨[], false⟩ := Performs.nothing 0
  unfold imapSearch searchPlain searchCourse
  cases skipdeleted with
  | true =>
    -- each command is followed by the next one only if the server does not know it
    by_cases hfirst : r.undeleted.completion = .error
    · by_cases hsecond : r.plain.completion = .error
      · simp only [hfirst, hsecond, ne_eq, not_true_eq_false, if_false, if_true]
        refine ⟨_, _, _, _, hundeleted.bind hplain, hflags, fun fuel => ?_⟩
        cases searchResponses count fuel r.undeleted.responses ⟨[], count + 1⟩ with
        | none => rfl
        | some v => rfl
      · simp only [hfirst, hsecond, ne_eq, not_true_eq_false, not_false_eq_true, if_false, if_true]
        refine ⟨_, _, _, _, hundeleted, hplain, fun fuel => ?_⟩
        cases searchResponses count fuel r.undeleted.responses ⟨[], count + 1⟩ with
        | none => rfl
        | some v => cases hv : searchResponses count fuel r.plain.responses v <;> simp [hv]
    · simp only [hfirst, ne_eq, not_false_eq_true, if_true]
      refine ⟨_, _, _, _, hnothing, hundeleted, fun fuel => ?_⟩
      cases hv : searchResponses count fuel r.undeleted.responses ⟨[], count + 1⟩ <;> simp [hv]
  | false =>
    by_cases hsecond : r.plain.completion = .error
    · simp only [hsecond, ne_eq, not_true_eq_false, if_false, Bool.false_eq_true]
      refine ⟨_, _, _, _, hplain, hflags, fun fuel => ?_⟩
      cases searchResponses count fuel r.plain.responses ⟨[], count + 1⟩ with
      | none => rfl
      | some v => rfl
    · simp only [hsecond, ne_eq, not_false_eq_true, if_true, Bool.false_eq_true, if_false]
      refine ⟨_, _, _, _, hnothing, hplain, fun fuel => ?_⟩
      cases hv : searchResponses count fuel r.plain.responses ⟨[], count + 1⟩ <;> simp [hv]

/-- Everything that the commands list, as far as it is looked at. -/
def listedInAll (count : Nat) (skipdeleted : Bool) (r : Replies) : Listing :=
  (searchCourse count skipdeleted r).1.append (searchCourse count skipdeleted r).2.1

/-- What the search comes to, when it ends. -/
def expectedResult (count : Nat) (skipdeleted : Bool) (r : Replies) : SearchResult :=
  ⟨(searchCourse count skipdeleted r).2.2,
    (Found.mk [] (count + 1)).storeAll count (listedInAll count skipdeleted r).numbers,
    min count (searchCourse count skipdeleted r).1.numbers.length⟩

/-- **The search** ends, unless a text that is no number is met while there is room. -/
theorem imapSearch_result (skipdeleted : Bool) (r : Replies) :
    if (listedInAll count skipdeleted r).stuck = true ∧
        (listedInAll count skipdeleted r).numbers.length < count then
      ∀ fuel, imapSearch count skipdeleted fuel r = none
    else (∃ fuel, imapSearch count skipdeleted fuel r = some (expectedResult count skipdeleted r)) ∧
      ∀ fuel result, imapSearch count skipdeleted fuel r = some result →
        result = expectedResult count skipdeleted r := by
  obtain ⟨f, g, bytes, bytes', hf, hg, hsearch⟩ := @imapSearch_course count skipdeleted r
  have hfirst := hf ⟨[], count + 1⟩ (Nat.zero_le _)
  have hlen := length_storeAll (v := ⟨[], count + 1⟩) (Nat.zero_le count)
    (searchCourse count skipdeleted r).1.numbers
  have hboth := (hf.bind hg) ⟨[], count + 1⟩ (Nat.zero_le _)
  simp only [List.length_nil, Nat.zero_add] at hfirst hlen hboth
  have hmap : ∀ fuel, (imapSearch count skipdeleted fuel r).map SearchResult.found =
      (f fuel ⟨[], count + 1⟩).bind (g fuel) := by
    intro fuel
    rw [hsearch]
    cases f fuel ⟨[], count + 1⟩ with
    | none => rfl
    | some v => cases hv : g fuel v <;> simp [hv]
  have hresult : ∀ fuel result, imapSearch count skipdeleted fuel r = some result →
      (f fuel ⟨[], count + 1⟩).bind (g fuel) = some result.found ∧
        result.ok = (searchCourse count skipdeleted r).2.2 ∧
        ∃ v, f fuel ⟨[], count + 1⟩ = some v ∧ result.kept = v.unseen.length := by
    intro fuel result h
    refine ⟨by rw [← hmap, h]; rfl, ?_⟩
    rw [hsearch] at h
    obtain ⟨v, hv, h⟩ := Option.bind_eq_some_iff.mp h
    obtain ⟨v', -, rfl⟩ := Option.map_eq_some_iff.mp h
    exact ⟨rfl, v, hv, rfl⟩
  split
  · next hstuck =>
    unfold listedInAll at hstuck
    rw [if_pos hstuck] at hboth
    intro fuel
    exact Option.map_eq_none_iff.mp ((hmap fuel).trans (hboth fuel))
  -- enough fuel for both loops is enough for the search
  · next hends =>
    unfold listedInAll at hends
    rw [if_neg hends] at hboth
    have hfailed : ¬((searchCourse count skipdeleted r).1.stuck = true ∧
        (searchCourse count skipdeleted r).1.numbers.length < count) := by
      rintro ⟨hstuck, hroom⟩
      apply hends
      rw [Listing.append, if_pos hstuck]
      exact ⟨hstuck, hroom⟩
    rw [if_neg hfailed] at hfirst
    have hexpected : ∀ fuel result, imapSearch count skipdeleted fuel r = some result →
        result = expectedResult count skipdeleted r := by
      intro fuel result h
      obtain ⟨hfound, hok, v, hv, hkept⟩ := hresult fuel result h
      have hsome := (hboth fuel).resolve_right fun hnone => by
        rw [hnone.1] at hfound
        cases hfound
      have hfound := Option.some.inj (hfound.symm.trans hsome)
      have hv' := (hfirst fuel).resolve_right fun hnone => by
        rw [hnone.1] at hv
        cases hv
      obtain rfl := Option.some.inj (hv.symm.trans hv')
      obtain ⟨ok, found, kept⟩ := result
      dsimp only at hfound hok hkept
      rw [expectedResult, listedInAll, hfound, hok, hkept, hlen]
    refine ⟨?_, hexpected⟩
    obtain hsome | ⟨-, hfuel⟩ := hboth (max bytes bytes' + 1)
    · obtain ⟨result, hresult', -⟩ := Option.map_eq_some_iff.mp
        ((hmap (max bytes bytes' + 1)).trans hsome)
      exact ⟨_, hresult'.trans (congrArg some (hexpected _ _ hresult'))⟩
    · omega

/-! ## What is listed is in range, or zero -/

theorem listNumbers_le (steps : Nat) (text : Bytes) :
    ∀ n ∈ (listNumbers count steps text).numbers, n ≤ count := by
  induction steps generalizing text with
  | zero =>
    intro n hn
    simp [listNumbers] at hn
  | succ steps ih =>
    rw [listNumbers]
    split
    · simp
    · split
      · simp
      · exact ih _
      · intro n hn
        rw [Listing.append, if_neg (by simp), List.mem_append] at hn
        obtain hn | hn := hn
        · split at hn
          · rwa [List.mem_singleton.mp hn]
          · cases hn
        · exact ih _ n hn

theorem listing_append_le {a b : Listing} (ha : ∀ n ∈ a.numbers, n ≤ count)
    (hb : ∀ n ∈ b.numbers, n ≤ count) : ∀ n ∈ (a.append b).numbers, n ≤ count := by
  unfold Listing.append
  split
  · exact ha
  · intro n hn
    exact (List.mem_append.mp hn).elim (ha n) (hb n)

theorem listSearch_le (responses : List Bytes) :
    ∀ n ∈ (listSearch count responses).numbers, n ≤ count := by
  induction responses with
  | nil => simp [listSearch]
  | cons buf rest ih =>
    apply listing_append_le _ ih
    unfold listResponse
    split
    · simp
    · exact listNumbers_le _ _

theorem listFlags_le (responses : List Bytes) :
    ∀ n ∈ (listFlags count responses).numbers, n ≤ count := by
  intro n hn
  obtain ⟨buf, -, hbuf⟩ := List.mem_filterMap.mp hn
  unfold unseenFlags at hbuf
  split at hbuf
  · cases hbuf
  · split at hbuf
    · next hfetch =>
      obtain rfl := Option.some.inj hbuf
      exact hfetch.2.2.2.1
    · cases hbuf

theorem listedInAll_le (skipdeleted : Bool) (r : Replies) :
    ∀ n ∈ (listedInAll count skipdeleted r).numbers, n ≤ count := by
  have hnothing : ∀ n ∈ (Listing.mk [] false).numbers, n ≤ count := by simp
  apply listing_append_le
  · unfold searchCourse
    dsimp only
    split <;> split <;> try split
    all_goals first
      | exact hnothing
      | exact listSearch_le _
      | exact listing_append_le hnothing (listSearch_le _)
      | exact listing_append_le (listSearch_le _) (listSearch_le _)
  · unfold searchCourse
    dsimp only
    split <;> split <;> try split
    all_goals first
      | exact listSearch_le _
      | exact listFlags_le _

/-- The first numbers are all of those that are in range. -/
theorem take_eq_filter {count : Nat} {numbers : List Nat} (hzero : 0 ∉ numbers.take count)
    (hlen : (numbers.filter (1 ≤ ·)).length ≤ count) :
    numbers.take count = numbers.filter (1 ≤ ·) := by
  have htake : (numbers.take count).filter (1 ≤ ·) = numbers.take count := by
    rw [List.filter_eq_self]
    intro n hn
    have hne : n ≠ 0 := fun h => hzero (h ▸ hn)
    exact decide_eq_true (by omega)
  have hsplit : numbers.filter (1 ≤ ·) =
      numbers.take count ++ (numbers.drop count).filter (1 ≤ ·) := by
    conv_lhs => rw [← List.take_append_drop count numbers, List.filter_append, htake]
  rw [hsplit, List.length_append, List.length_take] at hlen
  by_cases hshort : numbers.length ≤ count
  · rw [hsplit, List.drop_eq_nil_of_le hshort]
    simp
  · have hnone : ((numbers.drop count).filter (1 ≤ ·)).length = 0 := by omega
    rw [hsplit, List.length_eq_zero_iff.mp hnone, List.append_nil]

/-- **The search for unseen messages** ends and finds what it is to, just if no text that is no
number is met while there is room, no zero is listed, and, when it succeeds, the commands that
failed listed nothing and the last one not more than there are messages. -/
theorem imapSearch_correct_iff (count : Nat) (skipdeleted : Bool) (r : Replies) :
    (∃ fuel result, imapSearch count skipdeleted fuel r = some result ∧
      SearchCorrect count skipdeleted r result) ↔
    ¬((listedInAll count skipdeleted r).stuck = true ∧
        (listedInAll count skipdeleted r).numbers.length < count) ∧
      0 ∉ (listedInAll count skipdeleted r).numbers.take count ∧
      ((searchCourse count skipdeleted r).2.2 = .success →
        (searchCourse count skipdeleted r).1.numbers.take count = [] ∧
          (searchCourse count skipdeleted r).2.1.inRange.length ≤ count) := by
  have hresult := @imapSearch_result count skipdeleted r
  have hunseen : (expectedResult count skipdeleted r).found.unseen =
      (listedInAll count skipdeleted r).numbers.take count :=
    storeAll_unseen (Nat.zero_le count) _
  have hstart : (expectedResult count skipdeleted r).found.startcount =
      least count (expectedResult count skipdeleted r).found.unseen := storeAll_startcount rfl _
  have hkept : (expectedResult count skipdeleted r).kept = 0 ↔
      (searchCourse count skipdeleted r).1.numbers.take count = [] := by
    rw [← List.length_eq_zero_iff, List.length_take]
    rfl
  by_cases hstuck : (listedInAll count skipdeleted r).stuck = true ∧
      (listedInAll count skipdeleted r).numbers.length < count
  · rw [if_pos hstuck] at hresult
    refine iff_of_false ?_ fun h => h.1 hstuck
    rintro ⟨fuel, result, h, -⟩
    rw [hresult fuel] at h
    cases h
  rw [if_neg hstuck] at hresult
  obtain ⟨⟨fuel, hends⟩, hunique⟩ := hresult
  constructor
  · rintro ⟨fuel', result, h, hcorrect⟩
    obtain rfl := hunique fuel' result h
    refine ⟨hstuck, fun hzero => ?_, fun hok => ?_⟩
    · have hpos := (hcorrect.inRange 0 (by rwa [hunseen])).1
      omega
    · obtain ⟨hexact, hnone, -⟩ := hcorrect.exact hok
      refine ⟨hkept.mp hnone, ?_⟩
      rw [← hexact]
      exact hcorrect.atMost
  · rintro ⟨-, hzero, hsuccess⟩
    refine ⟨fuel, _, hends, ⟨fun n hn => ?_, ?_, fun hok => ?_⟩⟩
    · rw [hunseen] at hn
      have hne : n ≠ 0 := fun h => hzero (h ▸ hn)
      exact ⟨by omega, listedInAll_le skipdeleted r n (List.mem_of_mem_take hn)⟩
    · rw [hunseen, List.length_take]
      omega
    · obtain ⟨hfailed, hlen⟩ := hsuccess hok
      refine ⟨?_, hkept.mpr hfailed, hstart⟩
      rw [hunseen]
      -- what remains is the last response, as nothing was stored before it
      by_cases hcount : count = 0
      · subst hcount
        rw [List.take_zero, List.length_eq_zero_iff.mp (Nat.le_zero.mp hlen)]
      · have hnone : (searchCourse count skipdeleted r).1.numbers = [] := by
          rw [List.take_eq_nil_iff] at hfailed
          exact hfailed.resolve_left hcount
        have hlast : (listedInAll count skipdeleted r).numbers =
            (searchCourse count skipdeleted r).2.1.numbers := by
          unfold listedInAll Listing.append at hstuck ⊢
          split
          · next hfirst =>
            rw [if_pos hfirst] at hstuck
            refine absurd ⟨hfirst, ?_⟩ hstuck
            rw [hnone, List.length_nil]
            omega
          · rw [hnone, List.nil_append]
        rw [hlast] at hzero ⊢
        exact take_eq_filter hzero hlen

end

/-- A response that lists a word, one that lists zero, and a number that a command listed before it
failed. -/
theorem imapSearch_goes_wrong :
    (¬∃ fuel result, imapSearch 3 false fuel
        ⟨⟨[], .success⟩, ⟨[Bytes.lit "* SEARCH 1 NIL"], .success⟩, ⟨[], .success⟩⟩ = some result) ∧
      (imapSearch 3 false 100
        ⟨⟨[], .success⟩, ⟨[Bytes.lit "* SEARCH 0"], .success⟩, ⟨[], .success⟩⟩).map
          (fun r => (r.ok, r.found)) = some (.success, ⟨[0], 0⟩) ∧
      (imapSearch 3 true 100
        ⟨⟨[Bytes.lit "* SEARCH 1"], .error⟩, ⟨[Bytes.lit "* SEARCH 2"], .success⟩,
          ⟨[], .success⟩⟩).map (fun r => (r.ok, r.found)) = some (.success, ⟨[1, 2], 1⟩) := by
  refine ⟨?_, by decide +kernel, by decide +kernel⟩
  have hresult := @imapSearch_result 3 false
    ⟨⟨[], .success⟩, ⟨[Bytes.lit "* SEARCH 1 NIL"], .success⟩, ⟨[], .success⟩⟩
  rw [if_pos (by decide +kernel)] at hresult
  rintro ⟨fuel, result, h⟩
  rw [hresult fuel] at h
  cases h

end Fetchmail.Imap
