import Fetchmail.Lib.Buffer
import Fetchmail.Lib.Storage
import Fetchmail.Lib.Words

/-!
# Command Lines of Plugins

`parse_plugin` of `socket.c`: a pass that counts, a pass that expands `%h` and `%p` into a block of
the size counted, and two passes that make words and pointers of it. Both allocations succeed here,
with anything in the block; a pointer is a place in the block, and takes eight bytes of the vector.
Lengths and counts are kept in an `unsigned int`, which cuts them to 32 bits.
-/

namespace Fetchmail.Plugin

open Fetchmail.Lib

/-! ## The passes -/

/-- What an `unsigned int` keeps of a number. -/
def unsigned (n : Nat) : Nat := n % 2 ^ 32

/-- `s` in pointers, `host_count` and `service_count`, as they are before they are cut to 32 bits. -/
structure Counts where
  s : Nat := 2
  hosts : Nat := 0
  services : Nat := 0
  deriving DecidableEq, Repr

/-- The loop that counts, `p` being the character before. -/
def counting : (p : UInt8) → (plugin : Bytes) → Counts → Counts
  | _, [], n => n
  | p, c :: plugin, n =>
    counting c plugin
      { s := if Bytes.isspace c ∧ ¬Bytes.isspace p then n.s + 1 else n.s
        hosts := if p = 37 ∧ c = 104 then n.hosts + 1 else n.hosts
        services := if p = 37 ∧ c = 112 then n.services + 1 else n.services }

/-- What a round of the second loop reads. -/
inductive Piece where
  | char (c : UInt8)
  | host
  | service
  deriving DecidableEq, Repr

/-- The rounds over the template: `%h` and `%p` are read at once. -/
def pieces : Bytes → List Piece
  | [] => []
  | 37 :: 104 :: plugin => .host :: pieces plugin
  | 37 :: 112 :: plugin => .service :: pieces plugin
  | c :: plugin => .char c :: pieces plugin

/-- The text that a piece stands for. -/
def Piece.text (host service : Bytes) : Piece → Bytes
  | char c => [c]
  | .host => host
  | .service => service

/-- What is written for a piece: `strcpy` writes the terminator too. -/
def Piece.written (host service : Bytes) : Piece → Bytes
  | char c => [c]
  | .host => host ++ [Bytes.nul]
  | .service => service ++ [Bytes.nul]

/-- How far `plugin_offset` goes on. -/
def Piece.width : Piece → Nat
  | char _ => 1
  | .host => 2
  | .service => 2

/-- What a round finds at the place it has come to. -/
def pieceAt (plugin : Bytes) : Piece :=
  if Bytes.charAt plugin 0 = 37 ∧ Bytes.charAt plugin 1 = 104 then .host
  else if Bytes.charAt plugin 0 = 37 ∧ Bytes.charAt plugin 1 = 112 then .service
  else .char (Bytes.charAt plugin 0)

/-- The loop that expands, with `plugin_len`, `plugin_copy_len`, `plugin_offset` and
`plugin_copy_offset`, for at most `fuel` rounds. `plugin_len` of them are enough unless
`plugin_offset` wraps around. -/
def expandLoop (plugin host service : Bytes) (pluginLen len : Nat) :
    (fuel : Nat) → (copy : Bytes) → (pluginOffset offset : Nat) → Option Bytes
  | 0, copy, pluginOffset, offset =>
    if pluginOffset < pluginLen ∧ offset < len then none else some copy
  | fuel + 1, copy, pluginOffset, offset =>
    if pluginOffset < pluginLen ∧ offset < len then
      let x := pieceAt (plugin.drop pluginOffset)
      (Storage.write copy offset (x.written host service)).bind fun copy =>
        expandLoop plugin host service pluginLen len fuel copy
          (unsigned (pluginOffset + x.width))
          (unsigned (offset + unsigned (x.text host service).length))
    else some copy

/-- The loop that finds the words, from `cp` on. There is no character before the first. -/
def splitLoop : (copy : Bytes) → (cp : Nat) → (p : Option UInt8) → (argvec : List (Option Nat)) →
    (i : Nat) → Option (List (Option Nat))
  | [], _, _, _, _ => none
  | c :: copy, cp, p, argvec, i =>
    if c = Bytes.nul then some argvec
    else if Bytes.isspace c = false ∧ p.all Bytes.isspace = true then
      if i < argvec.length then splitLoop copy (cp + 1) (some c) (argvec.set i (some cp)) (i + 1)
      else none
    else splitLoop copy (cp + 1) (some c) argvec i

/-- The loop that ends the words. -/
def chopLoop : (copy : Bytes) → Option Bytes
  | [] => none
  | c :: copy =>
    if c = Bytes.nul then some (c :: copy)
    else (chopLoop copy).map ((if Bytes.isspace c then Bytes.nul else c) :: ·)

/-- The block and the vector with the words of what stands in the block, `s` pointers being
allocated and set to zero. -/
def splitCopy (s : Nat) (copy : Bytes) : Option (Bytes × List (Option Nat)) :=
  (splitLoop copy 0 none (List.replicate s none) 0).bind fun argvec =>
    (chopLoop copy).map fun copy => (copy, argvec)

/-- `plugin_copy_len` -/
def copyLen (plugin host service : Bytes) (n : Counts) : Nat :=
  unsigned (unsigned plugin.length + unsigned host.length * unsigned n.hosts +
    unsigned service.length * unsigned n.services)

/-- `sizeof(char *)` -/
def pointerSize : Nat := 8

/-- `parse_plugin` -/
def parsePlugin (fresh : Nat → UInt8) (plugin host service : Bytes) :
    Option (Bytes × List (Option Nat)) :=
  let n := counting (Bytes.charAt plugin 0) plugin {}
  let pluginLen := unsigned plugin.length
  let len := copyLen plugin host service n
  let copy := (List.range (unsigned (len + 1))).map fresh
  (expandLoop plugin host service pluginLen len pluginLen copy 0 0).bind fun copy =>
    (Storage.write copy len [Bytes.nul]).bind fun copy =>
      splitCopy (unsigned (pointerSize * n.s) / pointerSize) copy

/-- The strings that a vector points to, up to its NULL pointer; `none` without one. -/
def argsOf (copy : Bytes) : List (Option Nat) → Option (List Bytes)
  | [] => none
  | none :: _ => some []
  | some cp :: argvec => (argsOf copy argvec).map (Buffer.strAt copy cp :: ·)

/-! ## What they are for -/

/-- A text with its placeholders replaced. -/
def substitute (host service s : Bytes) : Bytes := (pieces s).flatMap (Piece.text host service)

/-- The words of the template, each with its placeholders replaced. -/
def arguments (plugin host service : Bytes) : List Bytes :=
  (words Bytes.isspace plugin).map (substitute host service)

/-- Whatever was in the memory, the vector has the arguments in it and then a NULL pointer. -/
def Expands (plugin host service : Bytes) : Prop :=
  ∀ fresh, ∃ copy argvec, parsePlugin fresh plugin host service = some (copy, argvec) ∧
    argsOf copy argvec = some (arguments plugin host service)

/-- The pieces that begin within the first `left` characters. -/
def readIn : (left : Nat) → List Piece → List Piece
  | 0, _ => []
  | _ + 1, [] => []
  | left + 1, x :: xs => x :: readIn (left + 1 - x.width) xs

/-- The part of the template that `plugin_len`, cut to 32 bits, lets the loop see; all of it, if the
template is shorter than 4 GiB. -/
def seen (plugin : Bytes) : List Piece := readIn (unsigned plugin.length) (pieces plugin)

def unseen (plugin : Bytes) : List Piece := (pieces plugin).drop (seen plugin).length

/-- No placeholder is there, or the last piece is one. -/
def Closed (xs : List Piece) : Prop :=
  (∀ x ∈ xs, ∃ c, x = .char c) ∨ ∀ c, xs.getLast? ≠ some (.char c)

/-- What the placeholders are replaced by, all together. -/
def replaced (host service : Bytes) (xs : List Piece) : Nat :=
  host.length * xs.count .host + service.length * xs.count .service

/-- The size of neither block is cut. -/
structure Fits (plugin host service : Bytes) : Prop where
  copy : unsigned plugin.length + replaced host service (pieces plugin) + 1 < 2 ^ 32
  vector : pointerSize * (counting (Bytes.charAt plugin 0) plugin {}).s < 2 ^ 32

example : (parsePlugin (fun _ => 120) (Bytes.lit "ssh %h") (Bytes.lit "a.b") []).bind
    (fun x => argsOf x.1 x.2) = some [Bytes.lit "ssh", Bytes.lit "a.b"] := by decide +kernel

/-! ## Counting -/

variable {plugin host service text copy a s : Bytes} {b c p : UInt8} {n : Counts}

/-- The character before no placeholder. -/
theorem pieces_char (h : ∀ d t, s = d :: t → ¬(c = 37 ∧ (d = 104 ∨ d = 112))) :
    pieces (c :: s) = .char c :: pieces s := by
  rw [pieces.eq_def]
  split
  · next heq => cases heq
  · next heq =>
    cases heq
    exact absurd ⟨rfl, .inl rfl⟩ (h _ _ rfl)
  · next heq =>
    cases heq
    exact absurd ⟨rfl, .inr rfl⟩ (h _ _ rfl)
  · next heq =>
    cases heq
    rfl

/-- A blank is in no placeholder. -/
theorem pieces_blank (hb : Bytes.isspace b = true) (a s : Bytes) :
    pieces (a ++ b :: s) = pieces a ++ .char b :: pieces s := by
  have hne : b ≠ 37 ∧ b ≠ 104 ∧ b ≠ 112 :=
    ⟨fun heq => absurd (heq ▸ hb) (by decide), fun heq => absurd (heq ▸ hb) (by decide),
      fun heq => absurd (heq ▸ hb) (by decide)⟩
  fun_induction pieces a with
  | case1 => exact pieces_char fun d t _ h => hne.1 h.1
  | case2 t ih => rw [List.cons_append, List.cons_append, pieces, ih]; rfl
  | case3 t ih => rw [List.cons_append, List.cons_append, pieces, ih]; rfl
  | case4 c t hhost hservice ih =>
    rw [List.cons_append, pieces_char, ih]
    · rfl
    · rintro d u heq ⟨hc, hd⟩
      cases t with
      | nil =>
        obtain ⟨rfl, -⟩ := List.cons.inj heq
        exact hd.elim hne.2.1 hne.2.2
      | cons e t =>
        obtain ⟨rfl, -⟩ := List.cons.inj heq
        rcases hd with hd | hd
        · exact hhost t hc (by rw [hd])
        · exact hservice t hc (by rw [hd])

/-- The pass that counts sees the first character of a placeholder in the round before. -/
theorem count_pieces_cons (c : UInt8) (s : Bytes) :
    (pieces (c :: s)).count .host =
        (if c = 37 ∧ s.head? = some 104 then 1 else 0) + (pieces s).count .host ∧
      (pieces (c :: s)).count .service =
        (if c = 37 ∧ s.head? = some 112 then 1 else 0) + (pieces s).count .service := by
  by_cases hhost : c = 37 ∧ s.head? = some 104
  · obtain ⟨rfl, hs⟩ := hhost
    obtain ⟨t, rfl⟩ := List.head?_eq_some_iff.mp hs
    have hrest : pieces (104 :: t) = .char 104 :: pieces t :=
      pieces_char fun d t _ h => absurd h.1 (by decide)
    rw [pieces, hrest]
    simp [Nat.add_comm]
  by_cases hservice : c = 37 ∧ s.head? = some 112
  · obtain ⟨rfl, hs⟩ := hservice
    obtain ⟨t, rfl⟩ := List.head?_eq_some_iff.mp hs
    have hrest : pieces (112 :: t) = .char 112 :: pieces t :=
      pieces_char fun d t _ h => absurd h.1 (by decide)
    rw [pieces, hrest]
    simp [Nat.add_comm]
  · have hchar : pieces (c :: s) = .char c :: pieces s := by
      refine pieces_char ?_
      rintro d t rfl ⟨hc, hd | hd⟩
      · exact hhost ⟨hc, by rw [hd]; rfl⟩
      · exact hservice ⟨hc, by rw [hd]; rfl⟩
    rw [hchar, if_neg hhost, if_neg hservice]
    simp

theorem counting_placeholders (p : UInt8) (s : Bytes) (n : Counts) :
    (counting p s n).hosts = n.hosts + (if p = 37 ∧ s.head? = some 104 then 1 else 0) +
        (pieces s).count .host ∧
      (counting p s n).services = n.services + (if p = 37 ∧ s.head? = some 112 then 1 else 0) +
        (pieces s).count .service := by
  induction s generalizing p n with
  | nil => simp [counting, pieces]
  | cons c s ih =>
    obtain ⟨hhosts, hservices⟩ := ih c
      { s := if Bytes.isspace c ∧ ¬Bytes.isspace p then n.s + 1 else n.s
        hosts := if p = 37 ∧ c = 104 then n.hosts + 1 else n.hosts
        services := if p = 37 ∧ c = 112 then n.services + 1 else n.services }
    obtain ⟨hhost, hservice⟩ := count_pieces_cons c s
    rw [counting, hhosts, hservices, hhost, hservice]
    simp only [List.head?_cons, Option.some_inj]
    constructor <;> split <;> omega

/-- The pass counts the placeholders. -/
theorem counting_eq (plugin : Bytes) :
    (counting (Bytes.charAt plugin 0) plugin {}).hosts = (pieces plugin).count .host ∧
      (counting (Bytes.charAt plugin 0) plugin {}).services = (pieces plugin).count .service := by
  obtain ⟨hhosts, hservices⟩ := counting_placeholders (Bytes.charAt plugin 0) plugin {}
  have hfirst : ∀ d : UInt8, d ≠ 37 → ¬(Bytes.charAt plugin 0 = 37 ∧ plugin.head? = some d) := by
    rintro d hd ⟨hchar, hhead⟩
    obtain ⟨t, rfl⟩ := List.head?_eq_some_iff.mp hhead
    exact hd hchar
  rw [hhosts, hservices, if_neg (hfirst 104 (by decide)), if_neg (hfirst 112 (by decide))]
  simp

theorem counting_append (p : UInt8) (a s : Bytes) (n : Counts) :
    counting p (a ++ s) n = counting (a.getLastD p) s (counting p a n) := by
  induction a generalizing p n with
  | nil => rfl
  | cons c a ih =>
    rw [List.cons_append, counting, counting, ih, List.getLastD_cons]

theorem counting_s_le (p : UInt8) (s : Bytes) (n : Counts) : n.s ≤ (counting p s n).s := by
  induction s generalizing p n with
  | nil => exact Nat.le_refl _
  | cons c s ih =>
    rw [counting]
    refine Nat.le_trans ?_ (ih c _)
    dsimp only
    split <;> omega

/-- There is a pointer for each word but one. -/
theorem words_le_counting (p : UInt8) (s : Bytes) (n : Counts) :
    n.s + (words Bytes.isspace s).length ≤ (counting p s n).s + 1 := by
  induction s using words_induction (p := Bytes.isspace) generalizing p n with
  | unbroken a ha =>
    have hle := counting_s_le p a n
    rw [words_unbroken ha]
    split <;> simp <;> omega
  | broken a b s ha hb ih =>
    have hle := counting_s_le p a n
    rw [words_broken ha hb, counting_append, counting, List.length_append]
    refine Nat.le_trans ?_ (ih b _)
    cases a with
    | nil =>
      show n.s + (0 + _) ≤ (if Bytes.isspace b ∧ ¬Bytes.isspace p then n.s + 1 else n.s) + _
      split <;> omega
    | cons c a =>
      have hlast : Bytes.isspace ((c :: a).getLastD p) = false := by
        rw [List.getLastD_cons]
        cases h : a.getLast? with
        | none => rw [List.getLastD_eq_getLast?, h]; exact ha c List.mem_cons_self
        | some d =>
          rw [List.getLastD_eq_getLast?, h]
          exact ha d (List.mem_cons_of_mem c (List.mem_of_getLast? h))
      have hblank : Bytes.isspace b = true ∧ ¬Bytes.isspace ((c :: a).getLastD p) = true :=
        ⟨hb, by rw [hlast]; decide⟩
      simp only [if_pos hblank, List.cons_ne_nil, if_false, List.length_singleton]
      omega

/-- And no more than one more than that. -/
theorem counting_le_words (p : UInt8) (s : Bytes) (n : Counts) :
    (counting p s n).s ≤ n.s + (words Bytes.isspace s).length +
      (if Bytes.isspace p = false ∧ s.head?.any Bytes.isspace = true then 1 else 0) := by
  have hplain : ∀ (p : UInt8) (a : Bytes) (n : Counts), Unbroken Bytes.isspace a →
      (counting p a n).s = n.s := by
    intro p a
    induction a generalizing p with
    | nil => exact fun n _ => rfl
    | cons c a ih =>
      intro n ha
      rw [counting, ih c _ fun d hd => ha d (List.mem_cons_of_mem c hd)]
      simp [ha c List.mem_cons_self]
  induction s using words_induction (p := Bytes.isspace) generalizing p n with
  | unbroken a ha =>
    rw [hplain p a n ha]
    omega
  | broken a b s ha hb ih =>
    -- behind the blank only words count
    have hrest : ∀ m, (counting b s m).s ≤ m.s + (words Bytes.isspace s).length := by
      intro m
      have hih := ih b m
      rwa [hb, if_neg (by simp), Nat.add_zero] at hih
    rw [words_broken ha hb, counting_append, counting, List.length_append]
    refine Nat.le_trans (hrest _) ?_
    simp only [hplain p a n ha, hb, true_and, Bool.not_eq_true]
    cases a with
    | nil =>
      cases hp : Bytes.isspace p with
      | false =>
        simp [hp, hb]
        omega
      | true => simp [hp, hb]
    | cons c a =>
      simp only [List.cons_ne_nil, if_false, List.length_singleton]
      split <;> omega

/-! ## Expanding -/

/-- Whether `strcpy` writes the piece. -/
def Piece.isPlaceholder : Piece → Bool
  | char _ => false
  | .host => true
  | .service => true

/-- What `strcpy` leaves behind the text. -/
def closing (xs : List Piece) : Bytes :=
  if xs.getLast?.any Piece.isPlaceholder = true then [Bytes.nul] else []

/-- All pieces of the list in a row. -/
def expansion (host service : Bytes) (xs : List Piece) : Bytes :=
  xs.flatMap (Piece.text host service)

theorem Piece.written_eq (x : Piece) :
    x.written host service = x.text host service ++ closing [x] := by
  cases x with
  | char c => rfl
  | host => rfl
  | service => rfl

/-- The round at a place takes the first piece of what is left. -/
theorem pieces_eq_pieceAt (hs : s ≠ []) :
    pieces s = pieceAt s :: pieces (s.drop (pieceAt s).width) := by
  obtain ⟨c, s, rfl⟩ := List.exists_cons_of_ne_nil hs
  have hfirst : Bytes.charAt (c :: s) 0 = c := rfl
  have hsecond : Bytes.charAt (c :: s) 1 = Bytes.charAt s 0 := rfl
  unfold pieceAt
  rw [hfirst, hsecond]
  -- `%h` and `%p` are two characters wide, everything else is one
  by_cases hhost : c = 37 ∧ Bytes.charAt s 0 = 104
  · obtain ⟨rfl, hchar⟩ := hhost
    rw [if_pos ⟨rfl, hchar⟩]
    cases s with
    | nil => cases hchar
    | cons d s =>
      obtain rfl : d = 104 := hchar
      rfl
  by_cases hservice : c = 37 ∧ Bytes.charAt s 0 = 112
  · obtain ⟨rfl, hchar⟩ := hservice
    rw [if_neg hhost, if_pos ⟨rfl, hchar⟩]
    cases s with
    | nil => cases hchar
    | cons d s =>
      obtain rfl : d = 112 := hchar
      rfl
  · rw [if_neg hhost, if_neg hservice]
    refine pieces_char ?_
    rintro d t rfl ⟨hc, hd | hd⟩
    · exact hhost ⟨hc, hd⟩
    · exact hservice ⟨hc, hd⟩

/-- How much of the template the pieces take up. -/
def widths (xs : List Piece) : Nat := (xs.map Piece.width).sum

theorem widths_cons (x : Piece) (xs : List Piece) : widths (x :: xs) = x.width + widths xs := by
  rw [widths, List.map_cons, List.sum_cons]
  rfl

theorem widths_pieces (s : Bytes) : widths (pieces s) = s.length := by
  fun_induction pieces s with
  | case1 => rfl
  | case2 s ih => rw [widths_cons, ih, List.length_cons, List.length_cons, Piece.width]; omega
  | case3 s ih => rw [widths_cons, ih, List.length_cons, List.length_cons, Piece.width]; omega
  | case4 c s _ _ ih => rw [widths_cons, ih, List.length_cons, Piece.width]; omega

/-- What is read in comes first, and ends at the limit or with a placeholder across it. -/
theorem readIn_spec (left : Nat) (xs : List Piece) :
    readIn left xs ++ xs.drop (readIn left xs).length = xs ∧
      (left ≤ widths xs → widths (readIn left xs) = left ∨
        (widths (readIn left xs) = left + 1 ∧
          (readIn left xs).getLast?.any Piece.isPlaceholder = true)) := by
  fun_induction readIn left xs with
  | case1 => exact ⟨rfl, fun _ => .inl rfl⟩
  | case2 left => exact ⟨rfl, fun h => absurd h (by simp [widths])⟩
  | case3 left x xs ih =>
    refine ⟨?_, fun hle => ?_⟩
    · rw [List.cons_append, List.length_cons, List.drop_succ_cons, ih.1]
    rw [widths_cons] at hle ⊢
    have hwidth : x.width = 1 ∨ (x.width = 2 ∧ x.isPlaceholder = true) := by
      cases x with
      | char c => exact .inl rfl
      | host => exact .inr ⟨rfl, rfl⟩
      | service => exact .inr ⟨rfl, rfl⟩
    by_cases hacross : left + 1 < x.width
    · -- the limit is inside of this piece
      obtain ⟨hwidth, hplace⟩ := hwidth.resolve_left (by omega)
      have hleft : left + 1 - x.width = 0 := by omega
      rw [hleft, readIn]
      exact .inr ⟨by rw [widths]; simp; omega, by simpa using hplace⟩
    · rcases ih.2 (by omega) with heq | ⟨heq, hlast⟩
      · exact .inl (by omega)
      · refine .inr ⟨by omega, ?_⟩
        cases hrest : readIn (left + 1 - x.width) xs with
        | nil => rw [hrest] at hlast; cases hlast
        | cons y ys => rwa [hrest] at hlast

theorem seen_append_unseen (plugin : Bytes) : seen plugin ++ unseen plugin = pieces plugin :=
  (readIn_spec _ _).1

/-- The text is as long as the pieces it comes from, with the placeholders replaced. -/
theorem length_expansion (xs : List Piece) :
    (expansion host service xs).length + 2 * xs.countP Piece.isPlaceholder =
      widths xs + replaced host service xs := by
  induction xs with
  | nil => rfl
  | cons x xs ih =>
    rw [expansion, List.flatMap_cons, List.length_append, widths_cons]
    rw [expansion] at ih
    cases x with
    | char c =>
      simp only [replaced, List.countP_cons, List.count_cons, Piece.text, Piece.width,
        Piece.isPlaceholder] at ih ⊢
      simp at ih ⊢
      omega
    | host =>
      simp only [replaced, List.countP_cons, List.count_cons, Piece.text, Piece.width,
        Piece.isPlaceholder] at ih ⊢
      simp [Nat.mul_add] at ih ⊢
      omega
    | service =>
      simp only [replaced, List.countP_cons, List.count_cons, Piece.text, Piece.width,
        Piece.isPlaceholder] at ih ⊢
      simp [Nat.mul_add] at ih ⊢
      omega

theorem unsigned_of_lt {n : Nat} (h : n < 2 ^ 32) : unsigned n = n := Nat.mod_eq_of_lt h

/-- The pieces that are seen are written one behind the other. Each placeholder leaves room for the
terminator of `strcpy`, so the loop does not end early. -/
theorem expandLoop_eq {pluginLen len : Nat} (hplugin : pluginLen ≤ plugin.length)
    (hwrap : pluginLen + 1 < 2 ^ 32) (hlen32 : len + 1 < 2 ^ 32) (xs : List Piece)
    (fuel : Nat) (copy : Bytes) (pluginOffset offset : Nat)
    (hxs : readIn (pluginLen - pluginOffset) (pieces (plugin.drop pluginOffset)) = xs)
    (hfuel : pluginLen ≤ pluginOffset + fuel) (hlen : copy.length = len + 1)
    (hroom : offset + (expansion host service xs).length + xs.countP Piece.isPlaceholder ≤ len) :
    expandLoop plugin host service pluginLen len fuel copy pluginOffset offset =
      some (copy.take offset ++ expansion host service xs ++ closing xs ++
        copy.drop (offset + (expansion host service xs).length + (closing xs).length)) := by
  induction xs generalizing copy pluginOffset offset fuel with
  | nil =>
    have hend : ¬(pluginOffset < pluginLen ∧ offset < len) := by
      rintro ⟨hlt, -⟩
      obtain ⟨left, hleft⟩ : ∃ left, pluginLen - pluginOffset = left + 1 :=
        ⟨pluginLen - pluginOffset - 1, by omega⟩
      rw [hleft, pieces_eq_pieceAt (by simp; omega)] at hxs
      cases hxs
    cases fuel <;> rw [expandLoop, if_neg hend] <;> simp [expansion, closing]
  | cons x xs ih =>
    have hlt : pluginOffset < pluginLen := by
      by_contra hle
      rw [Nat.sub_eq_zero_of_le (Nat.not_lt.mp hle), readIn] at hxs
      cases hxs
    obtain ⟨left, hleft⟩ : ∃ left, pluginLen - pluginOffset = left + 1 :=
      ⟨pluginLen - pluginOffset - 1, by omega⟩
    rw [hleft, pieces_eq_pieceAt (by simp; omega), readIn, List.drop_drop, ← hleft] at hxs
    obtain ⟨hx, hxs⟩ := List.cons.inj hxs
    rw [hx] at hxs
    obtain ⟨fuel, rfl⟩ : ∃ n, fuel = n + 1 := ⟨fuel - 1, by omega⟩
    have htext : (expansion host service (x :: xs)).length =
        (x.text host service).length + (expansion host service xs).length := by
      rw [expansion, List.flatMap_cons, List.length_append]
      rfl
    rw [htext, List.countP_cons] at hroom
    have hmore : 1 ≤ (x.text host service).length + (if x.isPlaceholder = true then 1 else 0) ∧
        (closing [x]).length = if x.isPlaceholder = true then 1 else 0 := by
      cases x with
      | char c => exact ⟨Nat.le_refl 1, rfl⟩
      | host => exact ⟨Nat.le_add_left 1 _, rfl⟩
      | service => exact ⟨Nat.le_add_left 1 _, rfl⟩
    have hwidth : 1 ≤ x.width ∧ x.width ≤ 2 := by
      cases x with
      | char c => exact ⟨Nat.le_refl 1, Nat.le_succ 1⟩
      | host => exact ⟨Nat.le_succ 1, Nat.le_refl 2⟩
      | service => exact ⟨Nat.le_succ 1, Nat.le_refl 2⟩
    have hfits : offset + (x.written host service).length ≤ copy.length := by
      rw [Piece.written_eq, List.length_append]
      omega
    obtain ⟨copy', hwrite, hlen', -⟩ := Storage.write_fits hfits
    have hcopy' : copy' = copy.take offset ++ x.text host service ++ (closing [x] ++
        copy.drop (offset + (x.text host service).length + (closing [x]).length)) := by
      rw [Storage.write, if_pos hfits] at hwrite
      rw [← Option.some.inj hwrite, Piece.written_eq, List.length_append, Nat.add_assoc]
      simp
    have hat : (copy.take offset ++ x.text host service).length =
        offset + (x.text host service).length := by
      rw [List.length_append, List.length_take_of_le (by omega)]
    -- neither of the two places wraps around
    have hplace : unsigned (pluginOffset + x.width) = pluginOffset + x.width :=
      unsigned_of_lt (by omega)
    have hcopied : unsigned (offset + unsigned (x.text host service).length) =
        offset + (x.text host service).length := by
      have hshort : (x.text host service).length < 2 ^ 32 := by omega
      rw [unsigned_of_lt hshort]
      exact unsigned_of_lt (by omega)
    have hnext : readIn (pluginLen - (pluginOffset + x.width))
        (pieces (plugin.drop (pluginOffset + x.width))) = xs := by
      rw [← hxs, Nat.sub_add_eq]
    rw [expandLoop, if_pos (by omega), hx]
    simp only [hwrite, Option.bind_some, hplace, hcopied]
    rw [ih fuel copy' (pluginOffset + x.width) (offset + (x.text host service).length) hnext
      (by omega) (by omega) (by omega)]
    have htake : copy'.take (offset + (x.text host service).length) =
        copy.take offset ++ x.text host service := by
      rw [hcopy']
      exact List.take_left' hat
    cases hxs : xs with
    | nil =>
      have hone : closing (x :: []) = closing [x] := rfl
      have hdrop : copy'.drop (offset + (x.text host service).length) = closing [x] ++
          copy.drop (offset + (x.text host service).length + (closing [x]).length) := by
        rw [hcopy']
        exact List.drop_left' hat
      have hnil : closing ([] : List Piece) = [] := rfl
      simp [expansion, hnil, htake, hdrop]
    | cons y ys =>
      have hclosing : closing (x :: y :: ys) = closing (y :: ys) := by
        rw [closing, closing, List.getLast?_cons_cons]
      -- behind the last piece nothing is left of what `strcpy` wrote
      have hbehind : 1 ≤ (expansion host service (y :: ys)).length +
          (closing (y :: ys)).length := by
        unfold closing
        split
        · simp
        · next hchar =>
          obtain ⟨last, hlast⟩ : ∃ last, (y :: ys).getLast? = some last :=
            ⟨_, List.getLast?_eq_some_getLast (List.cons_ne_nil y ys)⟩
          rw [hlast, Option.any_some] at hchar
          cases last with
          | host => exact absurd rfl hchar
          | service => exact absurd rfl hchar
          | char c =>
            obtain ⟨init, hinit⟩ := List.getLast?_eq_some_iff.mp hlast
            rw [expansion, hinit, List.flatMap_append, List.length_append]
            simp [Piece.text]
      have hdrop : ∀ m, 1 ≤ m → copy'.drop (offset + (x.text host service).length + m) =
          copy.drop (offset + (x.text host service).length + m) := by
        intro m hm
        have hle : (closing [x]).length ≤ 1 := by
          unfold closing
          split <;> simp
        rw [← List.drop_drop, hcopy', List.drop_left' hat, List.drop_append,
          List.drop_of_length_le (Nat.le_trans hle hm), List.nil_append, List.drop_drop]
        congr 1
        omega
      rw [hclosing, htake, Nat.add_assoc (offset + _), hdrop _ hbehind, expansion,
        List.flatMap_cons, List.length_append]
      simp [expansion, Nat.add_assoc]

/-- The size that is counted, cut to 32 bits. -/
theorem copyLen_eq (plugin host service : Bytes) :
    copyLen plugin host service (counting (Bytes.charAt plugin 0) plugin {}) =
      unsigned (unsigned plugin.length + replaced host service (pieces plugin)) := by
  obtain ⟨hhosts, hservices⟩ := counting_eq plugin
  rw [copyLen, hhosts, hservices, replaced, ← Nat.add_assoc]
  unfold unsigned
  simp only [Nat.add_mod, Nat.mul_mod, Nat.mod_mod]

/-! ## Splitting -/

/-- Where the words begin. -/
def starts : (blank : Bool) → (cp : Nat) → Bytes → List Nat
  | _, _, [] => []
  | blank, cp, c :: s =>
    (if Bytes.isspace c = false ∧ blank = true then [cp] else []) ++
      starts (Bytes.isspace c) (cp + 1) s

/-- The words ended where they are. -/
def chop (s : Bytes) : Bytes := s.map fun c => if Bytes.isspace c then Bytes.nul else c

/-- The words are found, if there are pointers enough. -/
theorem splitLoop_eq (htext : Bytes.nul ∉ text) (rest : Bytes) (cp : Nat) (p : Option UInt8)
    (done : List Nat) (left : Nat) :
    splitLoop (text ++ Bytes.nul :: rest) cp p (done.map some ++ List.replicate left none)
        done.length =
      if (starts (p.all Bytes.isspace) cp text).length ≤ left then
        some ((done ++ starts (p.all Bytes.isspace) cp text).map some ++
          List.replicate (left - (starts (p.all Bytes.isspace) cp text).length) none)
      else none := by
  induction text generalizing cp p done left with
  | nil => simp [splitLoop, starts]
  | cons c text ih =>
    have hc : c ≠ Bytes.nul := fun heq => htext (heq ▸ List.mem_cons_self)
    have ih := ih fun hmem => htext (List.mem_cons_of_mem c hmem)
    rw [List.cons_append, splitLoop, if_neg hc, starts]
    -- a word starts at a character that is no blank and has a blank before it, or nothing
    by_cases hstart : Bytes.isspace c = false ∧ p.all Bytes.isspace = true
    · rw [if_pos hstart, if_pos hstart]
      -- without a pointer left the write is beyond the vector
      cases left with
      | zero => simp
      | succ left =>
        have hset : (done.map some ++ List.replicate (left + 1) none).set done.length (some cp) =
            (done ++ [cp]).map some ++ List.replicate left none := by
          rw [List.set_append_right _ _ (by simp), List.replicate_succ]
          simp
        have hlen : done.length + 1 = (done ++ [cp]).length := by simp
        rw [if_pos (by simp), hset, hlen, ih (cp + 1) (some c) (done ++ [cp]) left]
        simp only [List.singleton_append, List.length_cons, Nat.add_le_add_iff_right,
          Nat.add_sub_add_right, List.append_assoc, Option.all_some]
    · rw [if_neg hstart, if_neg hstart, ih (cp + 1) (some c) done left]
      rfl

theorem chopLoop_eq (htext : Bytes.nul ∉ text) (rest : Bytes) :
    chopLoop (text ++ Bytes.nul :: rest) = some (chop text ++ Bytes.nul :: rest) := by
  induction text with
  | nil => simp [chopLoop, chop]
  | cons c text ih =>
    have hc : c ≠ Bytes.nul := fun heq => htext (heq ▸ List.mem_cons_self)
    rw [List.cons_append, chopLoop, if_neg hc, ih fun hmem => htext (List.mem_cons_of_mem c hmem)]
    rfl

/-- The vector up to its NULL pointer, if one is left. -/
theorem argsOf_eq (copy : Bytes) (l : List Nat) (left : Nat) :
    argsOf copy (l.map some ++ List.replicate left none) =
      if left = 0 then none else some (l.map (Buffer.strAt copy)) := by
  induction l with
  | nil => cases left <;> simp [argsOf, List.replicate_succ]
  | cons cp l ih =>
    rw [List.map_cons, List.cons_append, argsOf, ih]
    split <;> rfl

theorem starts_unbroken (ha : Unbroken Bytes.isspace a) (cp : Nat) (s : Bytes) :
    starts false cp (a ++ s) = starts false (cp + a.length) s := by
  induction a generalizing cp with
  | nil => rfl
  | cons c a ih =>
    have hc := ha c List.mem_cons_self
    rw [List.cons_append, starts, hc, ih (fun d hd => ha d (List.mem_cons_of_mem c hd)),
      List.length_cons]
    simp [Nat.add_assoc, Nat.add_comm 1]

theorem chop_unbroken (ha : Unbroken Bytes.isspace a) : chop a = a := by
  refine (List.map_congr_left fun c hc => ?_).trans (List.map_id a)
  rw [ha c hc]
  rfl

/-- Each word stands where it begins. -/
theorem strAt_starts (htext : Bytes.nul ∉ text) (front rest : Bytes) :
    (starts true front.length text).map
        (Buffer.strAt (front ++ (chop text ++ Bytes.nul :: rest))) =
      words Bytes.isspace text := by
  -- the text up to a blank, which has been ended
  have hhead : ∀ (front a x : Bytes), Bytes.nul ∉ a → Unbroken Bytes.isspace a →
      ((starts true front.length a).map (Buffer.strAt (front ++ (chop a ++ Bytes.nul :: x))) =
        if a = [] then [] else [a]) ∧
      ∀ b t, Bytes.isspace b = true → starts true front.length (a ++ b :: t) =
        starts true front.length a ++ starts true (front ++ a ++ [Bytes.nul]).length t := by
    intro front a x hnul ha
    rw [chop_unbroken ha]
    cases a with
    | nil =>
      refine ⟨rfl, fun b t hb => ?_⟩
      simp [starts, hb]
    | cons c a =>
      have hc := ha c List.mem_cons_self
      have htail : Unbroken Bytes.isspace a := fun d hd => ha d (List.mem_cons_of_mem c hd)
      have hstarts : ∀ t, starts true front.length (c :: a ++ t) =
          front.length :: starts false (front.length + 1 + a.length) t := by
        intro t
        rw [List.cons_append, starts, hc, starts_unbroken htail]
        rfl
      have hone := hstarts []
      rw [List.append_nil, starts] at hone
      refine ⟨?_, fun b t hb => ?_⟩
      · rw [hone, List.map_singleton, Buffer.strAt_length, Buffer.cstr_append hnul,
          Buffer.cstr_nul_cons, List.append_nil]
        rfl
      · rw [hone, hstarts, starts, hb]
        simp [Nat.add_assoc, Nat.add_comm 1]
  induction text using words_induction (p := Bytes.isspace) generalizing front with
  | unbroken a ha => rw [words_unbroken ha, (hhead front a rest htext ha).1]
  | broken a b s ha hb ih =>
    rw [List.mem_append, List.mem_cons, not_or, not_or] at htext
    obtain ⟨hnul, -, hs⟩ := htext
    have hchop : chop (a ++ b :: s) = chop a ++ Bytes.nul :: chop s := by
      simp [chop, hb]
    obtain ⟨hfirst, hmore⟩ := hhead front a (chop s ++ Bytes.nul :: rest) hnul ha
    rw [words_broken ha hb, hmore b s hb, List.map_append, hchop, ← ih hs, List.append_assoc,
      List.cons_append, hfirst]
    congr 2
    rw [chop_unbroken ha]
    simp

/-- **What the two passes leave**: the words of the text, if there is a pointer more than words. -/
theorem splitCopy_iff (htext : Bytes.nul ∉ text) (rest : Bytes) (slots : Nat) (args : List Bytes) :
    (∃ copy argvec, splitCopy slots (text ++ Bytes.nul :: rest) = some (copy, argvec) ∧
      argsOf copy argvec = some args) ↔
      args = words Bytes.isspace text ∧ (words Bytes.isspace text).length < slots := by
  -- the first pass finds where the words start, the second puts a NUL behind each
  have hwords : (starts true 0 text).map (Buffer.strAt (chop text ++ Bytes.nul :: rest)) =
      words Bytes.isspace text := strAt_starts htext [] rest
  have hlen := congrArg List.length hwords
  rw [List.length_map] at hlen
  have hsplit := splitLoop_eq htext rest 0 none [] slots
  simp only [List.map_nil, List.nil_append, List.length_nil, Option.all_none] at hsplit
  rw [splitCopy, hsplit, chopLoop_eq htext]
  by_cases hfit : (starts true 0 text).length ≤ slots
  · rw [if_pos hfit, Option.bind_some, Option.map_some]
    -- the vector ends at its first NULL pointer, and one is left if there are more pointers than
    -- words
    have hargs := argsOf_eq (chop text ++ Bytes.nul :: rest) (starts true 0 text)
      (slots - (starts true 0 text).length)
    rw [hwords] at hargs
    constructor
    · rintro ⟨copy, argvec, heq, hread⟩
      obtain ⟨rfl, rfl⟩ := Prod.mk.inj (Option.some.inj heq)
      rw [hargs] at hread
      split at hread
      · cases hread
      · next hleft => exact ⟨(Option.some.inj hread).symm, by omega⟩
    · rintro ⟨rfl, hlt⟩
      exact ⟨_, _, rfl, by rw [hargs, if_neg (by omega)]⟩
  · rw [if_neg hfit]
    constructor
    · rintro ⟨copy, argvec, heq, -⟩
      cases heq
    · rintro ⟨-, hlt⟩
      omega

/-! ## The whole routine -/

/-- A host or a service. -/
def IsWord (s : Bytes) : Prop := Bytes.nul ∉ s ∧ Unbroken Bytes.isspace s

/-- The text that the loop makes of what it sees. -/
def seenText (plugin host service : Bytes) : Bytes := expansion host service (seen plugin)

/-- `plugin_copy_len`, if it was not cut. -/
def blockLen (plugin host service : Bytes) : Nat :=
  unsigned plugin.length + replaced host service (pieces plugin)

/-- What stands behind the text where the terminator was counted, before it is set. -/
def leftover (fresh : Nat → UInt8) (plugin host service : Bytes) : Bytes :=
  let text := seenText plugin host service
  (closing (seen plugin) ++ ((List.range (blockLen plugin host service + 1)).map fresh).drop
    (text.length + (closing (seen plugin)).length)).take
      (blockLen plugin host service - text.length)

/-- The text of some of the pieces leaves room for the terminators of their placeholders. -/
theorem seenText_room (plugin host service : Bytes) :
    (seenText plugin host service).length + (seen plugin).countP Piece.isPlaceholder ≤
      blockLen plugin host service := by
  have hlen := @length_expansion host service (seen plugin)
  have hsplit := seen_append_unseen plugin
  have hreplaced : replaced host service (seen plugin) ≤ replaced host service (pieces plugin) := by
    rw [← hsplit, replaced, replaced, List.count_append, List.count_append, Nat.mul_add, Nat.mul_add]
    omega
  have hwidth := (readIn_spec (unsigned plugin.length) (pieces plugin)).2
    (by rw [widths_pieces]; exact Nat.mod_le _ _)
  have htext : (seenText plugin host service).length =
      (expansion host service (seen plugin)).length := rfl
  unfold blockLen
  rcases hwidth with heq | ⟨heq, hlast⟩
  · have hseen : widths (seen plugin) = unsigned plugin.length := heq
    omega
  · have hseen : widths (seen plugin) = unsigned plugin.length + 1 := heq
    -- the placeholder across the limit counts twice
    have hpos : 0 < (seen plugin).countP Piece.isPlaceholder := by
      obtain ⟨x, hx, hplace⟩ := (Option.any_eq_true _ _).mp hlast
      exact List.countP_pos_iff.mpr ⟨x, List.mem_of_getLast? hx, hplace⟩
    omega

/-- The string that is split: the text, and what is left behind it. -/
theorem parsePlugin_eq (fresh : Nat → UInt8) (hfits : Fits plugin host service) :
    parsePlugin fresh plugin host service =
      splitCopy (counting (Bytes.charAt plugin 0) plugin {}).s
        (seenText plugin host service ++ (leftover fresh plugin host service ++ [Bytes.nul])) := by
  have hblock : blockLen plugin host service + 1 < 2 ^ 32 := hfits.copy
  -- with `Fits` none of the three products and sums wraps
  have hlen : copyLen plugin host service (counting (Bytes.charAt plugin 0) plugin {}) =
      blockLen plugin host service := by
    rw [copyLen_eq]
    exact unsigned_of_lt (Nat.lt_of_succ_lt hblock)
  have hvector : unsigned (pointerSize * (counting (Bytes.charAt plugin 0) plugin {}).s) /
      pointerSize = (counting (Bytes.charAt plugin 0) plugin {}).s := by
    rw [unsigned_of_lt hfits.vector, Nat.mul_div_cancel_left _ (by decide)]
  have hroom := seenText_room plugin host service
  have hlimit : unsigned plugin.length + 1 < 2 ^ 32 := by
    unfold blockLen at hblock
    omega
  -- the loop stays in the block, as the counting pass reserved what it writes
  have hexpand := @expandLoop_eq plugin host service (unsigned plugin.length)
    (blockLen plugin host service) (Nat.mod_le _ _) hlimit hblock (seen plugin)
    (unsigned plugin.length) ((List.range (blockLen plugin host service + 1)).map fresh) 0 0
    rfl (by omega) (by simp) (by rw [Nat.zero_add]; exact hroom)
  rw [parsePlugin, hlen, hvector, unsigned_of_lt hblock, hexpand, Option.bind_some]
  simp only [List.take_zero, List.nil_append, Nat.zero_add]
  have hclosing : (closing (seen plugin)).length ≤
      blockLen plugin host service + 1 - (seenText plugin host service).length := by
    unfold closing
    split
    · simp
      omega
    · simp
  have htext : (expansion host service (seen plugin)).length =
      (seenText plugin host service).length := rfl
  generalize hx : (expansion host service (seen plugin) ++ closing (seen plugin) ++
    ((List.range _).map fresh).drop _) = copy
  have hcopy : copy.length = blockLen plugin host service + 1 := by
    rw [← hx]
    simp only [List.length_append, List.length_drop, List.length_map, List.length_range]
    omega
  have hle : (seenText plugin host service).length ≤ blockLen plugin host service := by omega
  rw [Storage.write, if_pos (by simp [hcopy]), Option.bind_some,
    List.drop_of_length_le (by simp [hcopy]), List.append_nil, ← hx, List.append_assoc,
    List.take_append, htext, List.take_of_length_le (Nat.le_trans (Nat.le_of_eq htext) hle),
    List.append_assoc]
  rfl

theorem char_mem_pieces (h : .char c ∈ pieces s) : c ∈ s := by
  fun_induction pieces s with
  | case1 => exact absurd h List.not_mem_nil
  | case2 s ih =>
    rcases List.mem_cons.mp h with heq | hmem
    · cases heq
    · exact List.mem_cons_of_mem _ (List.mem_cons_of_mem _ (ih hmem))
  | case3 s ih =>
    rcases List.mem_cons.mp h with heq | hmem
    · cases heq
    · exact List.mem_cons_of_mem _ (List.mem_cons_of_mem _ (ih hmem))
  | case4 d s _ _ ih =>
    rcases List.mem_cons.mp h with heq | hmem
    · cases heq
      exact List.mem_cons_self
    · exact List.mem_cons_of_mem d (ih hmem)

/-- Whatever is in none of the three strings is not in the text. -/
theorem mem_substitute (h : c ∈ substitute host service s) : c ∈ s ∨ c ∈ host ∨ c ∈ service := by
  obtain ⟨x, hx, hc⟩ := List.mem_flatMap.mp h
  cases x with
  | char d =>
    rw [List.mem_singleton.mp hc]
    exact .inl (char_mem_pieces hx)
  | host => exact .inr (.inl hc)
  | service => exact .inr (.inr hc)

/-- The words of the text are the arguments that are not empty. -/
theorem words_substitute (hhost : IsWord host) (hservice : IsWord service) (plugin : Bytes) :
    words Bytes.isspace (substitute host service plugin) =
      (arguments plugin host service).filter (· ≠ []) := by
  refine words_map (substitute host service) id ?_ (fun b hb => hb) ?_ rfl plugin
  · intro a ha c hc
    rcases mem_substitute hc with hc | hc | hc
    · exact ha c hc
    · exact hhost.2 c hc
    · exact hservice.2 c hc
  · intro a b s hb
    rw [substitute, pieces_blank hb, List.flatMap_append]
    rfl

/-- What replaces the placeholders is not blank. -/
theorem replaced_le (hhost : IsWord host) (hservice : IsWord service) (xs : List Piece) :
    replaced host service xs ≤
      ((expansion host service xs).filter fun c => !Bytes.isspace c).length := by
  have hself : ∀ s : Bytes, IsWord s → s.filter (fun c => !Bytes.isspace c) = s := fun s hs =>
    List.filter_eq_self.mpr fun c hc => by rw [hs.2 c hc]; rfl
  induction xs with
  | nil => exact Nat.zero_le _
  | cons x xs ih =>
    rw [expansion, List.flatMap_cons, List.filter_append, List.length_append]
    rw [expansion] at ih
    cases x with
    | char c =>
      simp only [replaced, List.count_cons] at ih ⊢
      simp at ih ⊢
      omega
    | host =>
      rw [Piece.text, hself host hhost]
      simp only [replaced, List.count_cons] at ih ⊢
      simp [Nat.mul_add] at ih ⊢
      omega
    | service =>
      rw [Piece.text, hself service hservice]
      simp only [replaced, List.count_cons] at ih ⊢
      simp [Nat.mul_add] at ih ⊢
      omega

theorem substitute_eq (plugin host service : Bytes) : substitute host service plugin =
    seenText plugin host service ++ expansion host service (unseen plugin) := by
  rw [substitute, ← seen_append_unseen plugin, List.flatMap_append]
  rfl

/-- What a template that does not end in its last placeholder leaves is what was in the memory. -/
theorem leftover_open (h : ¬Closed (seen plugin)) :
    leftover (fun _ => 120) plugin host service =
        List.replicate (blockLen plugin host service - (seenText plugin host service).length) 120 ∧
      (seenText plugin host service).length < blockLen plugin host service := by
  have hroom := seenText_room plugin host service
  rw [Closed, not_or] at h
  obtain ⟨hsome, hlast⟩ := h
  obtain ⟨c, hlast⟩ := not_forall.mp hlast
  have hclosing : closing (seen plugin) = [] := by
    rw [closing, not_not.mp hlast]
    rfl
  have hpos : 0 < (seen plugin).countP Piece.isPlaceholder := by
    rw [List.countP_pos_iff]
    push Not at hsome
    obtain ⟨x, hx, hno⟩ := hsome
    cases x with
    | char d => exact absurd rfl (hno d)
    | host => exact ⟨_, hx, rfl⟩
    | service => exact ⟨_, hx, rfl⟩
  refine ⟨?_, by omega⟩
  rw [leftover, hclosing]
  simp only [List.nil_append, List.length_nil, Nat.add_zero, List.map_const', List.length_range,
    List.drop_replicate, List.take_replicate]
  congr 1
  omega

/-- In memory full of zeros the text always has its terminator. -/
theorem leftover_zero (plugin host service : Bytes) :
    ∃ rest, leftover (fun _ => 0) plugin host service ++ [Bytes.nul] = Bytes.nul :: rest := by
  have hzeros : ∀ c ∈ leftover (fun _ => 0) plugin host service, c = Bytes.nul := by
    intro c hc
    rcases List.mem_append.mp (List.mem_of_mem_take hc) with hc | hc
    · unfold closing at hc
      split at hc
      · exact List.mem_singleton.mp hc
      · exact absurd hc List.not_mem_nil
    · obtain ⟨_, -, rfl⟩ := List.mem_map.mp (List.mem_of_mem_drop hc)
      rfl
  cases hleft : leftover (fun _ => 0) plugin host service with
  | nil => exact ⟨[], rfl⟩
  | cons c rest =>
    rw [hleft] at hzeros
    exact ⟨rest ++ [Bytes.nul], by rw [hzeros c List.mem_cons_self]; rfl⟩

/-- The text has its terminator, either set at the end or by `strcpy`, if the part that is not seen
would have brought nothing but blanks. -/
theorem leftover_closed (h : Closed (seen plugin)) (hhost : IsWord host) (hservice : IsWord service)
    (hblank : ∀ c ∈ expansion host service (unseen plugin), Bytes.isspace c = true)
    (fresh : Nat → UInt8) :
    ∃ rest, leftover fresh plugin host service ++ [Bytes.nul] = Bytes.nul :: rest := by
  by_cases hnone : (seen plugin).countP Piece.isPlaceholder = 0
  · -- the block ends where the text does
    have hnothing : replaced host service (unseen plugin) = 0 := by
      refine Nat.le_zero.mp (Nat.le_trans (replaced_le hhost hservice (unseen plugin)) ?_)
      rw [List.filter_eq_nil_iff.mpr fun c hc => by simp [hblank c hc]]
      exact Nat.le_refl 0
    have hplain : replaced host service (pieces plugin) = replaced host service (seen plugin) := by
      have hsplit := seen_append_unseen plugin
      rw [← hsplit, replaced, List.count_append, List.count_append, Nat.mul_add, Nat.mul_add]
      unfold replaced at hnothing ⊢
      omega
    have hlen := @length_expansion host service (seen plugin)
    have hwidth := (readIn_spec (unsigned plugin.length) (pieces plugin)).2
      (by rw [widths_pieces]; exact Nat.mod_le _ _)
    have hseen : widths (seen plugin) = unsigned plugin.length := by
      rcases hwidth with heq | ⟨-, hlast⟩
      · exact heq
      · obtain ⟨x, hx, hplace⟩ := (Option.any_eq_true _ _).mp hlast
        exact absurd hplace (List.countP_eq_zero.mp hnone x (List.mem_of_getLast? hx))
    have hfull : blockLen plugin host service - (seenText plugin host service).length = 0 := by
      rw [blockLen, seenText, hplain]
      omega
    exact ⟨[], by rw [leftover, hfull, List.take_zero]; rfl⟩
  · obtain ⟨x, hx, hplace⟩ := List.countP_pos_iff.mp (Nat.pos_of_ne_zero hnone)
    have hclosing : closing (seen plugin) = [Bytes.nul] := by
      rcases h with h | h
      · obtain ⟨c, rfl⟩ := h x hx
        cases hplace
      · have hne : seen plugin ≠ [] := List.ne_nil_of_mem hx
        rw [closing, if_pos]
        rw [List.getLast?_eq_some_getLast hne, Option.any_some]
        cases hy : (seen plugin).getLast hne with
        | char c => exact absurd (by rw [List.getLast?_eq_some_getLast hne, hy]) (h c)
        | host => rfl
        | service => rfl
    have hroom := seenText_room plugin host service
    obtain ⟨extra, hextra⟩ : ∃ n, blockLen plugin host service -
        (seenText plugin host service).length = n + 1 :=
      ⟨_, (Nat.succ_pred_eq_of_pos (by omega)).symm⟩
    rw [leftover, hclosing, hextra]
    exact ⟨_, rfl⟩

/-! ## Sizes that are cut -/

theorem length_expandLoop {pluginLen len fuel pluginOffset offset : Nat} {copy' : Bytes}
    (h : expandLoop plugin host service pluginLen len fuel copy pluginOffset offset = some copy') :
    copy'.length = copy.length := by
  induction fuel generalizing copy pluginOffset offset with
  | zero =>
    rw [expandLoop] at h
    split at h
    · cases h
    · rw [Option.some.inj h]
  | succ fuel ih =>
    rw [expandLoop] at h
    split at h
    · obtain ⟨copy₁, hwrite, hrest⟩ := Option.bind_eq_some_iff.mp h
      rw [ih hrest, Storage.length_write hwrite]
    · rw [Option.some.inj h]

/-- A string ends before the zero behind it. -/
theorem exists_string (front rest : Bytes) : ∃ text tail, Bytes.nul ∉ text ∧
    text.length ≤ front.length ∧ front ++ Bytes.nul :: rest = text ++ Bytes.nul :: tail := by
  induction front with
  | nil => exact ⟨[], rest, List.not_mem_nil, Nat.le_refl _, rfl⟩
  | cons c front ih =>
    by_cases hc : c = Bytes.nul
    · exact ⟨[], front ++ Bytes.nul :: rest, List.not_mem_nil, Nat.zero_le _, by rw [hc]; rfl⟩
    · obtain ⟨text, tail, hnul, hlen, heq⟩ := ih
      refine ⟨c :: text, tail, ?_, Nat.succ_le_succ hlen, by rw [List.cons_append, heq]; rfl⟩
      rw [List.mem_cons, not_or]
      exact ⟨Ne.symm hc, hnul⟩

/-- However the loop goes, the string that is split is no longer than `plugin_copy_len`, and the
vector has a NULL pointer behind its words. -/
theorem parsePlugin_short {fresh : Nat → UInt8} {argvec : List (Option Nat)} {args : List Bytes}
    (h : parsePlugin fresh plugin host service = some (copy, argvec))
    (hargs : argsOf copy argvec = some args) :
    ∃ text : Bytes, args = words Bytes.isspace text ∧
      text.length ≤ unsigned (blockLen plugin host service) ∧
      unsigned (blockLen plugin host service) + 1 < 2 ^ 32 ∧
      args.length <
        unsigned (pointerSize * (counting (Bytes.charAt plugin 0) plugin {}).s) / pointerSize := by
  have hlen : copyLen plugin host service (counting (Bytes.charAt plugin 0) plugin {}) =
      unsigned (blockLen plugin host service) := copyLen_eq plugin host service
  rw [parsePlugin, hlen] at h
  generalize unsigned (blockLen plugin host service) = len at h ⊢
  obtain ⟨copy₁, hexpand, h⟩ := Option.bind_eq_some_iff.mp h
  obtain ⟨copy₂, hwrite, h⟩ := Option.bind_eq_some_iff.mp h
  -- the block has as many bytes as `plugin_copy_len` says, also where that wrapped
  have hblock : copy₁.length = unsigned (len + 1) := by
    rw [length_expandLoop hexpand, List.length_map, List.length_range]
  rw [Storage.write] at hwrite
  split at hwrite
  · next hroom =>
    rw [hblock, List.length_singleton] at hroom
    have hsmall : len + 1 < 2 ^ 32 := by
      unfold unsigned at hroom
      omega
    -- what is split ends at the first NUL, at the latest at the one written last
    obtain ⟨text, tail, hnul, hshort, heq⟩ := exists_string (copy₁.take len)
      (copy₁.drop (len + 1))
    rw [← Option.some.inj hwrite, List.append_assoc, List.singleton_append, List.length_singleton,
      heq] at h
    obtain ⟨rfl, hslots⟩ := (splitCopy_iff hnul tail _ args).mp ⟨copy, argvec, h, hargs⟩
    exact ⟨text, rfl, Nat.le_trans hshort (List.length_take_le _ _), hsmall, hslots⟩
  · cases hwrite

/-- A size that is cut leaves no room for the arguments. -/
theorem fits_of_expands (hhost : IsWord host) (hservice : IsWord service)
    (h : Expands plugin host service) : Fits plugin host service := by
  obtain ⟨copy, argvec, hparse, hargs⟩ := h fun _ => 0
  obtain ⟨text, heq, hlen, hblock, hslots⟩ := parsePlugin_short hparse hargs
  constructor
  · -- host and service are longer than the block
    have hflat := congrArg (fun l => l.flatten.length) heq
    have hall : (arguments plugin host service).flatten =
        (substitute host service plugin).filter fun c => !Bytes.isspace c := by
      rw [← flatten_words, words_substitute hhost hservice, List.flatten_filter_ne_nil]
    simp only [hall, flatten_words] at hflat
    have hreplaced := replaced_le hhost hservice (pieces plugin)
    have htext : expansion host service (pieces plugin) = substitute host service plugin := rfl
    have hfilter := List.length_filter_le (fun c => !Bytes.isspace c) text
    rw [htext, hflat] at hreplaced
    have hplugin : unsigned plugin.length < 2 ^ 32 := Nat.mod_lt _ (by decide)
    have hsum : blockLen plugin host service =
        unsigned plugin.length + replaced host service (pieces plugin) := rfl
    have hcut : unsigned (blockLen plugin host service) = blockLen plugin host service % 2 ^ 32 :=
      rfl
    omega
  · have hcount := counting_le_words (Bytes.charAt plugin 0) plugin {}
    have hfirst : ¬(Bytes.isspace (Bytes.charAt plugin 0) = false ∧
        plugin.head?.any Bytes.isspace = true) := by
      rintro ⟨hchar, hhead⟩
      cases plugin with
      | nil => cases hhead
      | cons c plugin =>
        rw [List.head?_cons, Option.any_some] at hhead
        exact absurd (hchar.symm.trans hhead) Bool.false_ne_true
    rw [if_neg hfirst] at hcount
    rw [arguments, List.length_map] at hslots
    unfold unsigned pointerSize at *
    dsimp only at hcount
    omega

/-- **`parse_plugin` expands exactly the templates without a placeholder or with one at the end, if
no word comes out empty**, and no size is cut to 32 bits; of a template of 4 GiB or more, the part
that is not seen has to come out blank. -/
theorem expands_iff (plugin host service : Bytes) (hplugin : Bytes.nul ∉ plugin)
    (hhost : IsWord host) (hservice : IsWord service) :
    Expands plugin host service ↔
      Fits plugin host service ∧ Closed (seen plugin) ∧
        (∀ w ∈ words Bytes.isspace plugin, substitute host service w ≠ []) ∧
        ∀ c ∈ (unseen plugin).flatMap (Piece.text host service), Bytes.isspace c = true := by
  have hnul : Bytes.nul ∉ seenText plugin host service := by
    intro hmem
    have hall : Bytes.nul ∈ substitute host service plugin := by
      rw [substitute_eq]
      exact List.mem_append_left _ hmem
    rcases mem_substitute hall with hmem | hmem | hmem
    · exact hplugin hmem
    · exact hhost.1 hmem
    · exact hservice.1 hmem
  have hwords := words_substitute hhost hservice plugin
  have hflatten : (arguments plugin host service).flatten =
      (substitute host service plugin).filter fun c => !Bytes.isspace c := by
    rw [← flatten_words, hwords, List.flatten_filter_ne_nil]
  constructor
  · intro h
    have hfits := fits_of_expands hhost hservice h
    -- in memory full of zeros the arguments are those of the part that is seen
    have hseen : arguments plugin host service =
        words Bytes.isspace (seenText plugin host service) := by
      obtain ⟨rest, hrest⟩ := leftover_zero plugin host service
      have hexpands := h fun _ => 0
      rw [parsePlugin_eq _ hfits, hrest, splitCopy_iff hnul] at hexpands
      exact hexpands.1
    have hblank : ∀ c ∈ expansion host service (unseen plugin), Bytes.isspace c = true := by
      have hflat := congrArg (fun l => l.flatten.length) hseen
      simp only [hflatten, flatten_words, substitute_eq, List.filter_append,
        List.length_append] at hflat
      have hnone : (expansion host service (unseen plugin)).filter (fun c => !Bytes.isspace c) = [] :=
        List.length_eq_zero_iff.mp (by omega)
      intro c hc
      simpa using List.filter_eq_nil_iff.mp hnone c hc
    -- what lies behind an open copy is not blank, and makes the words longer
    have hclose : Closed (seen plugin) := by
      by_contra hopen
      obtain ⟨hleft, hpos⟩ := @leftover_open plugin host service hopen
      have hexpands := h fun _ => 120
      have hall : Bytes.nul ∉ seenText plugin host service ++ List.replicate
          (blockLen plugin host service - (seenText plugin host service).length) 120 := by
        rw [List.mem_append]
        exact not_or.mpr ⟨hnul, fun hmem => absurd (List.eq_of_mem_replicate hmem) (by decide)⟩
      rw [parsePlugin_eq _ hfits, hleft, ← List.append_assoc, splitCopy_iff hall, hseen] at hexpands
      have hflat := congrArg (fun l => l.flatten.length) hexpands.1
      have hblack : ∀ n, (List.replicate n (120 : UInt8)).filter (fun c => !Bytes.isspace c) =
          List.replicate n 120 := fun n =>
        List.filter_eq_self.mpr fun c hc => by rw [List.eq_of_mem_replicate hc]; rfl
      simp only [flatten_words, List.filter_append, hblack, List.length_append,
        List.length_replicate] at hflat
      omega
    refine ⟨hfits, hclose, fun w hw => ?_, hblank⟩
    have hmem : substitute host service w ∈ arguments plugin host service := List.mem_map_of_mem hw
    rw [hseen] at hmem
    exact ne_nil_of_mem_words hmem
  · rintro ⟨hfits, hclose, hall, hblank⟩ fresh
    obtain ⟨rest, hrest⟩ := leftover_closed hclose hhost hservice hblank fresh
    have hargs : (arguments plugin host service).filter (· ≠ []) = arguments plugin host service := by
      refine List.filter_eq_self.mpr fun w hw => ?_
      obtain ⟨v, hv, rfl⟩ := List.mem_map.mp hw
      exact decide_eq_true (hall v hv)
    have hseen : words Bytes.isspace (seenText plugin host service) =
        arguments plugin host service := by
      rw [← hargs, ← hwords, substitute_eq]
      exact (words_append_separators _ hblank).symm
    rw [parsePlugin_eq _ hfits, hrest, splitCopy_iff hnul, hseen]
    refine ⟨rfl, ?_⟩
    have hcount := words_le_counting (Bytes.charAt plugin 0) plugin {}
    rw [arguments, List.length_map]
    dsimp only at hcount
    omega

/-- `ssh -p %p %h`, with the host `a.b` and the service `22`. -/
theorem expands_iff_ssh :
    Expands (Bytes.lit "ssh -p %p %h") (Bytes.lit "a.b") (Bytes.lit "22") ↔
      Fits (Bytes.lit "ssh -p %p %h") (Bytes.lit "a.b") (Bytes.lit "22") ∧
        Closed (seen (Bytes.lit "ssh -p %p %h")) ∧
        (∀ w ∈ words Bytes.isspace (Bytes.lit "ssh -p %p %h"),
          substitute (Bytes.lit "a.b") (Bytes.lit "22") w ≠ []) ∧
        ∀ c ∈ (unseen (Bytes.lit "ssh -p %p %h")).flatMap
          (Piece.text (Bytes.lit "a.b") (Bytes.lit "22")), Bytes.isspace c = true :=
  expands_iff (Bytes.lit "ssh -p %p %h") (Bytes.lit "a.b") (Bytes.lit "22") (by decide)
    ⟨by decide, by unfold Unbroken; decide⟩ ⟨by decide, by unfold Unbroken; decide⟩

/-- The template `%h%h…`. -/
def hosts (n : Nat) : Bytes := (List.replicate n (Bytes.lit "%h")).flatten

theorem pieces_hosts (n : Nat) : pieces (hosts n) = List.replicate n .host := by
  induction n with
  | zero => rfl
  | succ n ih =>
    rw [List.replicate_succ, ← ih]
    rfl

/-- A size that is cut leaves no room for the hosts. -/
theorem not_expands_hosts {n m : Nat} (hn : 2 * n < 2 ^ 32) (h : 2 ^ 32 ≤ 2 * n + m * n) :
    ¬Expands (hosts n) (List.replicate m 97) (Bytes.lit "imap") := by
  intro hexpands
  have hhost : IsWord (List.replicate m 97) :=
    ⟨fun hmem => absurd (List.eq_of_mem_replicate hmem) (by decide),
      fun c hc => by rw [List.eq_of_mem_replicate hc]; rfl⟩
  have hcopy := (fits_of_expands hhost ⟨by decide, by unfold Unbroken; decide⟩ hexpands).copy
  have hlength : (hosts n).length = 2 * n := by
    rw [← widths_pieces, pieces_hosts, widths, List.map_replicate, List.sum_replicate_nat,
      Piece.width, Nat.mul_comm]
  rw [pieces_hosts, replaced, List.count_replicate_self, List.length_replicate, hlength,
    unsigned_of_lt hn] at hcopy
  omega

/-- `ssh %h imapd`, in memory full of `x`: the last word is `imapdxx`. And for 65537 times `%h` and
a host of 65534 bytes, the size is cut to 65536 bytes, behind which the second host is written. -/
theorem expands_ssh_imapd_garbled :
    ¬Expands (Bytes.lit "ssh %h imapd") (Bytes.lit "a.b") (Bytes.lit "imap") ∧
      ¬Expands (hosts 65537) (List.replicate 65534 97) (Bytes.lit "imap") := by
  refine ⟨fun h => ?_, not_expands_hosts (by decide) (by decide)⟩
  obtain ⟨copy, argvec, hparse, hargs⟩ := h fun _ => 120
  have heval : (parsePlugin (fun _ => 120) (Bytes.lit "ssh %h imapd") (Bytes.lit "a.b")
      (Bytes.lit "imap")).bind (fun x => argsOf x.1 x.2) =
      some [Bytes.lit "ssh", Bytes.lit "a.b", Bytes.lit "imapdxx"] := by decide +kernel
  rw [hparse, Option.bind_some, hargs] at heval
  exact absurd heval (by decide +kernel)

end Fetchmail.Plugin
