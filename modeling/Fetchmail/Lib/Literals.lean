import Mathlib.Algebra.Ring.Int.Defs
import Mathlib.Algebra.Ring.Nat
import Mathlib.Data.List.Basic

/-!
# Literals with Brackets

Literals that are made of atoms, of lists in square brackets, of tuples in parentheses and of
dictionaries in braces, and a machine with a stack that reads one. What is in brackets may have a
comma at its end. Which atoms are well formed, and what may stand between the tokens, is for a
predicate to say.

A text that fills an open bracket is composed of texts that do; how many braces are opened and
closed is read off from the value.
-/

namespace Fetchmail.Lib.Literals

inductive Bracket where
  | paren
  | square
  | brace
  deriving DecidableEq, Repr

/-- A token; a gap is white space or a comment. -/
inductive Token (α : Type*) where
  | opening (b : Bracket)
  | closing (b : Bracket)
  | comma
  | colon
  | atom (a : α)
  | gap (a : α)

/-- What is denoted; the items of a dictionary are its members. -/
inductive Value (α : Type*) where
  | atom (a : α)
  | member (key : α) (v : Value α)
  | group (b : Bracket) (items : List (Value α))

/-- Where an open bracket is read: an item or the end may follow, the colon behind a key, the value
behind that, or a comma or the end. -/
inductive Mode (α : Type*) where
  | ready
  | key (k : α)
  | value (k : α)
  | full

/-- An open bracket with the items behind it. -/
structure Frame (α : Type*) where
  bracket : Bracket
  items : List (Value α)
  mode : Mode α

/-- How far a literal has been read; the innermost bracket is the first one. -/
inductive Reading (α : Type*) where
  | start
  | inside (f : Frame α) (fs : List (Frame α))
  | done (v : Value α)

variable {α : Type*}

/-! ## The machine -/

/-- A value is put into a bracket. -/
def Frame.put (f : Frame α) (v : Value α) : Option (Frame α) :=
  match f.bracket, f.mode with
  | .brace, .value k => some { f with items := f.items ++ [.member k v], mode := .full }
  | .brace, _ => none
  | _, .ready => some { f with items := f.items ++ [v], mode := .full }
  | _, _ => none

/-- An atom that begins a member is its key. -/
def Frame.read (f : Frame α) (a : α) : Option (Frame α) :=
  match f.bracket, f.mode with
  | .brace, .ready => some { f with mode := .key a }
  | _, _ => f.put (.atom a)

/-- What a bracket holds at its end; one item in parentheses would be no tuple. -/
def Frame.close (f : Frame α) : Option (Value α) :=
  match f.mode with
  | .ready | .full =>
    if f.bracket = .paren ∧ f.items.length < 2 then none else some (.group f.bracket f.items)
  | _ => none

/-- A value is passed on to the bracket around it, if there is one. -/
def give : List (Frame α) → Value α → Option (Reading α)
  | [], v => some (.done v)
  | f :: fs, v => (f.put v).map (Reading.inside · fs)

/-- One token is read. A bracket may open where no value belongs: then there is no place for it at
its end. -/
def step (ok : α → Bool) : Reading α → Token α → Option (Reading α)
  | r, .gap a => if ok a then some r else none
  | .start, .opening b => some (.inside ⟨b, [], .ready⟩ [])
  | .start, .atom a => if ok a then some (.done (.atom a)) else none
  | .inside f fs, .opening b => some (.inside ⟨b, [], .ready⟩ (f :: fs))
  | .inside f fs, .closing b => if f.bracket = b then f.close.bind (give fs) else none
  | .inside f fs, .comma =>
    match f.mode with
    | .full => some (.inside { f with mode := .ready } fs)
    | _ => none
  | .inside f fs, .colon =>
    match f.mode with
    | .key k => some (.inside { f with mode := .value k } fs)
    | _ => none
  | .inside f fs, .atom a => if ok a then (f.read a).map (Reading.inside · fs) else none
  | _, _ => none

/-- Tokens are read one after the other. -/
def run (ok : α → Bool) (r : Reading α) (ts : List (Token α)) : Option (Reading α) :=
  ts.foldlM (step ok) r

/-- The value of a literal. -/
def parse (ok : α → Bool) (ts : List (Token α)) : Option (Value α) :=
  match run ok .start ts with
  | some (.done v) => some v
  | _ => none

variable {ok : α → Bool} {r r' : Reading α} {t : Token α} {ts ts' : List (Token α)} {b : Bracket}
  {f f' : Frame α} {fs : List (Frame α)} {v : Value α} {vs vs' : List (Value α)} {a k : α}

theorem run_nil : run ok r [] = some r := rfl

theorem run_cons : run ok r (t :: ts) = (step ok r t).bind fun r => run ok r ts := List.foldlM_cons

theorem run_append : run ok r (ts ++ ts') = (run ok r ts).bind fun r => run ok r ts' :=
  List.foldlM_append

theorem parse_eq_some : parse ok ts = some v ↔ run ok .start ts = some (.done v) := by
  rw [parse]
  split
  · next heq => rw [heq]; simp
  · next hne =>
    refine iff_of_false (by simp) fun h => hne v h

/-! ## Well-formed tokens -/

/-- What is part of a token is well formed. -/
def Token.Sound (ok : α → Bool) : Token α → Prop
  | .atom a | .gap a => ok a = true
  | _ => True

theorem step_sound (h : step ok r t = some r') : t.Sound ok := by
  cases t with
  | atom a | gap a =>
    by_contra hok
    cases r <;> simp_all [step, Token.Sound]
  | opening | closing | comma | colon => trivial

theorem run_sound (h : run ok r ts = some r') : ∀ t ∈ ts, t.Sound ok := by
  induction ts generalizing r with
  | nil => exact fun t ht => absurd ht List.not_mem_nil
  | cons t ts ih =>
    rw [run_cons] at h
    obtain ⟨mid, hstep, hrun⟩ := Option.bind_eq_some_iff.mp h
    exact List.forall_mem_cons.mpr ⟨step_sound hstep, ih hrun⟩

/-! ## Braces -/

mutual

/-- The dictionaries in a value. -/
def Value.braces : Value α → Nat
  | .atom _ => 0
  | .member _ v => v.braces
  | .group b items => (if b = .brace then 1 else 0) + bracesAll items

/-- The dictionaries in some values. -/
def bracesAll : List (Value α) → Nat
  | [] => 0
  | v :: vs => v.braces + bracesAll vs

end

theorem bracesAll_eq (vs : List (Value α)) : bracesAll vs = (vs.map Value.braces).sum := by
  induction vs with
  | nil => rfl
  | cons v vs ih => rw [bracesAll, ih, List.map_cons, List.sum_cons]

theorem bracesAll_append : bracesAll (vs ++ vs') = bracesAll vs + bracesAll vs' := by
  simp [bracesAll_eq]

def Token.isOpenBrace : Token α → Bool
  | .opening .brace => true
  | _ => false

def Token.isCloseBrace : Token α → Bool
  | .closing .brace => true
  | _ => false

/-- The dictionaries of an open bracket, where it counts for `n` itself. -/
def Frame.weight (n : Nat) (f : Frame α) : Nat :=
  (if f.bracket = .brace then n else 0) + bracesAll f.items

/-- The dictionaries that have been read, where one that is still open counts for `n`. -/
def Reading.weight (n : Nat) : Reading α → Nat
  | .start => 0
  | .inside f fs => f.weight n + (fs.map (Frame.weight n)).sum
  | .done v => v.braces

theorem Frame.put_weight (n : Nat) (h : f.put v = some f') :
    f'.weight n = f.weight n + v.braces := by
  obtain ⟨b, items, mode⟩ := f
  cases b <;> cases mode <;> simp only [Frame.put, reduceCtorEq, Option.some.injEq] at h <;>
    subst h <;> simp [Frame.weight, bracesAll_append, bracesAll, Value.braces, Nat.add_assoc]

theorem Frame.read_weight (n : Nat) (h : f.read a = some f') : f'.weight n = f.weight n := by
  rw [Frame.read] at h
  split at h
  · cases h
    rfl
  · exact Frame.put_weight n h

theorem give_weight (n : Nat) (h : give fs v = some r) :
    r.weight n = v.braces + (fs.map (Frame.weight n)).sum := by
  cases fs with
  | nil =>
    cases h
    rfl
  | cons f fs =>
    obtain ⟨f', hput, rfl⟩ := Option.map_eq_some_iff.mp h
    rw [Reading.weight, Frame.put_weight n hput, List.map_cons, List.sum_cons]
    omega

/-- An opening brace counts for `n`, and its closing brace for the rest. -/
theorem step_weight {n : Nat} (hn : n ≤ 1) (h : step ok r t = some r') :
    r'.weight n = r.weight n + (if t.isOpenBrace then n else 0) +
      (if t.isCloseBrace then 1 - n else 0) := by
  cases t with
  | gap a =>
    rw [step] at h
    obtain ⟨-, h⟩ := Option.ite_none_right_eq_some.mp h
    cases h
    rfl
  | opening b =>
    cases r with
    | start | inside =>
      cases h
      cases b <;> simp [Reading.weight, Frame.weight, bracesAll, Token.isOpenBrace,
        Token.isCloseBrace, Nat.add_comm]
    | done => cases h
  | closing b =>
    cases r with
    | start | done => cases h
    | inside f fs =>
      rw [step] at h
      obtain ⟨rfl, hend⟩ := Option.ite_none_right_eq_some.mp h
      obtain ⟨v, hclose, hgive⟩ := Option.bind_eq_some_iff.mp hend
      -- what the frame has collected goes to the frame below
      have hv : v = .group f.bracket f.items := by
        rw [Frame.close] at hclose
        split at hclose <;> first | cases hclose | skip
        all_goals
          obtain ⟨-, hclose⟩ := Option.ite_none_left_eq_some.mp hclose
          exact (Option.some.inj hclose).symm
      rw [give_weight n hgive, hv, Value.braces, Reading.weight, Frame.weight]
      cases f.bracket <;> simp [Token.isOpenBrace, Token.isCloseBrace]
      omega
  | comma | colon =>
    cases r with
    | start | done => cases h
    | inside f fs =>
      rw [step] at h
      split at h <;> cases h
      rfl
  | atom a =>
    cases r with
    | start =>
      rw [step] at h
      obtain ⟨-, h⟩ := Option.ite_none_right_eq_some.mp h
      cases h
      rfl
    | done => cases h
    | inside f fs =>
      rw [step] at h
      obtain ⟨-, h⟩ := Option.ite_none_right_eq_some.mp h
      obtain ⟨f', hread, rfl⟩ := Option.map_eq_some_iff.mp h
      rw [Reading.weight, Frame.read_weight n hread]
      rfl

theorem run_weight {n : Nat} (hn : n ≤ 1) (h : run ok r ts = some r') :
    r'.weight n = r.weight n + n * ts.countP Token.isOpenBrace +
      (1 - n) * ts.countP Token.isCloseBrace := by
  induction ts generalizing r with
  | nil =>
    cases h
    simp
  | cons t ts ih =>
    rw [run_cons] at h
    obtain ⟨mid, hstep, hrun⟩ := Option.bind_eq_some_iff.mp h
    rw [ih hrun, step_weight hn hstep, List.countP_cons, List.countP_cons, Nat.mul_add, Nat.mul_add]
    cases t.isOpenBrace <;> cases t.isCloseBrace <;> simp <;> omega

/-- In a literal there is one opening and one closing brace for each dictionary. -/
theorem parse_braces (h : parse ok ts = some v) :
    ts.countP Token.isOpenBrace = v.braces ∧ ts.countP Token.isCloseBrace = v.braces := by
  have hrun := parse_eq_some.mp h
  have hopen := run_weight (Nat.le_refl 1) hrun
  have hclose := run_weight (Nat.zero_le 1) hrun
  simp only [Reading.weight] at hopen hclose
  omega

/-! ## Texts -/

/-- The text is that of a value, wherever one has a place. -/
def Spells (ok : α → Bool) (ts : List (Token α)) (v : Value α) : Prop :=
  ∀ f f' fs, Frame.put f v = some f' → run ok (.inside f fs) ts = some (.inside f' fs)

/-- The text adds values to an open bracket, with a comma behind each. -/
def Fills (ok : α → Bool) (b : Bracket) (ts : List (Token α)) (vs : List (Value α)) : Prop :=
  ∀ items fs, run ok (.inside ⟨b, items, .ready⟩ fs) ts =
    some (.inside ⟨b, items ++ vs, .ready⟩ fs)

/-- The text adds values to an open bracket, which may end then. -/
def Ends (ok : α → Bool) (b : Bracket) (ts : List (Token α)) (vs : List (Value α)) : Prop :=
  ∀ items fs, ∃ mode, (mode = .ready ∨ mode = .full) ∧
    run ok (.inside ⟨b, items, .ready⟩ fs) ts = some (.inside ⟨b, items ++ vs, mode⟩ fs)

theorem Fills.braces (h : Fills ok b ts vs) :
    ts.countP Token.isOpenBrace = bracesAll vs ∧ ts.countP Token.isCloseBrace = bracesAll vs := by
  have hopen := run_weight (Nat.le_refl 1) (h [] [])
  have hclose := run_weight (Nat.zero_le 1) (h [] [])
  simp only [Reading.weight, Frame.weight, bracesAll, List.nil_append] at hopen hclose
  omega

theorem fills_nil : Fills ok b [] [] := fun items fs => by rw [run_nil, List.append_nil]

theorem Fills.append (h : Fills ok b ts vs) (h' : Fills ok b ts' vs') :
    Fills ok b (ts ++ ts') (vs ++ vs') := fun items fs => by
  rw [run_append, h, Option.bind_some, h', List.append_assoc]

theorem fills_gap (h : ok a = true) : Fills ok b [.gap a] [] := fun items fs => by
  rw [run_cons, step, if_pos h, List.append_nil]
  rfl

theorem Fills.flatMap {β : Type*} {l : List β} {text : β → List (Token α)} {value : β → Value α}
    (h : ∀ x ∈ l, Fills ok b (text x) [value x]) : Fills ok b (l.flatMap text) (l.map value) := by
  induction l with
  | nil => exact fills_nil
  | cons x l ih =>
    rw [List.forall_mem_cons] at h
    rw [List.flatMap_cons]
    exact h.1.append (ih h.2)

theorem Fills.ends (h : Fills ok b ts vs) : Ends ok b ts vs :=
  fun items fs => ⟨.ready, .inl rfl, h items fs⟩

theorem Fills.append_ends (h : Fills ok b ts vs) (h' : Ends ok b ts' vs') :
    Ends ok b (ts ++ ts') (vs ++ vs') := fun items fs => by
  obtain ⟨mode, hmode, hrun⟩ := h' (items ++ vs) fs
  refine ⟨mode, hmode, ?_⟩
  rw [run_append, h, Option.bind_some, hrun, List.append_assoc]

theorem spells_atom (h : ok a = true) : Spells ok [.atom a] (.atom a) := by
  intro f f' fs hput
  have hread : f.read a = some f' := by
    obtain ⟨b, items, mode⟩ := f
    cases b <;> cases mode <;> first | exact hput | cases hput
  rw [run_cons, step, if_pos h, hread]
  rfl

/-- A value in a list or a tuple, the last one. -/
theorem Spells.ends (h : Spells ok ts v) (hb : b ≠ .brace) : Ends ok b ts [v] := fun items fs => by
  refine ⟨.full, .inr rfl, h _ _ fs ?_⟩
  cases b with
  | brace => exact absurd rfl hb
  | paren | square => rfl

/-- A value in a list or a tuple. -/
theorem Spells.item (h : Spells ok ts v) (hb : b ≠ .brace) :
    Fills ok b (ts ++ [.comma]) [v] := fun items fs => by
  have hput : (⟨b, items, .ready⟩ : Frame α).put v = some ⟨b, items ++ [v], .full⟩ := by
    cases b with
    | brace => exact absurd rfl hb
    | paren | square => rfl
  rw [run_append, h _ _ fs hput]
  rfl

theorem Spells.braces (h : Spells ok ts v) :
    ts.countP Token.isOpenBrace = v.braces ∧ ts.countP Token.isCloseBrace = v.braces := by
  have hbraces := (h.item (by decide : Bracket.square ≠ .brace)).braces
  simpa [bracesAll, Token.isOpenBrace, Token.isCloseBrace] using hbraces

/-- A member of a dictionary, the last one. -/
theorem Spells.member_ends (h : Spells ok ts v) (hk : ok k = true) :
    Ends ok .brace (.atom k :: .colon :: ts) [.member k v] := fun items fs => by
  refine ⟨.full, .inr rfl, ?_⟩
  rw [run_cons, step, if_pos hk]
  exact h ⟨.brace, items, .value k⟩ _ fs rfl

/-- A member of a dictionary. -/
theorem Spells.member (h : Spells ok ts v) (hk : ok k = true) :
    Fills ok .brace (.atom k :: .colon :: ts ++ [.comma]) [.member k v] := fun items fs => by
  rw [List.cons_append, List.cons_append, run_cons, step, if_pos hk]
  refine Eq.trans (run_append (r := .inside ⟨.brace, items, .value k⟩ fs)) ?_
  rw [h ⟨.brace, items, .value k⟩ _ fs rfl]
  rfl

theorem Frame.close_eq {mode : Mode α} (hmode : mode = .ready ∨ mode = .full)
    (hb : b ≠ .paren ∨ 2 ≤ vs.length) : (⟨b, vs, mode⟩ : Frame α).close = some (.group b vs) := by
  have htuple : ¬(b = .paren ∧ vs.length < 2) := by
    rintro ⟨hparen, hlen⟩
    rcases hb with hb | hb
    · exact hb hparen
    · omega
  rcases hmode with rfl | rfl <;> exact if_neg htuple

/-- A bracket at its end is a value. -/
theorem Ends.spells (h : Ends ok b ts vs) (hb : b ≠ .paren ∨ 2 ≤ vs.length) :
    Spells ok (.opening b :: ts ++ [.closing b]) (.group b vs) := by
  intro f f' fs hput
  obtain ⟨mode, hmode, hrun⟩ := h [] (f :: fs)
  have hopen : step ok (.inside f fs) (.opening b) = some (.inside ⟨b, [], .ready⟩ (f :: fs)) := rfl
  have hgive : give (f :: fs) (.group b vs) = some (.inside f' fs) := by rw [give, hput]; rfl
  rw [List.cons_append, run_cons, hopen, Option.bind_some, run_append, hrun, Option.bind_some,
    List.nil_append, run_cons, step, if_pos rfl, Frame.close_eq hmode hb, Option.bind_some, hgive]
  rfl

/-- The bracket around a literal. -/
theorem Ends.parse (h : Ends ok b ts vs) (hb : b ≠ .paren ∨ 2 ≤ vs.length) :
    parse ok (.opening b :: ts ++ [.closing b]) = some (.group b vs) := by
  obtain ⟨mode, hmode, hrun⟩ := h [] []
  have hopen : step ok .start (.opening b) = some (.inside ⟨b, [], .ready⟩ []) := rfl
  rw [parse_eq_some, List.cons_append, run_cons, hopen, Option.bind_some, run_append, hrun,
    Option.bind_some, List.nil_append, run_cons, step, if_pos rfl, Frame.close_eq hmode hb]
  rfl

end Fetchmail.Lib.Literals
