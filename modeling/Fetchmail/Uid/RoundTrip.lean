import Fetchmail.Uid.InitialLists
import Fetchmail.Uid.WriteSafety

/-!
# Reading What Was Written

`initialize_saved_lists` reads from the file that `write_saved_lists` left the lists that
were saved. A line is a token of user and host, a blank and a UID. The first `@` of the token
may stand in the user, but no blank follows it there, so the blank behind it is the end of
the token; and the last `@` of the token is the one in front of the host.
-/

namespace Fetchmail.Uid

open Fetchmail.Lib Buffer

/-! ## The format -/

/-- Space or tab. -/
def isBlank (b : UInt8) : Bool := b = Bytes.space || b = Bytes.tab

/-- A user and a host that a line of the file can hold. Being C strings, they have no zero
bytes. -/
structure Names (user host : Bytes) : Prop where
  user_nul : Bytes.nul ∉ user
  user_lf : Bytes.lf ∉ user
  user_start : ∀ b ∈ user.head?, isBlank b = false
  /-- from the first `@` on -/
  user_blank : ∀ b ∈ user.dropWhile (· ≠ atsignChar), isBlank b = false
  host_nul : Bytes.nul ∉ host
  host_lf : Bytes.lf ∉ host
  host_blank : ∀ b ∈ host, isBlank b = false
  host_atsign : atsignChar ∉ host

/-- A UID that a line of the file can hold. -/
structure IsUid (id : Bytes) : Prop where
  ne_nil : id ≠ []
  nul : Bytes.nul ∉ id
  space : ∀ b ∈ id, Bytes.isspace b = false

/-- The parts of a line. -/
structure Entry where
  user : Bytes
  host : Bytes
  id : Bytes

namespace Entry

/-- What stands in front of the blank. -/
def token (e : Entry) : Bytes := e.user ++ atsignChar :: e.host

def line (e : Entry) : Bytes := e.token ++ Bytes.space :: (e.id ++ [Bytes.lf])

/-- The line with its parts cut off. -/
def cut (e : Entry) : Bytes :=
  e.user ++ Bytes.nul :: (e.host ++ Bytes.nul :: (e.id ++ [Bytes.nul]))

/-- Where the newline stands. -/
def last (e : Entry) : Nat := e.token.length + 1 + e.id.length

/-- An entry that fits into the buffer, which has room for the newline and the terminator. -/
structure Fits (e : Entry) : Prop where
  names : Names e.user e.host
  uid : IsUid e.id
  short : e.line.length < popbufsize

end Entry

/-! ## One line -/

theorem charAt_length (s : Bytes) (b : UInt8) (t : Bytes) :
    Bytes.charAt (s ++ b :: t) s.length = b := by
  simp [Bytes.charAt]

theorem isBlank_iff {b : UInt8} : isBlank b = true ↔ b = Bytes.space ∨ b = Bytes.tab := by
  simp [isBlank]

theorem IsUid.ne_blank {id : Bytes} (h : IsUid id) {b : UInt8} (hb : b ∈ id) :
    b ≠ Bytes.space ∧ b ≠ Bytes.tab ∧ b ≠ Bytes.lf := by
  have hspace := h.space b hb
  refine ⟨?_, ?_, ?_⟩ <;> rintro rfl <;> exact absurd hspace (by decide)

section

variable {e : Entry}

theorem Entry.not_mem_token {b : UInt8} (hne : b ≠ atsignChar) (huser : b ∉ e.user)
    (hhost : b ∉ e.host) : b ∉ e.token := by
  intro hmem
  rcases List.mem_append.mp hmem with hmem | hmem
  · exact huser hmem
  · rcases List.mem_cons.mp hmem with heq | hmem
    · exact hne heq
    · exact hhost hmem

theorem Names.token_nul (h : Names e.user e.host) : Bytes.nul ∉ e.token :=
  Entry.not_mem_token (by decide) h.user_nul h.host_nul

theorem Names.token_lf (h : Names e.user e.host) : Bytes.lf ∉ e.token :=
  Entry.not_mem_token (by decide) h.user_lf h.host_lf

/-- The first `@` of the token, and no blank from there on. -/
theorem Names.token_split (h : Names e.user e.host) : ∃ pre post,
    e.token = pre ++ atsignChar :: post ∧ atsignChar ∉ pre ∧
    ∀ b ∈ atsignChar :: post, isBlank b = false := by
  by_cases hat : atsignChar ∈ e.user
  · obtain ⟨pre, post, huser, hpre⟩ := List.eq_append_cons_of_mem hat
    have hdrop : e.user.dropWhile (· ≠ atsignChar) = atsignChar :: post := by
      rw [huser, List.dropWhile_append_of_pos, List.dropWhile_cons_of_neg (by simp)]
      intro b hb
      have hne : b ≠ atsignChar := fun heq => hpre (heq ▸ hb)
      simpa using hne
    refine ⟨pre, post ++ atsignChar :: e.host, ?_, hpre, ?_⟩
    · rw [Entry.token, huser, List.append_assoc, List.cons_append]
    · intro b hb
      rcases List.mem_cons.mp hb with rfl | hb
      · rfl
      rcases List.mem_append.mp hb with hb | hb
      · exact h.user_blank b (hdrop ▸ List.mem_cons_of_mem _ hb)
      · rcases List.mem_cons.mp hb with rfl | hb
        · rfl
        · exact h.host_blank b hb
  · refine ⟨e.user, e.host, rfl, hat, fun b hb => ?_⟩
    rcases List.mem_cons.mp hb with rfl | hb
    · rfl
    · exact h.host_blank b hb

/-- The line starts with no blank. -/
theorem Names.strspn_line (h : Names e.user e.host) :
    strspn e.line 0 [Bytes.space, Bytes.tab] = 0 := by
  obtain ⟨c, rest, hline, hblank, hnul⟩ : ∃ c rest, e.line = c :: rest ∧ isBlank c = false ∧
      c ≠ Bytes.nul := by
    unfold Entry.line Entry.token
    cases huser : e.user with
    | nil => exact ⟨atsignChar, _, rfl, rfl, by decide⟩
    | cons c user =>
      refine ⟨c, _, rfl, h.user_start c (by simp [huser]), ?_⟩
      rintro rfl
      exact h.user_nul (by simp [huser])
  rw [hline]
  refine strspn_eq (a := []) (s := []) (by simp) (by simp) ?_ hnul
  intro hmem
  have hc : c = Bytes.space ∨ c = Bytes.tab := by simpa using hmem
  exact absurd (isBlank_iff.mpr hc) (by simp [hblank])

/-- The loop that runs back from the blank stops at once. -/
theorem Names.tokenEnd_line (h : Names e.user e.host) :
    tokenEnd e.line 0 (e.token.length + 1) = e.token.length := by
  obtain ⟨pre, post, htoken, -, hblank⟩ := h.token_split
  obtain ⟨mid, last, hlast⟩ : ∃ mid last, atsignChar :: post = mid ++ [last] :=
    ⟨_, _, (List.dropLast_concat_getLast (List.cons_ne_nil _ _)).symm⟩
  have hne : isBlank last = false := hblank last (by rw [hlast]; simp)
  have hspace : Bytes.charAt e.line e.token.length = Bytes.space := charAt_length _ _ _
  have hend : e.token = (pre ++ mid) ++ [last] := by
    rw [htoken, hlast, List.append_assoc]
  have hlen : e.token.length = (pre ++ mid).length + 1 := by
    rw [hend, List.length_append, List.length_singleton]
  have hchar : Bytes.charAt e.line (pre ++ mid).length = last := by
    rw [Entry.line, hend, List.append_assoc]
    exact charAt_length _ _ _
  rw [tokenEnd, if_neg (Nat.not_lt_zero _), if_pos (Or.inl hspace), hlen, tokenEnd,
    if_neg (Nat.not_lt_zero _), hchar, if_neg]
  intro hc
  exact absurd (isBlank_iff.mpr hc) (by simp [hne])

/-! ### The parts of a line, and their restoration -/

theorem Entry.last_eq (b : UInt8) : e.last = (e.token ++ b :: e.id).length := by
  rw [Entry.last, List.length_append, List.length_cons]
  omega

theorem strAt_cut_user (h : Names e.user e.host) : strAt e.cut 0 = e.user :=
  strAt_cut (a := []) h.user_nul

theorem strAt_cut_host (h : Names e.user e.host) :
    strAt e.cut (e.user.length + 1) = e.host := by
  have hcut := strAt_cut (a := e.user ++ [Bytes.nul]) (t := e.id ++ [Bytes.nul]) h.host_nul
  simpa [Entry.cut] using hcut

theorem strAt_cut_uid (hid : IsUid e.id) : strAt e.cut (e.token.length + 1) = e.id := by
  have hcut := strAt_cut (a := e.user ++ Bytes.nul :: (e.host ++ [Bytes.nul])) (t := []) hid.nul
  simpa [Entry.cut, Entry.token, Nat.add_assoc, Nat.add_comm, Nat.add_left_comm] using hcut

/-- The three bytes that were overwritten are put back. -/
theorem restored_cut : ((e.cut.set e.token.length Bytes.space).set e.user.length
    atsignChar).set e.last Bytes.lf = e.line := by
  have htoken : e.token.length = (e.user ++ Bytes.nul :: e.host).length := by
    simp [Entry.token]
  have hspace : e.cut.set e.token.length Bytes.space =
      e.user ++ Bytes.nul :: (e.host ++ Bytes.space :: (e.id ++ [Bytes.nul])) := by
    rw [htoken, Entry.cut, ← List.cons_append, ← List.append_assoc, set_length,
      List.append_assoc, List.cons_append]
  have hline : e.user ++ atsignChar :: (e.host ++ Bytes.space :: (e.id ++ [Bytes.nul])) =
      (e.token ++ Bytes.space :: e.id) ++ Bytes.nul :: [] := by
    simp [Entry.token]
  rw [hspace, set_length, hline, Entry.last_eq Bytes.space, set_length, List.append_assoc]
  rfl

/-- The line is one C string. -/
theorem strAt_line (h : Names e.user e.host) (hid : IsUid e.id) : strAt e.line 0 = e.line := by
  refine strAt_end (a := []) (fun hmem => ?_)
  rcases List.mem_append.mp hmem with hmem | hmem
  · exact h.token_nul hmem
  rcases List.mem_cons.mp hmem with heq | hmem
  · exact absurd heq (by decide)
  rcases List.mem_append.mp hmem with hmem | hmem
  · exact hid.nul hmem
  · exact absurd (List.mem_singleton.mp hmem) (by decide)

/-- What becomes of a line that was split. -/
theorem splitLine_line (h : Names e.user e.host) (hid : IsUid e.id) (l : Lists) :
    splitLine l e.line 0 e.token.length =
    match insertUid e.host e.user e.id l.hostlist with
    | some hostlist => { l with hostlist }
    | none => { l with scratchlist := l.scratchlist ++ [e.line] } := by
  have hafter : strspn e.line e.token.length [Bytes.space] = 1 := by
    obtain ⟨i, ids, hi⟩ := List.exists_cons_of_ne_nil hid.ne_nil
    have hmem : i ∈ e.id := by simp [hi]
    have hnul : i ≠ Bytes.nul := fun heq => hid.nul (heq ▸ hmem)
    rw [Entry.line, hi]
    exact strspn_eq (s := [Bytes.space]) (by simp) (by decide)
      (by simpa using (hid.ne_blank hmem).1) hnul
  have hspace : Bytes.charAt e.line e.token.length = Bytes.space := charAt_length _ _ _
  -- the token is cut off
  have hcut₁ : e.line.set e.token.length Bytes.nul =
      e.token ++ Bytes.nul :: (e.id ++ [Bytes.lf]) := by
    rw [Entry.line, set_length]
  -- then the UID
  have hdelim : strpbrk (e.token ++ Bytes.nul :: (e.id ++ [Bytes.lf])) (e.token.length + 1)
      [Bytes.space, Bytes.tab, Bytes.lf] = some e.last := by
    have hfound : strpbrk ((e.token ++ [Bytes.nul]) ++ (e.id ++ Bytes.lf :: []))
        (e.token ++ [Bytes.nul]).length [Bytes.space, Bytes.tab, Bytes.lf] =
        some ((e.token ++ [Bytes.nul]).length + e.id.length) := by
      refine search_eq hid.nul (fun b hb => ?_) (by decide) (by decide)
      obtain ⟨hs, ht, hl⟩ := hid.ne_blank hb
      simp [hs, ht, hl]
    simpa [Entry.last] using hfound
  have hsplit : e.token ++ Bytes.nul :: (e.id ++ [Bytes.lf]) =
      (e.token ++ Bytes.nul :: e.id) ++ Bytes.lf :: [] := by
    rw [List.append_assoc, List.cons_append]
  have hlf : Bytes.charAt (e.token ++ Bytes.nul :: (e.id ++ [Bytes.lf])) e.last = Bytes.lf := by
    rw [hsplit, Entry.last_eq Bytes.nul]
    exact charAt_length _ _ _
  have hcut₂ : (e.token ++ Bytes.nul :: (e.id ++ [Bytes.lf])).set e.last Bytes.nul =
      e.user ++ atsignChar :: (e.host ++ Bytes.nul :: (e.id ++ [Bytes.nul])) := by
    rw [hsplit, Entry.last_eq Bytes.nul, set_length]
    simp [Entry.token]
  -- and then the host, at the last `@` of the token
  have hat : strrchr (e.user ++ atsignChar :: (e.host ++ Bytes.nul :: (e.id ++ [Bytes.nul]))) 0
      atsignChar = some e.user.length := by
    rw [← Nat.zero_add e.user.length]
    exact strrchr_eq (a := []) h.user_nul (by decide) h.host_nul h.host_atsign
  have hcut₃ : (e.user ++ atsignChar :: (e.host ++ Bytes.nul :: (e.id ++ [Bytes.nul]))).set
      e.user.length Bytes.nul = e.cut := set_length _ _ _ _
  unfold splitLine
  cases hinsert : insertUid e.host e.user e.id l.hostlist <;>
    simp only [h.tokenEnd_line, hafter, hspace, hcut₁, hdelim, Option.map_some, Option.getD_some,
      Option.elim_some, hlf, hcut₂, hat, hcut₃, strAt_cut_host h, strAt_cut_user h,
      strAt_cut_uid hid, restored_cut, strAt_line h hid, hinsert]

/-- What becomes of a line. -/
theorem readLine_line (h : Names e.user e.host) (hid : IsUid e.id) (l : Lists) :
    readLine l e.line =
    match insertUid e.host e.user e.id l.hostlist with
    | some hostlist => { l with hostlist }
    | none => { l with scratchlist := l.scratchlist ++ [e.line] } := by
  obtain ⟨pre, post, htoken, hpre, hblank⟩ := h.token_split
  have hline : e.line = pre ++ ((atsignChar :: post) ++ Bytes.space :: (e.id ++ [Bytes.lf])) := by
    rw [Entry.line, htoken, List.append_assoc]
  have hnul : Bytes.nul ∉ pre ∧ Bytes.nul ∉ atsignChar :: post := by
    have htext := h.token_nul
    rw [htoken, List.mem_append, not_or] at htext
    exact htext
  have hat : strchr e.line 0 atsignChar = some pre.length := by
    rw [hline, ← Nat.zero_add pre.length]
    exact strchr_eq (a := []) hnul.1 hpre (by decide)
  have hspace : strchr e.line pre.length Bytes.space = some e.token.length := by
    rw [hline, htoken, List.length_append]
    refine strchr_eq hnul.2 (fun hmem => ?_) (by decide)
    exact absurd (hblank _ hmem) (by decide)
  unfold readLine
  simp only [h.strspn_line, hat, hspace]
  exact splitLine_line h hid l

end

/-! ## The hosts of a line -/

theorem equalsCI_iff {s t : Bytes} :
    Bytes.equalsCI s t = true ↔ s.map Bytes.toLower = t.map Bytes.toLower := by
  simp [Bytes.equalsCI]

/-- No two accounts have the same name. -/
def Distinct (hostlist : List Account) : Prop :=
  hostlist.Pairwise fun ctl other => ctl.isAccount other.queryname other.remotename = false

/-- Two accounts that a line belongs to have the same name. -/
theorem isAccount_of_both {ctl other : Account} {host user : Bytes}
    (h : ctl.isAccount host user = true) (hother : other.isAccount host user = true) :
    ctl.isAccount other.queryname other.remotename = true := by
  simp only [Query.isAccount, Bool.and_eq_true, equalsCI_iff] at *
  exact ⟨hother.1.symm.trans h.1, hother.2.symm.trans h.2⟩

theorem isAccount_self (ctl : Account) :
    ctl.isAccount ctl.queryname ctl.remotename = true := by
  simp [Query.isAccount, Bytes.equalsCI]

/-- A host takes the entries that are its own. -/
def Account.take (ctl : Account) (e : Entry) : Account :=
  if ctl.isAccount e.host e.user then ctl.insertSeen e.id else ctl

/-- Some host of the list takes the entry. -/
def Entry.listed (hostlist : List Account) (e : Entry) : Bool :=
  hostlist.any fun ctl => ctl.isAccount e.host e.user

@[simp]
theorem isAccount_take (ctl : Account) (e : Entry) (host user : Bytes) :
    (ctl.take e).isAccount host user = ctl.isAccount host user := by
  unfold Account.take
  split <;> rfl

theorem names_take (ctl : Account) (e : Entry) :
    (ctl.take e).queryname = ctl.queryname ∧ (ctl.take e).remotename = ctl.remotename := by
  unfold Account.take
  split <;> exact ⟨rfl, rfl⟩

theorem Distinct.map_take {hostlist : List Account} (h : Distinct hostlist) (e : Entry) :
    Distinct (hostlist.map fun ctl => ctl.take e) := by
  refine List.Pairwise.map _ (fun ctl other hne => ?_) h
  rw [isAccount_take, (names_take other e).1, (names_take other e).2]
  exact hne

@[simp]
theorem listed_map_take (hostlist : List Account) (e other : Entry) :
    other.listed (hostlist.map fun ctl => ctl.take e) = other.listed hostlist := by
  simp [Entry.listed, Function.comp_def]

/-- The loop over the hosts, which stops at the first that matches. -/
theorem insertUid_eq {hostlist : List Account} (h : Distinct hostlist) (e : Entry) :
    insertUid e.host e.user e.id hostlist =
      if e.listed hostlist then some (hostlist.map fun ctl => ctl.take e) else none := by
  induction hostlist with
  | nil => rfl
  | cons ctl hostlist ih =>
    obtain ⟨hctl, hrest⟩ := List.pairwise_cons.mp h
    rw [insertUid, List.map_cons]
    by_cases hmatch : ctl.isAccount e.host e.user = true
    · -- no other host matches
      have hothers : hostlist.map (fun other => other.take e) = hostlist := by
        refine (List.map_congr_left fun other hmem => ?_).trans (List.map_id hostlist)
        refine if_neg fun hother => ?_
        exact Bool.noConfusion ((hctl other hmem).symm.trans (isAccount_of_both hmatch hother))
      rw [if_pos hmatch, hothers, Account.take, if_pos hmatch]
      simp [Entry.listed, hmatch]
    · have htake : ctl.take e = ctl := if_neg hmatch
      have hlisted : e.listed (ctl :: hostlist) = e.listed hostlist := by
        simp [Entry.listed, hmatch]
      rw [if_neg hmatch, ih hrest, htake, hlisted]
      split <;> rfl

/-! ## The file -/

/-- What reading an entry comes to. -/
def Lists.add (l : Lists) (e : Entry) : Lists where
  hostlist := l.hostlist.map fun ctl => ctl.take e
  scratchlist := if e.listed l.hostlist then l.scratchlist else l.scratchlist ++ [e.line]

theorem readLine_entry {e : Entry} (he : e.Fits) {l : Lists} (hl : Distinct l.hostlist) :
    readLine l e.line = l.add e := by
  rw [readLine_line he.names he.uid, insertUid_eq hl, Lists.add]
  by_cases hlisted : e.listed l.hostlist = true
  · rw [if_pos hlisted, if_pos hlisted]
  · have hsame : l.hostlist.map (fun ctl => ctl.take e) = l.hostlist := by
      refine (List.map_congr_left fun ctl hmem => ?_).trans (List.map_id l.hostlist)
      refine if_neg fun hmatch => hlisted ?_
      exact List.any_eq_true.mpr ⟨ctl, hmem, hmatch⟩
    rw [if_neg hlisted, if_neg hlisted, hsame]

/-- The loop over the lines, by induction on them. -/
theorem readLines_entries {es : List Entry} (hes : ∀ e ∈ es, e.Fits) {l : Lists}
    (hl : Distinct l.hostlist) :
    readLines l (es.map Entry.line).flatten = es.foldl Lists.add l := by
  induction es generalizing l with
  | nil =>
    rw [readLines]
    exact if_pos rfl
  | cons e es ih =>
    have he : e.Fits := hes e List.mem_cons_self
    -- a line that has been written has its newline at the end only
    have htext : Bytes.lf ∉ e.token ++ Bytes.space :: e.id := by
      intro hmem
      rcases List.mem_append.mp hmem with hmem | hmem
      · exact he.names.token_lf hmem
      rcases List.mem_cons.mp hmem with heq | hmem
      · exact absurd heq (by decide)
      · exact (he.uid.ne_blank hmem).2.2 rfl
    have hline : e.line = (e.token ++ Bytes.space :: e.id) ++ [Bytes.lf] := by
      rw [Entry.line, List.append_assoc, List.cons_append]
    -- and it fits into the buffer, so it is read in one go
    have hshort : (e.token ++ Bytes.space :: e.id).length < popbufsize - 1 := by
      have hlen := he.short
      rw [hline, List.length_append, List.length_singleton] at hlen
      omega
    have hgets : fgets (popbufsize - 1) (e.line ++ (es.map Entry.line).flatten) =
        (e.line, (es.map Entry.line).flatten) := by
      rw [hline, List.append_assoc]
      exact fgets_line htext hshort
    have hne : e.line ++ (es.map Entry.line).flatten ≠ [] := by simp [hline]
    rw [List.map_cons, List.flatten_cons, readLines, if_neg hne, hgets, List.foldl_cons]
    rw [readLine_entry he hl]
    exact ih (fun other hmem => hes other (List.mem_cons_of_mem e hmem)) (hl.map_take e)

/-- Every host takes its own of the entries, and the scratch list the rest. -/
theorem foldl_add (es : List Entry) (l : Lists) : es.foldl Lists.add l =
    ⟨l.hostlist.map fun ctl => es.foldl Account.take ctl,
     l.scratchlist ++ (es.filter fun e => !e.listed l.hostlist).map Entry.line⟩ := by
  induction es generalizing l with
  | nil => simp
  | cons e es ih =>
    rw [List.foldl_cons, ih, List.filter_cons]
    have hlisted : ∀ other : Entry, other.listed (l.add e).hostlist = other.listed l.hostlist :=
      fun other => listed_map_take _ _ _
    simp only [hlisted]
    congr 1
    · simp [Lists.add, Function.comp_def]
    · by_cases he : e.listed l.hostlist = true
      · simp [Lists.add, he]
      · simp [Lists.add, he]

theorem foldl_take (es : List Entry) (ctl : Account) : es.foldl Account.take ctl =
    { ctl with oldsaved := { ctl.oldsaved with records := ctl.oldsaved.records ++
        (es.filter fun e => ctl.isAccount e.host e.user).map fun e => ⟨e.id, .seen⟩ } } := by
  induction es generalizing ctl with
  | nil => simp
  | cons e es ih =>
    rw [List.foldl_cons, ih, List.filter_cons]
    simp only [isAccount_take]
    by_cases he : ctl.isAccount e.host e.user = true
    · simp [Account.take, he, Account.insertSeen, Db.uidDbInsert]
    · simp [Account.take, he]

/-- The lines that are written for a host. -/
def Account.entries (ctl : Account) : List Entry :=
  (ctl.oldsaved.records.filter Record.saved).map fun rec =>
    ⟨ctl.remotename, ctl.queryname, rec.id⟩

theorem recordLine_eq (ctl : Account) (rec : Record) :
    recordLine ctl.toQuery rec = Entry.line ⟨ctl.remotename, ctl.queryname, rec.id⟩ := by
  simp [recordLine, Entry.line, Entry.token, Bytes.lit, atsignChar, Bytes.space]

theorem hostLines_eq (ctl : Account) :
    hostLines ctl.toQuery = (ctl.entries.map Entry.line).flatten := by
  rw [hostLines, Account.entries, List.map_map]
  exact congrArg List.flatten (List.map_congr_left fun rec _ => recordLine_eq ctl rec)

/-- What is written, as entries. -/
theorem savedLists_eq (hostlist : List Account) (foreign : List Entry) :
    savedLists (hostlist.map Account.toQuery) (foreign.map Entry.line) =
      ((hostlist.flatMap Account.entries ++ foreign).map Entry.line).flatten := by
  simp only [savedLists, List.map_map, List.map_append, List.flatten_append]
  congr 1
  induction hostlist with
  | nil => rfl
  | cons ctl hostlist ih =>
    rw [List.map_cons, List.flatten_cons, ih, List.flatMap_cons, List.map_append,
      List.flatten_append]
    exact congrArg (· ++ _) (hostLines_eq ctl)

theorem isAccount_of_mem_entries {ctl : Account} {e : Entry} (he : e ∈ ctl.entries) :
    e.user = ctl.remotename ∧ e.host = ctl.queryname := by
  obtain ⟨rec, -, rfl⟩ := List.mem_map.mp he
  exact ⟨rfl, rfl⟩

theorem isAccount_comm {ctl other : Account} :
    ctl.isAccount other.queryname other.remotename =
      other.isAccount ctl.queryname ctl.remotename := by
  simp [Query.isAccount, Bytes.equalsCI, eq_comm]

/-- Of all entries a host takes its own. -/
theorem filter_entries {hostlist : List Account} (h : Distinct hostlist) {ctl : Account}
    (hctl : ctl ∈ hostlist) :
    (hostlist.flatMap Account.entries).filter (fun e => ctl.isAccount e.host e.user) =
      ctl.entries := by
  obtain ⟨before, after, rfl⟩ := List.append_of_mem hctl
  obtain ⟨-, hafter, hbefore⟩ := List.pairwise_append.mp h
  have hnone : ∀ other ∈ before ++ after,
      other.entries.filter (fun e => ctl.isAccount e.host e.user) = [] := by
    intro other hother
    refine List.filter_eq_nil_iff.mpr fun e he => ?_
    rw [(isAccount_of_mem_entries he).1, (isAccount_of_mem_entries he).2, Bool.not_eq_true]
    rcases List.mem_append.mp hother with hother | hother
    · rw [isAccount_comm]
      exact hbefore other hother ctl List.mem_cons_self
    · exact (List.pairwise_cons.mp hafter).1 other hother
  have hall : ctl.entries.filter (fun e => ctl.isAccount e.host e.user) = ctl.entries := by
    refine List.filter_eq_self.mpr fun e he => ?_
    rw [(isAccount_of_mem_entries he).1, (isAccount_of_mem_entries he).2]
    exact isAccount_self ctl
  rw [List.filter_flatMap, List.flatMap_append, List.flatMap_cons, hall]
  rw [List.flatMap_eq_nil_iff.mpr fun other hother => hnone other (by simp [hother]),
    List.flatMap_eq_nil_iff.mpr fun other hother => hnone other (by simp [hother])]
  simp

/-! ## Writing and reading -/

/-- What a later run has of an account: the UIDs that were seen or deleted, as seen. -/
def Account.reread (ctl : Account) : Account :=
  { ctl with
    skipped := []
    newsaved := Db.initUidDb
    oldsaved := { Db.initUidDb with
      records := (ctl.oldsaved.records.filter Record.saved).map fun rec =>
        { rec with status := .seen } } }

/-- What `fopen(path, "r")` makes of a file. -/
def found : Option Bytes → Found
  | some content => .file content
  | none => .unreadable

section

variable {hostlist : List Account}

/-- The entries of all hosts fit into the buffer, when the names, the UIDs and the lines are
as they should be. -/
theorem fits_of_mem_entries
    (hnames : ∀ ctl ∈ hostlist, Names ctl.remotename ctl.queryname)
    (hids : ∀ ctl ∈ hostlist, ∀ rec ∈ ctl.oldsaved.records, IsUid rec.id)
    (hshort : ∀ ctl ∈ hostlist, ∀ rec ∈ ctl.oldsaved.records, rec.saved = true →
      (recordLine ctl.toQuery rec).length < popbufsize) :
    ∀ e ∈ hostlist.flatMap Account.entries, e.Fits := by
  intro e he
  obtain ⟨ctl, hctl, he⟩ := List.mem_flatMap.mp he
  obtain ⟨rec, hrec, rfl⟩ := List.mem_map.mp he
  obtain ⟨hrec, hsaved⟩ := List.mem_filter.mp hrec
  have hlen := hshort ctl hctl rec hrec hsaved
  rw [recordLine_eq] at hlen
  exact ⟨hnames ctl hctl, hids ctl hctl rec hrec, hlen⟩

/-- The lists are read from what was written. -/
theorem initializeSavedLists_savedLists {foreign : List Entry} (hdistinct : Distinct hostlist)
    (hfits : ∀ e ∈ hostlist.flatMap Account.entries, e.Fits)
    (hforeign : ∀ e ∈ foreign, e.Fits ∧ e.listed hostlist = false) :
    initializeSavedLists ⟨hostlist, []⟩
      (.file (savedLists (hostlist.map Account.toQuery) (foreign.map Entry.line))) =
    some ⟨hostlist.map Account.reread, foreign.map Entry.line⟩ := by
  have hall : ∀ e ∈ hostlist.flatMap Account.entries ++ foreign, e.Fits := by
    intro e he
    rcases List.mem_append.mp he with he | he
    · exact hfits e he
    · exact (hforeign e he).1
  have hinit : Distinct (hostlist.map Account.empty) :=
    List.Pairwise.map _ (fun _ _ hne => hne) hdistinct
  have hlisted : ∀ e : Entry, e.listed (hostlist.map Account.empty) = e.listed hostlist := by
    intro e
    simp [Entry.listed, Function.comp_def, Account.empty, Query.isAccount]
  -- the entries of an account are listed under it
  have hown : ∀ e ∈ hostlist.flatMap Account.entries, e.listed hostlist = true := by
    intro e he
    obtain ⟨ctl, hctl, he⟩ := List.mem_flatMap.mp he
    refine List.any_eq_true.mpr ⟨ctl, hctl, ?_⟩
    rw [(isAccount_of_mem_entries he).1, (isAccount_of_mem_entries he).2]
    exact isAccount_self ctl
  show some (readLines ⟨hostlist.map Account.empty, []⟩ _) = _
  rw [savedLists_eq, readLines_entries hall hinit, foldl_add]
  simp only [hlisted, List.map_map, List.nil_append]
  congr 2
  · -- the hosts
    refine List.map_congr_left fun ctl hctl => ?_
    have hforeign' : foreign.filter (fun e => ctl.isAccount e.host e.user) = [] := by
      refine List.filter_eq_nil_iff.mpr fun e he hmatch => ?_
      have hmem : e.listed hostlist = true := List.any_eq_true.mpr ⟨ctl, hctl, hmatch⟩
      exact Bool.noConfusion (hmem.symm.trans (hforeign e he).2)
    have hentries : (hostlist.flatMap Account.entries ++ foreign).filter
        (fun e => ctl.isAccount e.host e.user) = ctl.entries := by
      rw [List.filter_append, filter_entries hdistinct hctl, hforeign', List.append_nil]
    show (hostlist.flatMap Account.entries ++ foreign).foldl Account.take ctl.empty = _
    rw [foldl_take]
    have hsame : (fun e : Entry => ctl.empty.isAccount e.host e.user) =
      fun e => ctl.isAccount e.host e.user := rfl
    rw [hsame, hentries]
    simp [Account.empty, Account.reread, Account.entries, Db.initUidDb]
  · -- the scratch list
    rw [List.filter_append, List.filter_eq_nil_iff.mpr fun e he => by simp [hown e he],
      List.filter_eq_self.mpr fun e he => by simp [(hforeign e he).2], List.nil_append]

/-- Lines that are entries, as the lines of a list of entries. -/
theorem exists_entries {P : Entry → Prop} {lines : List Bytes}
    (h : ∀ line ∈ lines, ∃ e : Entry, P e ∧ e.line = line) :
    ∃ es : List Entry, (∀ e ∈ es, P e) ∧ es.map Entry.line = lines := by
  induction lines with
  | nil => exact ⟨[], by simp, rfl⟩
  | cons line lines ih =>
    obtain ⟨e, he, hline⟩ := h line List.mem_cons_self
    obtain ⟨es, hes, hlines⟩ := ih fun other hmem => h other (List.mem_cons_of_mem line hmem)
    refine ⟨e :: es, fun other hmem => ?_, by rw [List.map_cons, hline, hlines]⟩
    rcases List.mem_cons.mp hmem with rfl | hmem
    · exact he
    · exact hes other hmem

/-- Without anything to save there are no lines. -/
theorem savedLists_eq_nil {hostlist : List Query} {scratchlist : List Bytes}
    (h : anythingToSave hostlist scratchlist = false) :
    savedLists hostlist scratchlist = [] := by
  obtain ⟨hsum, hscratch⟩ : (hostlist.map fun ctl => countSeenDeleted ctl.oldsaved).sum = 0 ∧
      scratchlist = [] := by simpa [anythingToSave] using h
  have hhosts : ∀ ctl ∈ hostlist, hostLines ctl = [] := by
    intro ctl hctl
    have hzero : countSeenDeleted ctl.oldsaved = 0 :=
      List.sum_eq_zero_iff_forall_eq_nat.mp hsum _ (List.mem_map_of_mem hctl)
    have hnone : ctl.oldsaved.records.filter Record.saved = [] :=
      List.filter_eq_nil_iff.mpr (List.countP_eq_zero.mp hzero)
    rw [hostLines, hnone]
    rfl
  rw [savedLists, hscratch, List.flatten_nil, List.append_nil, List.flatten_eq_nil_iff]
  intro lines hlines
  obtain ⟨ctl, hctl, rfl⟩ := List.mem_map.mp hlines
  exact hhosts ctl hctl

end

/-- An account of the Lotus Notes case, with a blank in the user, and a UID that has an `@`. -/
def lotusNotes : Account where
  remotename := Bytes.lit "first last"
  queryname := Bytes.lit "mail.org"
  oldsaved := { Db.initUidDb with
    records := [⟨Bytes.lit "1", .seen⟩, ⟨Bytes.lit "2", .unseen⟩, ⟨Bytes.lit "3@x", .deleted⟩] }
  skipped := []
  newsaved := Db.initUidDb

end Fetchmail.Uid
