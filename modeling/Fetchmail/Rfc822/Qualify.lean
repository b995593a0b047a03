import Fetchmail.Rfc822.HackItems

/-!
# What `reply_hack` Makes of an Address List

`reply_hack` is to put `@host` behind each address of a header that has neither `@` nor `!`, and
to leave the rest as it is. It keeps count of quotes, comments and brackets for that, but it
clears what it knows about an address one character too late, and does not leave a bracketed
address in which it has seen a host part.
-/

namespace Fetchmail.Rfc822

open Fetchmail.Lib

/-! ## What is expected -/

def NxtReturn.qualified (host : Bytes) : NxtReturn → NxtReturn
  | .address a => .address (qualify host a)
  | .null => .null
  | .overread => .overread

/-- The second text is the first one with `@host` put in at some places. -/
inductive PutIn (host : Bytes) : Bytes → Bytes → Prop where
  | nil : PutIn host [] []
  | keep (b : UInt8) {s t : Bytes} (h : PutIn host s t) : PutIn host (b :: s) (b :: t)
  | put {s t : Bytes} (h : PutIn host s t) : PutIn host s (atSign :: host ++ t)

/-- A header of a kind that is rewritten. -/
def AddrList.IsReply (h : AddrList) : Prop :=
  ∃ kind ∈ replyHeaders, Bytes.equalsCI (h.name ++ [colon]) kind = true

/-- The addresses of the header as it is rewritten are those of the header, with `@host` behind
the local ones, and nothing else is changed. -/
def AddrList.Qualifies (h : AddrList) (bufsiz : Nat) (host : Bytes) : Prop :=
  ∃ r, replyHack h.bytes host = some r ∧ PutIn host h.bytes r.buf ∧
    ∀ st, nxtaddrs bufsiz r.buf h.items.length st =
      (nxtaddrs bufsiz h.bytes h.items.length st).map (NxtReturn.qualified host)

/-! ## Lists that are read right -/

/-- The items behind a comma are read right, one after the other. Where neither a host part nor a
name has been seen, a blank has to follow the comma. -/
def TameList : Behind → List Item → Prop
  | _, [] => True
  | st, i :: is => (st = .idle → i.lead ≠ []) ∧
      ∃ after, i.Tame (st.start i.lead) after ∧ TameList after is

/-- The flags are clear before the first item. -/
def AddrList.Tame (h : AddrList) : Prop :=
  ∃ after, h.first.Tame .clear after ∧ TameList after h.others

theorem AddrText.append {k k' : Bool} {a a' : Bytes} (h : AddrText k a) (h' : AddrText k' a') :
    AddrText (k || k') (a ++ a') := by
  induction h with
  | nil => exact h'
  | char hb _ ih => exact .char hb ih
  | quoted hq _ ih =>
    rw [List.cons_append, List.append_assoc]
    exact .quoted hq ih

/-- The characters of the name of a host. -/
def HostName (host : Bytes) : Prop := ∀ b ∈ host, atomChar b = true ∨ b = Bytes.dot

theorem HostName.text {host : Bytes} (h : HostName host) : AddrText true (atSign :: host) := by
  have hhost : ∃ k, AddrText k host := by
    induction host with
    | nil => exact ⟨false, .nil⟩
    | cons b host ih =>
      obtain ⟨k, hk⟩ := ih fun x hx => h x (List.mem_cons_of_mem b hx)
      exact ⟨true, .char ((h b (List.mem_cons_self ..)).imp_right .inl) hk⟩
  obtain ⟨k, hk⟩ := hhost
  exact .char (.inr (.inr rfl)) hk

theorem HostName.comma {host : Bytes} (h : HostName host) : comma ∉ host := by
  intro hmem
  exact absurd (h _ hmem) (by decide)

theorem qualify_text {host : Bytes} (hhost : HostName host) {k : Bool} {a : Bytes}
    (h : AddrText k a) : AddrText (if a = [] ∨ hasHost a then k else true) (qualify host a) := by
  unfold qualify
  split
  · exact h
  · have htext := h.append hhost.text
    rwa [Bool.or_true] at htext

/-! ## Runs over items -/

section

variable {host : Bytes} {capacity : Nat} {s bf : Bytes} {b : UInt8} {w : HackVars} {after : Behind}

/-- The blanks behind a comma. The first of them is passed over, and the flags are clear then. -/
theorem Resumes.enter {lead x : Bytes} (hres : Resumes host capacity (lead ++ x) bf after w)
    (hlead : Blanks lead) (hidle : after = .idle → lead ≠ []) (hlast : bf.getLast? = some comma) :
    ∃ v : HackVars, v.before = bf ++ lead ∧ v.parendepth = 0 ∧ (after.start lead).Holds v ∧
      hackLoop host capacity x v = some w := by
  obtain ⟨⟨bf', st, d, bare, hp, nws, pf, n⟩, hbefore, hd, hafter, hrun⟩ := hres
  obtain rfl : bf' = bf := hbefore
  obtain rfl : d = 0 := hd
  -- where addresses are looked for
  have hseek : st = .seekAddress → lead ≠ [] → ∃ v : HackVars, v.before = bf' ++ lead ∧
      v.parendepth = 0 ∧ Start.clear.Holds v ∧ hackLoop host capacity x v = some w := by
    rintro rfl hne
    obtain ⟨b, u, rfl⟩ := List.exists_cons_of_ne_nil hne
    have hb := hlead.isspace b List.mem_cons_self
    have hlast' : (bf' ++ [b]).getLast? ≠ some comma := by
      rw [List.getLast?_concat]
      exact fun heq => (isspace_ne hb).1 (Option.some.inj heq)
    obtain ⟨hend, hu⟩ : headerEnd (b :: (u ++ x)) = false ∧ Blanks u := by
      cases hlead with
      | blank _ hlf hu => exact ⟨headerEnd_of_ne hlf, hu⟩
      | fold hblank hu =>
        refine ⟨headerEnd_fold hblank, .blank (isspace_of_blank hblank) ?_ hu⟩
        rcases hblank with rfl | rfl <;> decide
    rw [List.cons_append, hackLoop, hackStep_blank_reset hb hend hlast, Option.bind_some,
      hu.hack _ hlast', if_neg fun hparen => Bool.false_ne_true hparen.2.2.1] at hrun
    refine ⟨_, (by simp), rfl, ⟨rfl, rfl, rfl, rfl, ?_⟩, hrun⟩
    exact getLast_ne_of_append hlast' fun x hx => (isspace_ne (hu.isspace x hx)).1
  by_cases hnil : lead = []
  · subst hnil
    rw [List.nil_append] at hrun
    rw [List.append_nil]
    cases after with
    | seen => exact ⟨_, rfl, rfl, ⟨hafter.1, hafter.2, hlast⟩, hrun⟩
    | idle => exact absurd rfl (hidle rfl)
    | brackets => exact ⟨_, rfl, rfl, ⟨hafter, .inr hlast⟩, hrun⟩
    | string =>
      refine ⟨_, rfl, rfl, ⟨hafter.1, hafter.2.1, hafter.2.2, ?_⟩, hrun⟩
      rw [hlast]
      decide
  · cases after with
    | seen =>
      rw [Behind.start, if_neg hnil]
      exact hseek hafter.1 hnil
    | idle =>
      rw [Behind.start, if_neg hnil]
      exact hseek hafter.1 hnil
    | brackets =>
      obtain rfl : st = .inBrackets := hafter
      have hchars : ∀ x ∈ lead, x ≠ lparen ∧ x ≠ rparen := fun x hx => (blank_seen hlead x hx).2
      have hangle : rangle ∉ lead := fun hmem =>
        (isspace_ne_parens (hlead.isspace _ hmem)).2.2.2 rfl
      have hstart : Start.brackets.Holds ⟨bf', .inBrackets, 0, bare, hp, nws, pf, n⟩ :=
        ⟨rfl, .inr hlast⟩
      obtain ⟨bare', hp', nws', pf', n', henter, hflag⟩ := @Start.enter_brackets host capacity _
        hstart rfl lead hnil (fun y hy => hchars y (List.mem_of_mem_head? hy)) hangle
      have hnone : hasHost lead = false := hasHost_of_forall fun x hx => by
        constructor <;> rintro rfl <;> exact absurd (hlead.isspace _ hx) (by decide)
      rw [henter, parenSum_zero hchars] at hrun
      exact ⟨_, rfl, rfl, ⟨rfl, .inl (hflag hnone)⟩, hrun⟩
    | string =>
      obtain ⟨hst, hhp, hpf⟩ := hafter
      dsimp only at hst hhp hpf
      subst hst hhp hpf
      obtain ⟨bare', hstring⟩ :=
        @hackLoop_string host capacity bf' bare nws n lead hlead.dquote
      rw [hstring] at hrun
      refine ⟨_, rfl, rfl, ⟨rfl, rfl, rfl, ?_⟩, hrun⟩
      rw [List.getLast?_append_of_ne_nil _ hnil]
      intro hmem
      exact absurd (hlead.isspace _ (List.mem_of_getLast? hmem)) (by decide)

theorem behindItem_ends (is : List Item) : ∃ b s, behindItem is = b :: s ∧ EndsEntry b s := by
  cases is with
  | nil => exact ⟨_, _, rfl, .inr ⟨rfl, rfl⟩⟩
  | cons i is => exact ⟨_, _, rfl, .inl rfl⟩

/-- The items behind one that has come to its end. -/
theorem hackLoop_items (hhost : comma ∉ host) (is : List Item) {out : Bytes}
    (htame : TameList after is)
    (hres : ∀ b s, behindItem is = b :: s → Resumes host capacity s (out ++ [b]) after w) :
    ∃ t, Written (Item.Hacked host) is t ∧ w.before = out ++ t := by
  -- from comma to comma; `out` is what lies behind
  induction is generalizing out after with
  | nil =>
    obtain ⟨v, hbefore, -, -, hrun⟩ := hres Bytes.lf [] rfl
    cases hrun
    exact ⟨_, .nil, hbefore⟩
  | cons i is ih =>
    obtain ⟨hidle, after', hi, hrest⟩ := htame
    obtain ⟨b, s, heq, hends⟩ := behindItem_ends is
    have hcomma := hres comma _ rfl
    rw [Item.bytes_append] at hcomma
    obtain ⟨v, hbefore, hd, hstart, hrun⟩ :=
      hcomma.enter i.leads hidle (List.getLast?_concat ..)
    rw [heq] at hrun
    obtain ⟨t, ht, hitem⟩ := hi.hack hstart hd hends hhost hrun
    rw [hbefore] at hitem
    obtain ⟨t', ht', hw⟩ := @ih after' (out ++ comma :: (i.lead ++ (t ++ i.trail))) hrest (by
      intro b' s' heq'
      obtain ⟨rfl, rfl⟩ := List.cons.inj (heq.symm.trans heq')
      simpa using hitem)
    refine ⟨_, .cons ht ht', ?_⟩
    rw [hw]
    simp

end

/-! ## The whole header -/

theorem mem_toLower {name kind : Bytes} (h : Bytes.equalsCI (name ++ [colon]) kind = true)
    {b : UInt8} (hb : b ∈ name) : Bytes.toLower b ∈ kind.map Bytes.toLower := by
  have heq : (name ++ [colon]).map Bytes.toLower = kind.map Bytes.toLower := by
    simpa [Bytes.equalsCI] using h
  rw [← heq]
  exact List.mem_map_of_mem (List.mem_append_left _ hb)

/-- The name of a header that is rewritten has nothing in it that the loop looks at. -/
theorem AddrList.IsReply.name {h : AddrList} (hkind : h.IsReply) :
    ∀ b ∈ h.name, b ≠ lparen ∧ b ≠ rparen ∧ b ≠ comma := by
  obtain ⟨kind, hmem, heq⟩ := hkind
  have hall : ∀ kind ∈ replyHeaders, ∀ d ∈ kind.map Bytes.toLower,
      d ≠ lparen ∧ d ≠ rparen ∧ d ≠ comma := by
    decide +kernel
  intro b hb
  have hlower := hall kind hmem _ (mem_toLower heq hb)
  refine ⟨?_, ?_, ?_⟩ <;> rintro rfl
  · exact hlower.1 rfl
  · exact hlower.2.1 rfl
  · exact hlower.2.2 rfl

theorem AddrList.IsReply.isReplyHeader {h : AddrList} (hkind : h.IsReply) :
    Rfc822.isReplyHeader h.bytes = true := by
  obtain ⟨kind, hmem, heq⟩ := hkind
  refine List.any_eq_true.mpr ⟨kind, hmem, ?_⟩
  have hlower : (h.name ++ [colon]).map Bytes.toLower = kind.map Bytes.toLower := by
    simpa [Bytes.equalsCI] using heq
  have hlen : (h.name ++ [colon]).length = kind.length := by
    simpa using congrArg List.length hlower
  have htext : h.bytes = (h.name ++ [colon]) ++ (h.first.bytes ++ behindItem h.others) := by
    simp [AddrList.bytes]
  rw [Bytes.startsWithCI, htext, ← hlen, List.take_left, decide_eq_true_eq]
  exact hlower

/-- Before the colon. -/
theorem hackLoop_name {host name : Bytes} {capacity : Nat}
    (hname : ∀ b ∈ name, b ≠ lparen ∧ b ≠ rparen ∧ b ≠ comma) (hcolon : ∀ b ∈ name, b ≠ colon)
    (s bf : Bytes) (hlast : bf.getLast? ≠ some comma) :
    hackLoop host capacity (name ++ colon :: s)
        ⟨bf, .beforeColon, 0, false, false, Bytes.nul, none, 0⟩ =
      hackLoop host capacity s
        ⟨bf ++ name ++ [colon], .seekAddress, 0, false, false, Bytes.nul, none, 0⟩ := by
  induction name generalizing bf with
  | nil =>
    have hchars : colon ≠ lparen ∧ colon ≠ rparen := by decide
    have hstep : hackStep host capacity colon s
        ⟨bf, .beforeColon, 0, false, false, Bytes.nul, none, 0⟩ =
        some ⟨bf ++ [colon], .seekAddress, 0, false, false, Bytes.nul, none, 0⟩ := by
      simp [hackStep, countParens, hackSwitch, passComma, hlast, hchars.1, hchars.2]
    rw [List.nil_append, hackLoop, hstep, Option.bind_some, List.append_nil]
  | cons b name ih =>
    obtain ⟨hl, hr, hcomma⟩ := hname b (List.mem_cons_self ..)
    have hne := hcolon b (List.mem_cons_self ..)
    have hstep : hackStep host capacity b (name ++ colon :: s)
        ⟨bf, .beforeColon, 0, false, false, Bytes.nul, none, 0⟩ =
        some ⟨bf ++ [b], .beforeColon, 0, false, false, Bytes.nul, none, 0⟩ := by
      simp [hackStep, countParens, hackSwitch, passComma, hlast, hl, hr, hne]
    rw [List.cons_append, hackLoop, hstep, Option.bind_some,
      ih (fun x hx => hname x (List.mem_cons_of_mem b hx))
        (fun x hx => hcolon x (List.mem_cons_of_mem b hx)) _
        (getLast_ne_of_append hlast (by simpa using hcomma))]
    simp

/-- What `reply_hack` makes of the header. -/
theorem AddrList.replyHack_eq {h : AddrList} {host : Bytes} (hhost : HostName host)
    (hkind : h.IsReply) (htame : h.Tame) :
    ∃ r t out, replyHack h.bytes host = some r ∧ h.first.Hacked host t ∧
      Written (Item.Hacked host) h.others out ∧
      r.buf = h.name ++ colon :: (h.first.lead ++ (t ++ (h.first.trail ++ out))) := by
  obtain ⟨v, hloop, -⟩ := hackLoop_inv (@roomy_header h.bytes host hhost.comma)
    (hackStart_inv h.bytes host)
  obtain ⟨after, hfirst, hothers⟩ := htame
  obtain ⟨b, s, heq, hends⟩ := behindItem_ends h.others
  have htext : h.bytes = h.name ++ colon :: (h.first.lead ++
      (h.first.render h.first.addr ++ (h.first.trail ++ behindItem h.others))) := by
    rw [AddrList.bytes, Item.bytes_append]
  have hcolon : (h.name ++ [colon]).getLast? ≠ some comma := by
    rw [List.getLast?_concat]
    decide
  have hlast : (h.name ++ [colon] ++ h.first.lead).getLast? ≠ some comma :=
    getLast_ne_of_append hcolon fun x hx => (blank_seen h.first.leads x hx).1
  have hstart : hackStart = ⟨[], .beforeColon, 0, false, false, Bytes.nul, none, 0⟩ := rfl
  have hr : replyHack h.bytes host = some ⟨v.before, some v.before.length, v.insertions⟩ := by
    rw [replyHack, if_pos hkind.isReplyHeader, hloop, Option.map_some]
  -- the size of the buffer does not matter any more
  generalize hackCapacity h.bytes host = capacity at hloop
  rw [htext, hstart, hackLoop_name hkind.name (fun b hb => (h.plain b hb).1) _ [] (by simp),
    List.nil_append, h.first.leads.hack _ hcolon,
    if_neg fun hparen => Bool.false_ne_true hparen.2.2.1, heq] at hloop
  have hclear : Start.clear.Holds ⟨h.name ++ [colon] ++ h.first.lead, .seekAddress, 0, false, false,
      Bytes.nul, none, 0⟩ := ⟨rfl, rfl, rfl, rfl, hlast⟩
  obtain ⟨t, ht, hitem⟩ := hfirst.hack hclear rfl hends hhost.comma hloop
  obtain ⟨out, hout, hbuf⟩ := @hackLoop_items host capacity v after hhost.comma h.others
    (h.name ++ colon :: (h.first.lead ++ (t ++ h.first.trail))) hothers (by
      intro b' s' heq'
      obtain ⟨rfl, rfl⟩ := List.cons.inj (heq.symm.trans heq')
      simpa using hitem)
  refine ⟨_, t, out, hr, ht, hout, ?_⟩
  dsimp only
  rw [hbuf]
  simp

/-! ## The text -/

theorem PutIn.refl {host : Bytes} (s : Bytes) : PutIn host s s := by
  induction s with
  | nil => exact .nil
  | cons b s ih => exact .keep b ih

theorem PutIn.append {host s t s' t' : Bytes} (h : PutIn host s t) (h' : PutIn host s' t') :
    PutIn host (s ++ s') (t ++ t') := by
  induction h with
  | nil => exact h'
  | keep b _ ih => exact .keep b ih
  | put _ ih =>
    rw [List.append_assoc]
    exact .put ih

theorem putIn_qualify (host a : Bytes) : PutIn host a (qualify host a) := by
  unfold qualify
  split
  · exact .refl a
  · have hput : PutIn host [] (atSign :: host) := by
      simpa using @PutIn.put host [] [] .nil
    simpa using (PutIn.refl a).append hput

theorem Form.Hacked.putIn {host a : Bytes} {form : Form} {out : Bytes}
    (h : form.Hacked host a out) : PutIn host (form.render a) out := by
  have ha := putIn_qualify host a
  cases h with
  | address =>
    cases form with
    | bare => exact ha
    | phrase first words =>
      exact .keep first ((PutIn.refl words).append (.keep _ (ha.append (.refl _))))
    | quotedPhrase q u =>
      exact .keep _ ((PutIn.refl q).append (.keep _ ((PutIn.refl u).append
        (.keep _ (ha.append (.refl _))))))
    | commentAfter u c => exact ha.append (.refl _)
    | commentBefore c u =>
      exact .keep _ ((PutIn.refl c).append (.keep _ ((PutIn.refl u).append ha)))
  | comment u c _ _ =>
    have hput : PutIn host [] (atSign :: host) := by
      simpa using @PutIn.put host [] [] .nil
    exact (PutIn.refl a).append ((PutIn.refl u).append (.keep _ ((PutIn.refl c).append
      (.keep _ hput))))

theorem Item.Hacked.putIn {host t : Bytes} {i : Item} (h : i.Hacked host t) :
    PutIn host (i.render i.addr) t := by
  cases i with
  | entry e => exact Form.Hacked.putIn h
  | angle x =>
    obtain rfl : t = langle :: (qualify host x.addr ++ [rangle]) := h
    exact .keep _ ((putIn_qualify host x.addr).append (.refl _))

theorem Written.putIn {host out : Bytes} {is : List Item}
    (h : Written (Item.Hacked host) is out) : PutIn host (behindItem is) out := by
  induction h with
  | nil => exact .refl _
  | @cons i is t out hi _ ih =>
    have htext : behindItem (i :: is) =
        comma :: (i.lead ++ (i.render i.addr ++ (i.trail ++ behindItem is))) := by
      simp [behindItem, Item.bytes]
    rw [htext]
    exact .keep _ ((PutIn.refl _).append (hi.putIn.append ((PutIn.refl _).append ih)))

/-! ## The addresses -/

section

variable {host : Bytes} {bufsiz : Nat}

theorem length_le_qualify (host a : Bytes) : a.length ≤ (qualify host a).length := by
  unfold qualify
  split
  · exact Nat.le_refl _
  · rw [List.length_append]
    exact Nat.le_add_right ..

theorem AddrText.passes_behind {k : Bool} {a : Bytes} (h : AddrText true a) (acc : Bytes) :
    Passes bufsiz (behind k) acc a .bareAddress (putAll bufsiz acc a) := by
  cases k with
  | false => exact h.passes_skipJunk acc
  | true => exact h.passes_bareAddress acc

/-- `nxtaddr` reads the qualified address from what is made of an address. -/
theorem Form.Hacked.readAs (hhost : HostName host) {form : Form} {a out : Bytes}
    (h : form.Hacked host a out) (hwell : form.WellFormed) {k : Bool} (htext : AddrText k a)
    (hne : a ≠ []) (hshort : (qualify host a).length + 1 < bufsiz) :
    ∃ k', ReadAs bufsiz out (qualify host a) k' ∧ (form.bracketed = true ∨ k = true → k' = true) := by
  have hqualified := qualify_text hhost htext
  have hne' : qualify host a ≠ [] := by
    rw [qualify_eq]
    exact List.append_ne_nil_of_left_ne_nil hne _
  cases h with
  | address =>
    obtain ⟨k', hreads, hk⟩ := @Form.readAs bufsiz _ hwell _ _ hqualified hne' hshort
    refine ⟨k', hreads, fun hend => hk (hend.imp_right fun hk => ?_)⟩
    rw [hk, ite_self]
  -- the comment is skipped, and the host is read as a part of the address
  | comment u c _ ha =>
    obtain ⟨hu, hc⟩ := hwell
    have hput : putAll bufsiz (putAll bufsiz [] a) (atSign :: host) = qualify host a := by
      rw [← putAll_append, ← qualify_local hne ha]
      exact putAll_fits (by rw [List.length_nil]; omega)
    have hpasses := (@AddrText.passes_skipJunk bufsiz _ _ htext []).append
      ((hu.passes (outside_behind k) _).append ((Passes.comment hc (outside_behind k) _).append
        (@AddrText.passes_behind bufsiz k _ hhost.text _)))
    have hbytes : a ++ (u ++ (lparen :: (c ++ [rparen]) ++ atSign :: host)) =
        a ++ (u ++ lparen :: (c ++ rparen :: (atSign :: host))) := by simp
    rw [hput, hbytes] at hpasses
    exact ⟨true, .bare hpasses hne' (trimEnd_addr hqualified hne'), fun _ => rfl⟩

theorem Item.Hacked.readAs (hhost : HostName host) {i : Item} {t : Bytes} (h : i.Hacked host t)
    (hshort : (qualify host i.addr).length + 1 < bufsiz) :
    ∃ k, ReadAs bufsiz t (qualify host i.addr) k ∧ (¬ i.OnlyQuoted → k = true) := by
  cases i with
  | entry e =>
    obtain ⟨k, hreads, hk⟩ :=
      Form.Hacked.readAs hhost h e.wellFormed e.text e.nonempty hshort
    exact ⟨k, hreads, fun hkept => hk (Entry.ended hkept)⟩
  | angle x =>
    obtain rfl : t = langle :: (qualify host x.addr ++ [rangle]) := h
    exact ⟨true, (qualify_text hhost x.text).readAs_angle hshort, fun _ => rfl⟩

end

/-- The local addresses of the header, and no others, are qualified if the list is one that
`reply_hack` reads right. -/
theorem replyHack_qualifies (h : AddrList) (bufsiz : Nat) (host : Bytes) (hhost : HostName host)
    (hkind : h.IsReply) (hkept : ∀ x ∈ h.items.dropLast, ¬ x.OnlyQuoted)
    (hshort : ∀ x ∈ h.items, (qualify host x.addr).length < bufsiz - 1) (htame : h.Tame) :
    h.Qualifies bufsiz host := by
  obtain ⟨r, t, out, hr, ht, hout, hbuf⟩ := h.replyHack_eq hhost hkind htame
  have htext : h.bytes = h.name ++ colon :: (h.first.lead ++
      (h.first.render h.first.addr ++ (h.first.trail ++ behindItem h.others))) := by
    rw [AddrList.bytes, Item.bytes_append]
  refine ⟨r, hr, ?_, fun st => ?_⟩
  · rw [hbuf, htext]
    exact (PutIn.refl _).append (.keep _ ((PutIn.refl _).append
      (ht.putIn.append ((PutIn.refl _).append hout.putIn))))
  · have hbefore := @AddrList.reads bufsiz h
      (fun x hx => Nat.lt_of_le_of_lt (length_le_qualify host x.addr) (hshort x hx)) hkept st
    have hread : ItemsRead bufsiz (Item.Hacked host) (fun i => qualify host i.addr) h.items := by
      intro i hi t ht
      have hlt := hshort i hi
      exact ht.readAs hhost (by omega)
    have hafter := hout.reads ht hread hkept h.plain st
    have hitems : h.first :: h.others = h.items := rfl
    rw [hitems, ← hbuf] at hafter
    rw [hafter, hbefore, addressesOf, List.map_append, List.map_map]
    rfl

/-! ## A list of several forms -/

theorem SeekAddr.word {h k k' : Bool} {x s : Bytes}
    (hx : ∀ b ∈ x, atomChar b = true ∧ b ≠ atSign ∧ b ≠ bang) (hne : x ≠ [])
    (hs : SeekAddr h true k' s) : SeekAddr h k k' (x ++ s) := by
  induction x generalizing k with
  | nil => exact absurd rfl hne
  | cons b x ih =>
    obtain ⟨⟨hb, hat, hbang⟩, hx⟩ := List.forall_mem_cons.mp hx
    by_cases hnil : x = []
    · rw [hnil]
      exact .char (addrChar (.inl hb)) hat hbang hs
    · exact .char (addrChar (.inl hb)) hat hbang (ih hx hnil)

theorem SeekAddr.local {k : Bool} {x : Bytes}
    (hx : ∀ b ∈ x, atomChar b = true ∧ b ≠ atSign ∧ b ≠ bang) (hne : x ≠ []) :
    SeekAddr false k true x := by
  have h := @SeekAddr.word false k true x [] hx hne .nil
  rwa [List.append_nil] at h

theorem InBrackets.plain {a : Bytes}
    (h : ∀ b ∈ a, b ≠ comma ∧ b ≠ lparen ∧ b ≠ rparen ∧ b ≠ rangle) : InBrackets a where
  chars := fun b hb => (h b hb).2
  seen := by
    rintro - x y rfl
    exact absurd rfl (h comma (List.mem_append_right _ List.mem_cons_self)).1

/-- An item with no blanks at its end. -/
def plainEntry {k : Bool} {a : Bytes} (lead : Bytes) (leads : Blanks lead) (form : Form)
    (wellFormed : form.WellFormed) (text : AddrText k a) (nonempty : a ≠ []) : Item :=
  .entry ⟨a, k, text, nonempty, form, wellFormed, lead, leads, [], .nil⟩

/-- One blank. -/
theorem Blanks.space : Blanks [Bytes.space] := .blank (by decide) (by decide) .nil

def wordJoe : Item :=
  plainEntry [Bytes.space] .space .bare trivial (@AddrText.of_forall 106 (Bytes.lit "oe") (by decide))
    (List.cons_ne_nil _ _)

/-- `b(c)` -/
def letterComment : Item :=
  plainEntry [Bytes.space] .space (.commentAfter [] [99])
    ⟨.nil, .char (by decide) (by decide) (by decide) (by decide) .nil⟩
    (@AddrText.of_forall 98 [] (by decide)) (List.cons_ne_nil _ _)

/-- `"Doe, J." <doe@x>` -/
def phraseDoe : Item :=
  plainEntry [Bytes.space] .space (.quotedPhrase (Bytes.lit "Doe, J.") [Bytes.space])
    ⟨.of_forall (by decide), .space⟩ (@AddrText.of_forall 100 (Bytes.lit "oe@x") (by decide))
    (List.cons_ne_nil _ _)

/-- `"Roe (R.)" <roe>`, with nothing between it and the comma. -/
def phraseRoe : Item :=
  plainEntry [] .nil (.quotedPhrase (Bytes.lit "Roe (R.)") [Bytes.space])
    ⟨.of_forall (by decide), .space⟩ (@AddrText.of_forall 114 (Bytes.lit "oe") (by decide))
    (List.cons_ne_nil _ _)

def addressAmy : Item :=
  plainEntry [Bytes.space] .space .bare trivial
    (@AddrText.of_forall 97 (Bytes.lit "my@x") (by decide)) (List.cons_ne_nil _ _)

theorem plain_to : ∀ b ∈ Bytes.lit "To", b ≠ colon ∧ b ≠ backslash ∧ b ≠ Bytes.lf := by
  decide

/-- `To: joe, b(c), "Doe, J." <doe@x>,"Roe (R.)" <roe>, amy@x` -/
def toMany : AddrList where
  name := Bytes.lit "To"
  plain := plain_to
  first := wordJoe
  others := [letterComment, phraseDoe, phraseRoe, addressAmy]

theorem replyHack_qualifies_many : toMany.Qualifies 8192 (Bytes.lit "example.org") := by
  have hdoe : afterAngle (Bytes.lit "doe@x") = .brackets := if_pos (.inl (by decide))
  have hroe : afterAngle (Bytes.lit "roe") = .seen := if_neg (by decide)
  have hamy : SeekAddr true false true (Bytes.lit "amy@x") :=
    @SeekAddr.word true false true (Bytes.lit "amy") (Bytes.lit "@x") (by decide) (by decide)
      (.host (.inl rfl) (by unfold Passing; decide))
  apply replyHack_qualifies toMany 8192 (Bytes.lit "example.org")
  · unfold HostName
    decide
  · exact ⟨Bytes.lit "To:", by decide, by decide⟩
  · have hkept : ∀ {k : Bool} {a lead : Bytes} {leads : Blanks lead} {form : Form}
        {wellFormed : form.WellFormed} {text : AddrText k a} {nonempty : a ≠ []}, k = true →
        ¬ (plainEntry lead leads form wellFormed text nonempty).OnlyQuoted := by
      rintro k a lead leads form wellFormed text nonempty rfl h
      exact Bool.noConfusion h.2
    refine List.forall_mem_cons.mpr ⟨hkept rfl, List.forall_mem_cons.mpr ⟨hkept rfl,
      List.forall_mem_cons.mpr ⟨hkept rfl, List.forall_mem_cons.mpr ⟨hkept rfl, ?_⟩⟩⟩⟩
    exact fun x hx => nomatch hx
  · exact by decide
  · refine ⟨.seen, .bare (.inl rfl) (.named (.local (by decide) (by decide)) (by decide)),
      fun h => Behind.noConfusion h, .seen,
      .commentAfter (k := true) (.inl rfl) (.local (by decide) (by decide)) (by decide),
      fun h => Behind.noConfusion h, .brackets, hdoe ▸ .quotedPhrase (.plain (by decide)),
      fun h => Behind.noConfusion h, .seen,
      hroe ▸ .openQuoted (by decide) rfl (.inr (by decide)) (.plain (by decide)),
      fun h => Behind.noConfusion h, .seen, .bare (.inl rfl) (.hosted hamy (by decide)), trivial⟩

example : (replyHack toMany.bytes (Bytes.lit "h")).map Hacked.buf = some (Bytes.lit
    "To: joe@h, b(c)@h, \"Doe, J.\" <doe@x>,\"Roe (R.)\" <roe@h>, amy@x\n") := by
  decide +kernel

/-! ## A letter behind a comma -/

def letterA : Item :=
  plainEntry [Bytes.space] .space .bare trivial (@AddrText.of_forall 97 [] (by decide))
    (List.cons_ne_nil _ _)

/-- `b`, with nothing between it and the comma. -/
def letterB : Item :=
  plainEntry [] .nil .bare trivial (@AddrText.of_forall 98 [] (by decide)) (List.cons_ne_nil _ _)

/-- A header of two addresses. -/
def replyTo (first second : Item) : AddrList where
  name := Bytes.lit "Reply-To"
  plain := by decide
  first := first
  others := [second]

/-- `Reply-To: a,b` becomes `Reply-To: a@h,b`. -/
theorem replyHack_skips_letter : ¬ (replyTo letterA letterB).Qualifies 8192 (Bytes.lit "h") := by
  rintro ⟨r, hr, -, hreads⟩
  have hbuf : (replyHack (replyTo letterA letterB).bytes (Bytes.lit "h")).map Hacked.buf =
      some (Bytes.lit "Reply-To: a@h,b\n") := by
    decide +kernel
  rw [hr, Option.map_some, Option.some_inj] at hbuf
  have h := hreads fresh
  rw [hbuf] at h
  exact absurd h (by decide +kernel)

end Fetchmail.Rfc822
