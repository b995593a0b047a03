import Fetchmail.Rfc822.Nxtaddr

/-!
# Address Lists

The lists that `reply_hack` is to qualify: what `nxtaddr` reads the addresses of, and besides it
addresses in brackets without a phrase, `<>` among them. `nxtaddr` yields the addresses of such a
list in order, if none of them is made of quoted strings only.
-/

namespace Fetchmail.Rfc822

open Fetchmail.Lib

/-- `<addr>`, where the address may be empty. -/
structure Angle where
  addr : Bytes
  unquoted : Bool
  text : AddrText unquoted addr
  lead : Bytes
  leads : Blanks lead
  trail : Bytes
  trails : Blanks trail

inductive Item where
  | entry (e : Entry)
  | angle (x : Angle)

namespace Item

def addr : Item → Bytes
  | .entry e => e.addr
  | .angle x => x.addr

def lead : Item → Bytes
  | .entry e => e.lead
  | .angle x => x.lead

def trail : Item → Bytes
  | .entry e => e.trail
  | .angle x => x.trail

/-- The item with another address in the place of its own. -/
def render (a : Bytes) : Item → Bytes
  | .entry e => e.form.render a
  | .angle _ => langle :: (a ++ [rangle])

def OnlyQuoted : Item → Prop
  | .entry e => e.OnlyQuoted
  | .angle _ => False

def bytes (i : Item) : Bytes := i.lead ++ (i.render i.addr ++ i.trail)

theorem leads (i : Item) : Blanks i.lead := by
  cases i with
  | entry e => exact e.leads
  | angle x => exact x.leads

theorem trails (i : Item) : Blanks i.trail := by
  cases i with
  | entry e => exact e.trails
  | angle x => exact x.trails

end Item

/-- What follows an item: a comma before each of the others, and the newline. -/
def behindItem : List Item → Bytes
  | [] => [Bytes.lf]
  | i :: is => comma :: (i.bytes ++ behindItem is)

theorem Item.bytes_append (i : Item) (s : Bytes) :
    i.bytes ++ s = i.lead ++ (i.render i.addr ++ (i.trail ++ s)) := by
  simp [Item.bytes]

/-- A header, on lines of its own. -/
structure AddrList where
  name : Bytes
  plain : ∀ b ∈ name, b ≠ colon ∧ b ≠ backslash ∧ b ≠ Bytes.lf
  first : Item
  others : List Item

namespace AddrList

def items (h : AddrList) : List Item := h.first :: h.others

def bytes (h : AddrList) : Bytes := h.name ++ colon :: (h.first.bytes ++ behindItem h.others)

end AddrList

/-- The items behind the first one as they are written, up to the newline. `R` says how an item may
be written. -/
inductive Written (R : Item → Bytes → Prop) : List Item → Bytes → Prop where
  | nil : Written R [] [Bytes.lf]
  | cons {i : Item} {is : List Item} {t out : Bytes} (hi : R i t) (h : Written R is out) :
      Written R (i :: is) (comma :: (i.lead ++ (t ++ (i.trail ++ out))))

theorem written_behindItem (is : List Item) :
    Written (fun i t => t = i.render i.addr) is (behindItem is) := by
  induction is with
  | nil => exact .nil
  | cons i is ih =>
    have htext : behindItem (i :: is) =
        comma :: (i.lead ++ (i.render i.addr ++ (i.trail ++ behindItem is))) := by
      simp [behindItem, Item.bytes]
    rw [htext]
    exact .cons rfl ih

section

variable {bufsiz : Nat}

/-! ## Reading an item -/

theorem headerEnd_lf : headerEnd [Bytes.lf] = true := rfl

/-- The text from which `nxtaddr` reads an address. A closing bracket returns the address; without
brackets a comma does, if something has been read outside of quotes. -/
inductive ReadAs (bufsiz : Nat) (text addr : Bytes) : (ended : Bool) → Prop where
  | bracketed {body : Bytes} (htext : text = body ++ [rangle])
      (h : Passes bufsiz .skipJunk [] body .insideBrackets addr) : ReadAs bufsiz text addr true
  | bare {k : Bool} (h : Passes bufsiz .skipJunk [] text (behind k) addr) (hne : addr ≠ [])
      (htrim : trimEnd addr = addr) : ReadAs bufsiz text addr k

section

variable {lead t trail addr : Bytes}

/-- The last item. -/
theorem ReadAs.last {k : Bool} (h : ReadAs bufsiz t addr k) (hlead : Blanks lead)
    (htrail : Blanks trail) (o : HdrState) (d : Int) :
    resultsFrom bufsiz 1 (lead ++ (t ++ (trail ++ [Bytes.lf]))) ⟨.skipJunk, o, [], d⟩ =
      [.address addr, .null] := by
  obtain ⟨o₁, d₁, heq₁⟩ := (@Blanks.passes bufsiz _ hlead _ .skipJunk []).results 1
    (t ++ (trail ++ [Bytes.lf])) o d
  rw [heq₁]
  cases h with
  -- the closing bracket returns the address, and the next call finds the end
  | @bracketed body htext hbody =>
    obtain ⟨o₂, d₂, heq₂⟩ := hbody.results 1 (rangle :: (trail ++ [Bytes.lf])) o₁ d₁
    obtain ⟨o₃, d₃, heq₃⟩ := (@Blanks.passes bufsiz _ htrail _ .skipJunk []).results 0 [Bytes.lf]
      o₂ 0
    have hnull := @results_null bufsiz [] headerEnd_lf .skipJunk (by decide) 0 o₃ d₃
    rw [resultsFrom, List.head?_cons, Option.some_inj] at hnull
    rw [htext, List.append_assoc, List.singleton_append, heq₂,
      results_address (nxtLoop_rangle _ _ _ _), heq₃, resultsFrom, hnull]
    rfl
  | @bare k hpasses hne htrim =>
    obtain ⟨o₂, d₂, heq₂⟩ := (hpasses.append (htrail.passes (outside_behind k) _)).results 1
      [Bytes.lf] o₁ d₁
    rw [← List.append_assoc, heq₂, results_end headerEnd_lf (outside_behind k).ne hne, htrim]

/-- An item with others behind it. -/
theorem ReadAs.next (h : ReadAs bufsiz t addr true) (hlead : Blanks lead) (htrail : Blanks trail)
    {calls : Nat} {rest : Bytes} {results : List NxtReturn}
    (hrest : ∀ o d, resultsFrom bufsiz calls rest ⟨.skipJunk, o, [], d⟩ = results)
    (o : HdrState) (d : Int) :
    resultsFrom bufsiz (calls + 1) (lead ++ (t ++ (trail ++ comma :: rest)))
      ⟨.skipJunk, o, [], d⟩ = .address addr :: results := by
  obtain ⟨o₁, d₁, heq₁⟩ := (@Blanks.passes bufsiz _ hlead _ .skipJunk []).results (calls + 1)
    (t ++ (trail ++ comma :: rest)) o d
  rw [heq₁]
  cases h with
  -- blanks and a comma are skipped by the next call
  | @bracketed body htext hbody =>
    obtain ⟨o₂, d₂, heq₂⟩ := hbody.results (calls + 1) (rangle :: (trail ++ comma :: rest)) o₁ d₁
    obtain ⟨o₃, d₃, heq₃⟩ := ((@Blanks.passes bufsiz _ htrail _ .skipJunk []).append
      (.skip_comma [])).results calls rest o₂ 0
    rw [htext, List.append_assoc, List.singleton_append, heq₂,
      results_address (nxtLoop_rangle _ _ _ _), List.append_cons, heq₃, hrest]
  -- the comma returns the address
  | bare hpasses hne htrim =>
    obtain ⟨o₂, d₂, heq₂⟩ := (hpasses.append (htrail.passes (outside_behind true) _)).results
      (calls + 1) (comma :: rest) o₁ d₁
    obtain ⟨o₃, d₃, heq₃⟩ := (@Passes.skip_comma bufsiz []).results calls rest o₂ 0
    have hret := @nxtLoop_comma bufsiz _ hne rest o₂ d₂
    rw [← List.append_assoc, heq₂, behind, results_address hret]
    rw [List.singleton_append] at heq₃
    rw [heq₃, hrest]

end

/-! ## Reading a list -/

def addressesOf (is : List Item) : List NxtReturn := is.map (fun i => .address i.addr) ++ [.null]

/-- How the items of a list are read. -/
def ItemsRead (bufsiz : Nat) (R : Item → Bytes → Prop) (addr : Item → Bytes) (is : List Item) :
    Prop :=
  ∀ i ∈ is, ∀ t, R i t → ∃ k, ReadAs bufsiz t (addr i) k ∧ (¬ i.OnlyQuoted → k = true)

/-- **The items.** Each call yields the address of the next one. -/
theorem Written.results {R : Item → Bytes → Prop} {addr : Item → Bytes} {is : List Item}
    {out : Bytes} (hw : Written R is out) {i : Item} {t : Bytes} (hi : R i t)
    (hread : ItemsRead bufsiz R addr (i :: is)) (hkept : ∀ x ∈ (i :: is).dropLast, ¬ x.OnlyQuoted)
    (o : HdrState) (d : Int) :
    resultsFrom bufsiz (i :: is).length (i.lead ++ (t ++ (i.trail ++ out))) ⟨.skipJunk, o, [], d⟩ =
      (i :: is).map (fun x => .address (addr x)) ++ [.null] := by
  induction hw generalizing i t o d with
  | nil =>
    obtain ⟨k, hreads, -⟩ := hread i List.mem_cons_self t hi
    exact hreads.last i.leads i.trails o d
  | @cons i' is t' out hi' _ ih =>
    obtain ⟨k, hreads, hend⟩ := hread i List.mem_cons_self t hi
    rw [List.dropLast_cons_of_ne_nil (List.cons_ne_nil _ _), List.forall_mem_cons] at hkept
    obtain rfl := hend hkept.1
    exact hreads.next i.leads i.trails
      (ih hi' (fun x hx => hread x (List.mem_cons_of_mem _ hx)) hkept.2) o d

/-- A whole header. -/
theorem Written.reads {R : Item → Bytes → Prop} {addr : Item → Bytes} {is : List Item} {out : Bytes}
    (hw : Written R is out) {i : Item} {t : Bytes} (hi : R i t)
    (hread : ItemsRead bufsiz R addr (i :: is)) (hkept : ∀ x ∈ (i :: is).dropLast, ¬ x.OnlyQuoted)
    {name : Bytes} (hname : ∀ b ∈ name, b ≠ colon ∧ b ≠ backslash ∧ b ≠ Bytes.lf)
    (st : AddrStatics) :
    nxtaddrs bufsiz (name ++ colon :: (i.lead ++ (t ++ (i.trail ++ out)))) (i :: is).length st =
      (i :: is).map (fun x => .address (addr x)) ++ [.null] := by
  obtain ⟨o, d, heq⟩ := (@Passes.name bufsiz name hname).results (i :: is).length
    (i.lead ++ (t ++ (i.trail ++ out))) st.vars.oldstate 0
  rw [nxtaddrs_eq, List.append_cons, heq]
  exact hw.results hi hread hkept o d

/-- An address and what stands around it. -/
theorem Form.readAs {form : Form} (hwell : form.WellFormed) {k : Bool} {a : Bytes}
    (htext : AddrText k a) (hne : a ≠ []) (hshort : a.length + 1 < bufsiz) :
    ∃ k', ReadAs bufsiz (form.render a) a k' ∧ (form.bracketed = true ∨ k = true → k' = true) := by
  have hput : putAll bufsiz [] a = a := putAll_fits (by rw [List.length_nil]; omega)
  cases hb : form.bracketed with
  | true =>
    obtain ⟨body, hbody, hpasses⟩ := @Form.passes_bracketed bufsiz _ hwell hb _ _ htext []
    rw [hput] at hpasses
    exact ⟨true, .bracketed hbody hpasses, fun _ => rfl⟩
  | false =>
    have hpasses := @Form.passes bufsiz _ hwell hb _ _ htext []
    rw [hput] at hpasses
    exact ⟨k, .bare hpasses hne (trimEnd_addr htext hne), fun hk =>
      hk.resolve_left Bool.false_ne_true⟩

/-- `<addr>` -/
theorem AddrText.readAs_angle {k : Bool} {a : Bytes} (htext : AddrText k a)
    (hshort : a.length + 1 < bufsiz) : ReadAs bufsiz (langle :: (a ++ [rangle])) a true := by
  have hput : putAll bufsiz [] a = a := putAll_fits (by rw [List.length_nil]; omega)
  have hpasses : Passes bufsiz .skipJunk [] (langle :: a) .insideBrackets (putAll bufsiz [] a) :=
    (Passes.langle .skipJunk []).cons (htext.passes_insideBrackets [])
  rw [hput] at hpasses
  exact .bracketed rfl hpasses

/-- An item is read up to a comma, if its address is not only a quoted string. -/
theorem Entry.ended {e : Entry} (hkept : ¬ e.OnlyQuoted) :
    e.form.bracketed = true ∨ e.unquoted = true := by
  cases hb : e.form.bracketed with
  | true => exact .inl rfl
  | false =>
    cases hk : e.unquoted with
    | true => exact .inr rfl
    | false => exact absurd ⟨hb, hk⟩ hkept

/-- The items of a list as they are. -/
theorem Item.readAs (i : Item) (hshort : i.addr.length + 1 < bufsiz) :
    ∃ k, ReadAs bufsiz (i.render i.addr) i.addr k ∧ (¬ i.OnlyQuoted → k = true) := by
  cases i with
  | angle x => exact ⟨true, x.text.readAs_angle hshort, fun _ => rfl⟩
  | entry e =>
    obtain ⟨k, hreads, hk⟩ := @Form.readAs bufsiz _ e.wellFormed _ _ e.text e.nonempty hshort
    exact ⟨k, hreads, fun hkept => hk (Entry.ended hkept)⟩

/-- The calls yield the addresses of the header. -/
theorem AddrList.reads {h : AddrList} (hshort : ∀ x ∈ h.items, x.addr.length < bufsiz - 1)
    (hkept : ∀ x ∈ h.items.dropLast, ¬ x.OnlyQuoted) (st : AddrStatics) :
    nxtaddrs bufsiz h.bytes h.items.length st = addressesOf h.items := by
  have hread : ItemsRead bufsiz (fun i t => t = i.render i.addr) Item.addr h.items := by
    rintro i hi t rfl
    have hlt := hshort i hi
    exact i.readAs (by omega)
  have htext : h.bytes = h.name ++ colon :: (h.first.lead ++ (h.first.render h.first.addr ++
      (h.first.trail ++ behindItem h.others))) := by
    simp [AddrList.bytes, Item.bytes]
  rw [htext]
  exact (written_behindItem h.others).reads rfl hread hkept h.plain st

end

end Fetchmail.Rfc822
