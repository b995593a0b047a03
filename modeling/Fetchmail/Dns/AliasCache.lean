import Fetchmail.Dns.Checkalias
import Mathlib.Data.List.Forall2

/-!
# The Cache of Host Aliases

Which names `is_host_alias` takes up into the list of aliases: those that some lookup
matched to the mail server, and those whose MX lookup failed with an error of the name
server. The second kind is a slip. The comment on the resolver calls says that nothing is to
be delivered while the name server is down; the failure is counted, but then the `switch` is
left towards the label `match`.
-/

namespace Fetchmail.Dns

open Fetchmail.Lib

/-! ## Matches -/

/-- Lookups in the trace found an address that the two names have in common. -/
def SharesAddress (tr : List Lookup) (name₁ name₂ : Bytes) : Prop :=
  ∃ canon₁ l₁ canon₂ l₂ x, .addr name₁ (.found canon₁ l₁) ∈ tr ∧
    .addr name₂ (.found canon₂ l₂) ∈ tr ∧ x ∈ l₁ ∧ x ∈ l₂

/-- Lookups in the trace matched the name to the mail server: by its canonical name, by an
address, or by an MX record. -/
def Matched (truename : Bytes) (tr : List Lookup) (name : Bytes) : Prop :=
  (∃ canon l, .addr name (.found canon l) ∈ tr ∧ Bytes.equalsCI truename canon = true) ∨
    SharesAddress tr truename name ∨
    ∃ names mxname, .mx name (.records names) ∈ tr ∧ mxname ∈ names ∧
      (Bytes.equalsCI truename mxname = true ∨ SharesAddress tr truename mxname)

theorem SharesAddress.mono {tr tr' : List Lookup} {name₁ name₂ : Bytes}
    (h : SharesAddress tr name₁ name₂) (hsub : ∀ e ∈ tr, e ∈ tr') :
    SharesAddress tr' name₁ name₂ := by
  obtain ⟨canon₁, l₁, canon₂, l₂, x, h₁, h₂, hx₁, hx₂⟩ := h
  exact ⟨canon₁, l₁, canon₂, l₂, x, hsub _ h₁, hsub _ h₂, hx₁, hx₂⟩

theorem Matched.mono {truename name : Bytes} {tr tr' : List Lookup}
    (h : Matched truename tr name) (hsub : ∀ e ∈ tr, e ∈ tr') : Matched truename tr' name := by
  rcases h with ⟨canon, l, hmem, hcanon⟩ | hshare | ⟨names, mxname, hmem, hmx, hname⟩
  · exact Or.inl ⟨canon, l, hsub _ hmem, hcanon⟩
  · exact Or.inr (Or.inl (hshare.mono hsub))
  · refine Or.inr (Or.inr ⟨names, mxname, hsub _ hmem, hmx, ?_⟩)
    exact hname.imp_right fun hshare => hshare.mono hsub

theorem exists_of_shareAddress {l₁ l₂ : List Address} (h : shareAddress l₁ l₂ = true) :
    ∃ x, x ∈ l₁ ∧ x ∈ l₂ := by
  simpa [shareAddress] using h

section

variable {ω : Type} {c : Ctl ω} {s : State ω} {name : Bytes}

/-! ## One call -/

/-- A lookup of addresses changes no list, and is no failed MX lookup. -/
def Quiet (s s' : State ω) (tr : List Lookup) : Prop :=
  s'.akalist = s.akalist ∧ ∀ n, .mx n .failure ∉ tr

theorem Quiet.append {s₁ s₂ : State ω} {tr₁ tr₂ : List Lookup} (h₁ : Quiet s s₁ tr₁)
    (h₂ : Quiet s₁ s₂ tr₂) : Quiet s s₂ (tr₁ ++ tr₂) := by
  refine ⟨h₂.1.trans h₁.1, fun n hn => ?_⟩
  rcases List.mem_append.mp hn with hn | hn
  · exact h₁.2 n hn
  · exact h₂.2 n hn

theorem lookupAddr_spec (name : Bytes) :
    (lookupAddr c name).wp
      (fun answer s' tr => Quiet s s' tr ∧ .addr name answer ∈ tr) s := by
  simp [lookupAddr, Quiet]

theorem isIpAlias_spec (name₁ name₂ : Bytes) :
    (isIpAlias c name₁ name₂).wp
      (fun shared s' tr => Quiet s s' tr ∧ (shared = true → SharesAddress tr name₁ name₂)) s := by
  unfold isIpAlias
  simp only [Act.wp_bind]
  refine Act.wp_mono (lookupAddr_spec name₁) fun answer₁ s₁ tr₁ hspec => ?_
  obtain ⟨hquiet₁, hmem₁⟩ := hspec
  cases answer₁ with
  | noName => simpa using hquiet₁
  | failure => simpa using hquiet₁
  | found canon₁ l₁ =>
    simp only [Act.wp_bind]
    refine Act.wp_mono (lookupAddr_spec name₂) fun answer₂ s₂ tr₂ hspec => ?_
    obtain ⟨hquiet₂, hmem₂⟩ := hspec
    have hquiet := hquiet₁.append hquiet₂
    cases answer₂ with
    | noName => simpa using hquiet
    | failure => simpa using hquiet
    | found canon₂ l₂ =>
      simp only [Act.wp_pure, List.append_nil]
      refine ⟨hquiet, fun hshared => ?_⟩
      obtain ⟨x, hx₁, hx₂⟩ := exists_of_shareAddress hshared
      exact ⟨canon₁, l₁, canon₂, l₂, x, List.mem_append.mpr (Or.inl hmem₁),
        List.mem_append.mpr (Or.inr hmem₂), hx₁, hx₂⟩

/-- The verdict on a name that no list has: `TRUE` comes with an entry in the list, for a
name that is matched or whose MX lookup failed; `FALSE` comes with neither. -/
structure Verdict (c : Ctl ω) (name : Bytes) (s : State ω) (found : Bool) (s' : State ω)
    (tr : List Lookup) : Prop where
  akalist : s'.akalist = s.akalist ++ if found then [name] else []
  reason : found = true → Matched c.truename tr name ∨ .mx name .failure ∈ tr
  failure : ∀ n, .mx n .failure ∈ tr → n = name ∧ found = true

/-- Lookups made before may be counted in. -/
theorem Verdict.prepend {s₁ s' : State ω} {found : Bool} {tr₁ tr₂ : List Lookup}
    (h : Verdict c name s₁ found s' tr₂) (hquiet : Quiet s s₁ tr₁) :
    Verdict c name s found s' (tr₁ ++ tr₂) where
  akalist := by rw [h.akalist, hquiet.1]
  reason := by
    intro hfound
    have hsub : ∀ e ∈ tr₂, e ∈ tr₁ ++ tr₂ := fun e he => List.mem_append.mpr (Or.inr he)
    exact (h.reason hfound).imp (fun hm => hm.mono hsub) (hsub _)
  failure := by
    intro n hn
    rcases List.mem_append.mp hn with hn | hn
    · exact absurd hn (hquiet.2 n)
    · exact h.failure n hn

/-- `FALSE`, after some lookups. -/
theorem verdict_false {s' : State ω} {tr : List Lookup} (h : Quiet s s' tr) :
    Verdict c name s false s' tr where
  akalist := by simp [h.1]
  reason := by simp
  failure := fun n hn => absurd hn (h.2 n)

/-- The name is added, with a match among the lookups. -/
theorem addAlias_spec {s₁ : State ω} {tr : List Lookup} (hquiet : Quiet s s₁ tr)
    (hmatch : Matched c.truename tr name) :
    (addAlias name).wp (fun found s' tr' => Verdict c name s found s' (tr ++ tr')) s₁ := by
  simp only [addAlias, Act.wp_bind, Act.wp_modify, Act.wp_pure, List.append_nil]
  refine ⟨by simp [hquiet.1], fun _ => Or.inl hmatch, fun n hn => ?_⟩
  exact absurd hn (hquiet.2 n)

/-- The name has an address, with the canonical name at hand. -/
theorem checkAddress_spec {s₁ : State ω} {tr : List Lookup} {canonname : Bytes}
    {l : List Address} (hquiet : Quiet s s₁ tr) (hmem : .addr name (.found canonname l) ∈ tr) :
    (checkAddress c name canonname).wp
      (fun found s' tr' => Verdict c name s found s' (tr ++ tr')) s₁ := by
  unfold checkAddress
  simp only [Act.wp_ite, Act.wp_bind, Act.wp_pure, List.append_nil]
  refine ⟨fun hcanon => ?_, fun _ => ⟨fun _ => ?_, fun _ => verdict_false hquiet⟩⟩
  · exact addAlias_spec hquiet (Or.inl ⟨canonname, l, hmem, hcanon⟩)
  refine Act.wp_mono (lookupAddr_spec c.truename) fun answer s₂ tr₂ hspec => ?_
  obtain ⟨hquiet₂, -⟩ := hspec
  have hquiet' := hquiet.append hquiet₂
  cases answer with
  | noName => simpa using verdict_false hquiet'
  | failure => simpa using verdict_false hquiet'
  | found canon l =>
    simp only [Act.wp_bind]
    refine Act.wp_mono (isIpAlias_spec _ _) fun shared s₃ tr₃ hspec => ?_
    obtain ⟨hquiet₃, hshare⟩ := hspec
    have hquiet'' := hquiet'.append hquiet₃
    cases shared with
    | false => simpa [List.append_assoc] using verdict_false hquiet''
    | true =>
      have hmatch : Matched c.truename (tr ++ tr₂ ++ tr₃) name := by
        refine Or.inr (Or.inl ((hshare rfl).mono fun e he => ?_))
        exact List.mem_append.mpr (Or.inr he)
      refine Act.wp_mono (addAlias_spec hquiet'' hmatch) fun found s₄ tr₄ h => ?_
      simpa [List.append_assoc] using h

/-- The MX records, by induction over those still to be looked at. -/
theorem checkMxRecords_spec {s₁ : State ω} {tr : List Lookup} {names rest : List Bytes}
    (hrest : ∀ mxname ∈ rest, mxname ∈ names) (hquiet : Quiet s s₁ tr)
    (hmem : .mx name (.records names) ∈ tr) :
    (checkMxRecords c name rest).wp
      (fun found s' tr' => Verdict c name s found s' (tr ++ tr')) s₁ := by
  induction rest generalizing s₁ tr with
  | nil => simpa [checkMxRecords] using verdict_false hquiet
  | cons mxname rest ih =>
    have hmx : mxname ∈ names := hrest mxname (by simp)
    unfold checkMxRecords
    simp only [Act.wp_ite, Act.wp_bind]
    refine ⟨fun hname => ?_, fun _ => ?_⟩
    · exact addAlias_spec hquiet (Or.inr (Or.inr ⟨names, mxname, hmem, hmx, Or.inl hname⟩))
    refine Act.wp_mono (isIpAlias_spec _ _) fun shared s₂ tr₂ hspec => ?_
    obtain ⟨hquiet₂, hshare⟩ := hspec
    have hquiet' := hquiet.append hquiet₂
    have hmem' : Lookup.mx name (.records names) ∈ tr ++ tr₂ :=
      List.mem_append.mpr (Or.inl hmem)
    cases shared with
    -- the exchanger shares an address with the server
    | true =>
      have hmatch : Matched c.truename (tr ++ tr₂) name := by
        refine Or.inr (Or.inr ⟨names, mxname, hmem', hmx, Or.inr ((hshare rfl).mono ?_)⟩)
        exact fun e he => List.mem_append.mpr (Or.inr he)
      refine ⟨fun _ => ?_, fun h => absurd rfl h⟩
      refine Act.wp_mono (addAlias_spec hquiet' hmatch) fun found s₃ tr₃ h => ?_
      simpa [List.append_assoc] using h
    -- the lookups are kept for the exchangers to come
    | false =>
      refine ⟨fun h => absurd h Bool.false_ne_true, fun _ => ?_⟩
      refine Act.wp_mono (ih (fun n hn => hrest n (by simp [hn])) hquiet' hmem')
        fun found s₃ tr₃ h => ?_
      simpa [List.append_assoc] using h

/-- The MX lookup, after an error was counted or not. -/
theorem checkMx_spec {s₁ : State ω} {tr : List Lookup} (hquiet : Quiet s s₁ tr) :
    (checkMx c name).wp (fun found s' tr' => Verdict c name s found s' (tr ++ tr')) s₁ := by
  unfold checkMx lookupMx
  simp only [Act.wp_bind, Act.wp_lift, Act.wp_emit, Act.wp_pure, List.nil_append,
    List.append_nil]
  generalize c.getmxrecords name s₁.world = r
  obtain ⟨answer, world⟩ := r
  cases answer with
  | notFound =>
    have hquiet' : Quiet s { s₁ with world := world } (tr ++ [.mx name .notFound]) := by
      refine hquiet.append ⟨rfl, by simp⟩
    simpa using verdict_false hquiet'
  | records names =>
    have hquiet' : Quiet s { s₁ with world := world } (tr ++ [.mx name (.records names)]) := by
      refine hquiet.append ⟨rfl, by simp⟩
    refine Act.wp_mono (checkMxRecords_spec (fun _ h => h) hquiet' (by simp))
      fun found s₂ tr₂ h => ?_
    simpa using h
  | failure =>
    -- the name is added all the same
    simp only [countError, addAlias, Act.wp_bind, Act.wp_modify, Act.wp_pure, List.append_nil]
    refine ⟨by simp [hquiet.1], fun _ => Or.inr (by simp), fun n hn => ?_⟩
    rcases List.mem_append.mp hn with hn | hn
    · exact absurd hn (hquiet.2 n)
    · exact ⟨by simpa using hn, rfl⟩

/-- What a call does: it knows the name, or looks it up. -/
theorem isHostAlias_spec (c : Ctl ω) (name : Bytes) (s : State ω) :
    (isHostAlias c name).wp
      (fun found s' tr => (knownAlias c s.akalist name = true ∧ found = true ∧ Quiet s s' tr) ∨
        Verdict c name s found s' tr) s := by
  have hstart : Quiet s s [] := ⟨rfl, by simp⟩
  unfold isHostAlias
  simp only [Act.wp_bind, Act.wp_gets, Act.wp_ite, Act.wp_pure, List.nil_append]
  refine ⟨fun hknown => Or.inl ⟨hknown, trivial, hstart⟩, fun _ => ⟨fun _ => ?_, fun _ => ?_⟩⟩
  · exact Or.inr (verdict_false hstart)
  refine Act.wp_mono (lookupAddr_spec name) fun answer s₁ tr₁ hspec => ?_
  obtain ⟨hquiet, hmem⟩ := hspec
  cases answer with
  | noName => exact Act.wp_mono (checkMx_spec hquiet) fun found s₂ tr₂ h => Or.inr h
  | found canonname l =>
    exact Act.wp_mono (checkAddress_spec hquiet hmem) fun found s₂ tr₂ h => Or.inr h
  | failure =>
    simp only [countError, Act.wp_bind, Act.wp_modify, List.nil_append]
    have hquiet' : Quiet s { s₁ with errcount := s₁.errcount + 1 } tr₁ := hquiet
    exact Act.wp_mono (checkMx_spec hquiet') fun found s₂ tr₂ h => Or.inr h

/-! ## Sequences of calls -/

/-- A name for which `is_host_alias` may say `TRUE`: the true name of the server, an alias
from the configuration, a matched name, or one that ends in a dot and an alias. -/
def Trusted (c : Ctl ω) (configured akalist : List Bytes) (tr : List Lookup) (name : Bytes) :
    Prop :=
  Bytes.equalsCI c.leadTruename name = true ∨
    (∃ x ∈ configured, Bytes.equalsCI name x = true) ∨
    (∃ x, Matched c.truename tr x ∧ Bytes.equalsCI name x = true) ∨
    ∃ x ∈ akalist, dottedSuffix name x = true

/-- **Soundness of the cache**, after calls for `names` with the results `found`: the list
has grown by matched names only, and `TRUE` was said of trusted names only. -/
structure CacheSound (c : Ctl ω) (configured : List Bytes) (names : List Bytes)
    (found : List Bool) (s' : State ω) (tr : List Lookup) : Prop where
  added : ∃ added, s'.akalist = configured ++ added ∧ ∀ x ∈ added, Matched c.truename tr x
  results : List.Forall₂ (fun name found => found = true →
    Trusted c configured s'.akalist tr name) names found

/-- Every name whose MX lookup failed is matched by another lookup. -/
def FailuresMatched (c : Ctl ω) (tr : List Lookup) : Prop :=
  ∀ name, .mx name .failure ∈ tr → Matched c.truename tr name

/-- What a run does to the list, whatever the resolver says: the names it adds are matched,
or their lookup failed, and all of the latter are among them. -/
structure Grown (c : Ctl ω) (s s' : State ω) (tr : List Lookup) (added : List Bytes) : Prop where
  akalist : s'.akalist = s.akalist ++ added
  reason : ∀ x ∈ added, Matched c.truename tr x ∨ .mx x .failure ∈ tr
  failure : ∀ x, .mx x .failure ∈ tr → x ∈ added

/-- One call as a run. -/
theorem grown_call (c : Ctl ω) (name : Bytes) (s : State ω) :
    (isHostAlias c name).wp
      (fun found s' tr => ∃ added, Grown c s s' tr added ∧
        (found = true → knownAlias c s'.akalist name = true)) s := by
  refine Act.wp_mono (isHostAlias_spec c name s) fun found s' tr h => ?_
  rcases h with ⟨hknown, -, hquiet⟩ | h
  · refine ⟨[], ⟨by simp [hquiet.1], by simp, fun x hx => absurd hx (hquiet.2 x)⟩, fun _ => ?_⟩
    rw [hquiet.1]
    exact hknown
  · refine ⟨if found then [name] else [], ⟨h.akalist, ?_, ?_⟩, fun hfound => ?_⟩
    · intro x hx
      cases found with
      | false => simp at hx
      | true =>
        obtain rfl : x = name := by simpa using hx
        exact h.reason rfl
    · intro x hx
      obtain ⟨rfl, hfound⟩ := h.failure x hx
      simp [hfound]
    · -- the name is in the list now
      have hself : Bytes.equalsCI name name = true := by simp [Bytes.equalsCI]
      subst hfound
      simp [knownAlias, h.akalist, hself]

/-- Two runs in succession. -/
theorem Grown.append {s₁ s₂ : State ω} {tr₁ tr₂ : List Lookup} {added₁ added₂ : List Bytes}
    (h₁ : Grown c s s₁ tr₁ added₁) (h₂ : Grown c s₁ s₂ tr₂ added₂) :
    Grown c s s₂ (tr₁ ++ tr₂) (added₁ ++ added₂) where
  akalist := by rw [h₂.akalist, h₁.akalist, List.append_assoc]
  reason := by
    intro x hx
    rcases List.mem_append.mp hx with hx | hx
    · exact (h₁.reason x hx).imp (fun h => h.mono fun e he => List.mem_append.mpr (Or.inl he))
        fun h => List.mem_append.mpr (Or.inl h)
    · exact (h₂.reason x hx).imp (fun h => h.mono fun e he => List.mem_append.mpr (Or.inr he))
        fun h => List.mem_append.mpr (Or.inr h)
  failure := by
    intro x hx
    rcases List.mem_append.mp hx with hx | hx
    · exact List.mem_append.mpr (Or.inl (h₁.failure x hx))
    · exact List.mem_append.mpr (Or.inr (h₂.failure x hx))

/-- A known alias stays one. -/
theorem knownAlias_mono {akalist added : List Bytes} (h : knownAlias c akalist name = true) :
    knownAlias c (akalist ++ added) name = true := by
  simp only [knownAlias, Bool.or_eq_true, List.any_append] at h ⊢
  rcases h with (h | h) | h
  · exact Or.inl (Or.inl h)
  · exact Or.inl (Or.inr (Or.inl h))
  · exact Or.inr (Or.inl h)

/-- A run, by induction over the calls. -/
theorem grown_run (c : Ctl ω) (names : List Bytes) (s : State ω) :
    (isHostAliases c names).wp
      (fun found s' tr => ∃ added, Grown c s s' tr added ∧
        List.Forall₂ (fun name found => found = true → knownAlias c s'.akalist name = true)
          names found) s := by
  induction names generalizing s with
  | nil => exact ⟨[], ⟨by simp [isHostAliases], by simp, by simp [isHostAliases]⟩, .nil⟩
  | cons name names ih =>
    unfold isHostAliases
    simp only [Act.wp_bind]
    refine Act.wp_mono (grown_call c name s) fun found s₁ tr₁ hspec => ?_
    obtain ⟨added₁, h₁, hfound⟩ := hspec
    refine Act.wp_mono (ih s₁) fun rest s₂ tr₂ hspec => ?_
    obtain ⟨added₂, h₂, hrest⟩ := hspec
    simp only [Act.wp_pure, List.append_nil]
    refine ⟨added₁ ++ added₂, h₁.append h₂, .cons (fun h => ?_) hrest⟩
    rw [h₂.akalist]
    exact knownAlias_mono (hfound h)

/-- **The cache is sound exactly if every failed MX lookup was for a name that another lookup
matched.** -/
theorem cacheSound_iff (c : Ctl ω) (names : List Bytes) (s : State ω) :
    (isHostAliases c names).wp (fun found s' tr =>
      CacheSound c s.akalist names found s' tr ↔ FailuresMatched c tr) s := by
  refine Act.wp_mono (grown_run c names s) fun found s' tr hspec => ?_
  obtain ⟨added, hgrown, hknown⟩ := hspec
  constructor
  · rintro ⟨⟨added', hadded', hmatched⟩, -⟩ x hx
    obtain rfl : added' = added := List.append_cancel_left (hadded'.symm.trans hgrown.akalist)
    exact hmatched x (hgrown.failure x hx)
  · intro hfailures
    have hmatched : ∀ x ∈ added, Matched c.truename tr x := fun x hx =>
      (hgrown.reason x hx).elim id (hfailures x)
    refine ⟨⟨added, hgrown.akalist, hmatched⟩, List.Forall₂.imp ?_ hknown⟩
    intro name found h hfound
    -- why the name was known
    have hname := h hfound
    simp only [knownAlias, Bool.or_eq_true, List.any_eq_true] at hname
    rcases hname with (hlead | ⟨x, hx, heq⟩) | ⟨x, hx, hsuffix⟩
    · exact Or.inl hlead
    · rw [hgrown.akalist] at hx
      rcases List.mem_append.mp hx with hx | hx
      · exact Or.inr (Or.inl ⟨x, hx, heq⟩)
      · exact Or.inr (Or.inr (Or.inl ⟨x, hmatched x hx, heq⟩))
    · exact Or.inr (Or.inr (Or.inr ⟨x, hx, hsuffix⟩))

end

/-! ## A name server outage -/

/-- A server called `mail`, and a resolver that has gone down. -/
def outageCtl : Ctl Unit where
  leadTruename := Bytes.lit "mail"
  truename := Bytes.lit "mail"
  dns := true
  checkalias := false
  getaddrinfo := fun _ _ => (.failure, ())
  getmxrecords := fun _ _ => (.failure, ())

/-- A stranger's host is taken up into the list, with no match at all. -/
theorem outage_not_cacheSound :
    (isHostAliases outageCtl [Bytes.lit "example"]).wp (fun found s' tr =>
      outageCtl.dns = true ∧ ¬ CacheSound outageCtl [] [Bytes.lit "example"] found s' tr)
      ⟨[], 0, ()⟩ := by
  refine ⟨rfl, ?_⟩
  rintro ⟨⟨added, hadded, hmatched⟩, -⟩
  have hname : Bytes.lit "example" ∈ added := by
    have hlist : [Bytes.lit "example"] = [] ++ added := hadded
    rw [List.nil_append] at hlist
    simp [← hlist]
  -- both lookups of the run failed
  have htrace : ((isHostAliases outageCtl [Bytes.lit "example"]).run ⟨[], 0, ()⟩).trace =
      [.addr (Bytes.lit "example") .failure, .mx (Bytes.lit "example") .failure] := by decide
  have hmatch := hmatched _ hname
  rw [htrace] at hmatch
  rcases hmatch with ⟨canon, l, hmem, -⟩ | ⟨canon₁, l₁, -, -, -, hmem, -⟩ | ⟨names, -, hmem, -⟩
  · simp at hmem
  · simp at hmem
  · simp at hmem

end Fetchmail.Dns
