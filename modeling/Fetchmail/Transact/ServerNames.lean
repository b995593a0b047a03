import Fetchmail.Rfc822.Nxtaddr
import Fetchmail.Sink.Bounce
import Mathlib.Data.List.TakeWhile

/-!
# Recipients of Multidrop Mail

`find_server_names` of `transact.c` and the part of `readheaders` that makes up the list of
recipients. The addresses are those that `nxtaddr` yields from a header, and the DNS is an oracle
with a state of its own, `σ`, which also holds `ctl->errcount`.

The classification of an address is stated apart from the code, by its at sign, its host and the
configuration. It is connected to the code by `findServerName_names`, for one address, and by
`findServerNames_names`, for lists of them.
-/

namespace Fetchmail.Transact

open Fetchmail.Lib
open Fetchmail.Sink

/-! ## Settings -/

/-- `ctl->server.envelope` -/
inductive EnvelopeOption where
  | unset
  /-- `STRING_DISABLED` -/
  | disabled
  | header (name : Bytes)
  deriving DecidableEq, Repr

/-- What is read of `struct query`, and the functions that are called. -/
structure Multidrop (σ : Type) where
  /-- `ctl->localnames`: names, each with the local name it stands for, if not for itself -/
  localnames : List (Bytes × Option Bytes)
  wildcard : Bool
  localdomains : List Bytes
  qvirtual : Option Bytes
  envelope : EnvelopeOption
  sdps : Bool
  /-- `run.postmaster` -/
  postmaster : Bytes
  /-- the addresses that `nxtaddr` finds in a header -/
  nxtaddrs : Bytes → List Bytes
  isHostAlias : Bytes → σ → Bool × σ
  /-- `ctl->errcount` -/
  errcount : σ → Nat

/-- `msgblk.recipients`, `accept_count` and `reject_count`, and the state of the DNS. -/
structure Addressing (σ : Type) where
  recipients : List Recipient
  acceptCount : Nat
  rejectCount : Nat
  dns : σ

/-- `'@'` -/
def atSign : UInt8 := 64

section

variable {σ : Type} (c : Multidrop σ)

/-! ## Names -/

/-- `idpair_find` -/
def idpairFind : List (Bytes × Option Bytes) → Bytes → Option Bytes
  | [], _ => none
  | (id, id2) :: rest, name =>
    if Bytes.equalsCI name id then some (id2.getD id) else idpairFind rest name

/-- `save_str(xmit_names, name, XMIT_ACCEPT); accept_count++;` -/
def Addressing.accept (name : Bytes) (a : Addressing σ) : Addressing σ :=
  { a with recipients := a.recipients ++ [⟨name, .accept⟩], acceptCount := a.acceptCount + 1 }

/-- `save_str(xmit_names, name, XMIT_REJECT); reject_count++;` -/
def Addressing.reject (name : Bytes) (a : Addressing σ) : Addressing σ :=
  { a with recipients := a.recipients ++ [⟨name, .reject⟩], rejectCount := a.rejectCount + 1 }

/-- `map_address`; nothing if the address is not mapped. -/
def mapAddress (addr : Bytes) (a : Addressing σ) : Option (Addressing σ) :=
  (idpairFind c.localnames addr).map fun lname => a.accept lname

/-- `map_name` -/
def mapName (name : Bytes) (a : Addressing σ) : Addressing σ :=
  match idpairFind c.localnames name with
  | some lname => a.accept lname
  | none => if c.wildcard then a.accept name else a

/-- The prefix for `qvirtual` is skipped. -/
def skipQvirtual (addr : Bytes) : Bytes :=
  match c.qvirtual with
  | some qvirtual => if Bytes.startsWithCI addr qvirtual then addr.drop qvirtual.length else addr
  | none => addr

/-- The test on `rhs`, which lies as far from the end of `atsign` as `id` is long. -/
def matchesDomain (atsign id : Bytes) : Bool :=
  let rhs := atsign.length - id.length
  id.length < atsign.length &&
    ((Bytes.charAt atsign (rhs - 1) = Bytes.dot || Bytes.charAt atsign (rhs - 1) = atSign) &&
      Bytes.equalsCI (atsign.drop rhs) id)

/-- The body of the loop over addresses. -/
def findServerName (addr : Bytes) (a : Addressing σ) : Addressing σ :=
  if addr = [] then a
  else
    let cp := skipQvirtual c addr
    let atsign := cp.dropWhile (· ≠ atSign)
    if atsign = [] then a
    else
      match mapAddress c cp a with
      | some a => a
      | none =>
        if c.localdomains.any (matchesDomain atsign) then a.accept cp
        else
          let found := c.isHostAlias (atsign.drop 1) a.dns
          let a := { a with dns := found.2 }
          if found.1 then mapName c (cp.takeWhile (· ≠ atSign)) a else a.reject cp

/-- `find_server_names` -/
def findServerNames (hdr : Bytes) (a : Addressing σ) : Addressing σ :=
  (c.nxtaddrs hdr).foldl (fun a addr => findServerName c addr a) a

/-! ## The recipients of a message -/

/-- The headers, or parts of them, that may tell for whom a message is. -/
structure Envelope where
  sdpsEnvto : Option Bytes
  /-- the header that `env_offs` points to -/
  envelope : Option Bytes
  deliveredTo : Option Bytes
  receivedFor : Option Bytes
  /-- `resent_to_addrchain` -/
  resentTo : List Bytes
  /-- `to_addrchain` -/
  addressedTo : List Bytes

/-- `ctl->server.envelope` names the header `Delivered-To`. -/
def EnvelopeOption.isDeliveredTo : EnvelopeOption → Bool
  | .header name => Bytes.equalsCI name (Bytes.lit "Delivered-To")
  | _ => false

/-- The headers guessed from, where none is the envelope's. -/
def Envelope.guessed (e : Envelope) : List Bytes :=
  if e.resentTo = [] then e.addressedTo else e.resentTo

/-- The headers that `find_server_names` is called for. -/
def chosenHeaders (e : Envelope) : List Bytes :=
  match (if c.sdps then e.sdpsEnvto else none), e.envelope with
  | some envto, _ => [envto]
  | none, some hdr => [hdr]
  | none, none =>
    match (if c.envelope.isDeliveredTo then e.deliveredTo else none), e.receivedFor with
    | some hdr, _ => [hdr]
    | none, some hdr => [hdr]
    | none, none => e.guessed

/-- `MULTIDROP(ctl)` -/
def Multidrop.isMultidrop : Bool := c.wildcard || 2 ≤ c.localnames.length

/-- What `readheaders` comes to before it opens the sink. -/
structure Recipients (σ : Type) where
  addressing : Addressing σ
  noLocalMatches : Bool
  /-- `open_sink` is called, there being no DNS errors -/
  opensSink : Bool

/-- `readheaders`, where it makes up a list of local recipients. -/
def localRecipients (e : Envelope) (olderrs : Nat) (dns : σ) : Recipients σ :=
  let start : Addressing σ := ⟨[], 0, 0, dns⟩
  if c.isMultidrop then
    let a := (chosenHeaders c e).foldl (fun a hdr => findServerNames c hdr a) start
    let opensSink := decide (c.errcount a.dns ≤ olderrs)
    if a.acceptCount = 0 then
      ⟨{ a with recipients := a.recipients ++ [⟨c.postmaster, .accept⟩] }, true, opensSink⟩
    else ⟨a, false, opensSink⟩
  else
    ⟨{ start with recipients := (c.localnames.take 1).map fun name => ⟨name.1, .accept⟩ },
      false, decide (c.errcount dns ≤ olderrs)⟩

/-! ## Classification -/

/-- The host ends in a domain, which starts with a label of the host. -/
def EndsAtLabel (host domain : Bytes) : Prop :=
  ∃ front tail, host = front ++ tail ∧ Bytes.equalsCI tail domain = true ∧
    (front = [] ∨ front.getLast? = some Bytes.dot ∨ front.getLast? = some atSign)

open Classical in
/-- What becomes of an address, once the prefix for `qvirtual` is gone. `isAlias` tells the aliases
of the server. -/
noncomputable def classifyAddress (isAlias : Bytes → Bool) (addr : Bytes) : List Recipient :=
  if atSign ∉ addr then []
  else
    let host := (addr.dropWhile (· ≠ atSign)).drop 1
    let localPart := addr.takeWhile (· ≠ atSign)
    match idpairFind c.localnames addr with
    | some lname => [⟨lname, .accept⟩]
    | none =>
      if ∃ domain ∈ c.localdomains, EndsAtLabel host domain then [⟨addr, .accept⟩]
      else if !isAlias host then [⟨addr, .reject⟩]
      else
        match idpairFind c.localnames localPart with
        | some lname => [⟨lname, .accept⟩]
        | none => if c.wildcard then [⟨localPart, .accept⟩] else []

/-- The state of the DNS after an address has been looked at. -/
def dnsAfter (addr : Bytes) (dns : σ) : σ := (findServerName c addr ⟨[], 0, 0, dns⟩).dns

/-- Addresses, each classified by what the DNS answers when its turn comes. -/
noncomputable def classifyAddresses : List Bytes → σ → List Recipient
  | [], _ => []
  | addr :: addrs, dns =>
    classifyAddress c (fun host => (c.isHostAlias host dns).1) (skipQvirtual c addr) ++
      classifyAddresses addrs (dnsAfter c addr dns)

/-! ## One address -/

/-- The arithmetic on the length of the host finds the domains at a label boundary. -/
theorem matchesDomain_iff {host domain : Bytes} :
    matchesDomain (atSign :: host) domain = true ↔ EndsAtLabel host domain := by
  -- the byte in front of the tail, the at sign if the tail is the host
  have hbefore : ∀ front tail : Bytes,
      Bytes.charAt (atSign :: (front ++ tail)) front.length = front.getLast?.getD atSign := by
    intro front tail
    rw [Bytes.charAt, ← List.cons_append, List.getD_eq_getElem?_getD,
      List.getElem?_append_left (by simp)]
    cases front with
    | nil => rfl
    | cons b front => simp [List.getLast?_eq_getElem?]
  constructor
  · intro h
    simp only [matchesDomain, List.length_cons, Bool.and_eq_true, decide_eq_true_eq,
      Bool.or_eq_true] at h
    obtain ⟨hlen, hbound, htail⟩ := h
    obtain ⟨k, hk⟩ : ∃ k, host.length + 1 - domain.length = k + 1 :=
      ⟨host.length - domain.length, by omega⟩
    have hfront : (host.take k).length = k := by
      rw [List.length_take]
      omega
    rw [hk, List.drop_succ_cons] at htail
    refine ⟨host.take k, host.drop k, (List.take_append_drop k host).symm, htail, ?_⟩
    have hlast := hbefore (host.take k) (host.drop k)
    rw [List.take_append_drop, hfront] at hlast
    rw [hk, Nat.add_sub_cancel, hlast] at hbound
    cases hl : (host.take k).getLast? with
    | none => exact .inl (List.getLast?_eq_none_iff.mp hl)
    | some b =>
      rw [hl, Option.getD_some] at hbound
      exact .inr (hbound.imp (congrArg some) (congrArg some))
  · rintro ⟨front, tail, rfl, htail, hbound⟩
    have hlen : tail.length = domain.length := by
      have hmap := of_decide_eq_true htail
      simpa using congrArg List.length hmap
    have hrhs : (front ++ tail).length + 1 - domain.length = front.length + 1 := by
      rw [List.length_append, hlen]
      omega
    simp only [matchesDomain, List.length_cons, hrhs, Nat.add_sub_cancel, List.drop_succ_cons,
      List.drop_left, htail, hbefore, Bool.and_true, Bool.and_eq_true, decide_eq_true_eq,
      Bool.or_eq_true]
    constructor
    · rw [List.length_append, hlen]
      omega
    · obtain rfl | hdot | hat := hbound
      · exact .inr rfl
      · exact .inl (by rw [hdot]; rfl)
      · exact .inr (by rw [hat]; rfl)

/-- What the part from the at sign on looks like. -/
theorem dropWhile_atSign {addr : Bytes} (h : atSign ∈ addr) :
    addr.dropWhile (· ≠ atSign) = atSign :: (addr.dropWhile (· ≠ atSign)).drop 1 := by
  induction addr with
  | nil => simp at h
  | cons b addr ih =>
    by_cases hb : b = atSign
    · simp [hb]
    · have hmem : atSign ∈ addr := by simpa [Ne.symm hb] using h
      simpa [hb] using ih hmem

/-- What is counted agrees with what is marked. -/
def Addressing.Counted (a : Addressing σ) : Prop :=
  a.acceptCount = a.recipients.countP (·.mark = .accept) ∧
    a.rejectCount = a.recipients.countP (·.mark = .reject)

theorem Addressing.Counted.accept {a : Addressing σ} (h : a.Counted) (name : Bytes) :
    (a.accept name).Counted := by
  constructor
  · simp [Addressing.accept, h.1]
  · simp [Addressing.accept, h.2]

theorem Addressing.Counted.reject {a : Addressing σ} (h : a.Counted) (name : Bytes) :
    (a.reject name).Counted := by
  constructor
  · simp [Addressing.reject, h.1]
  · simp [Addressing.reject, h.2]

@[simp]
theorem mapName_dns (name : Bytes) (a : Addressing σ) : (mapName c name a).dns = a.dns := by
  unfold mapName
  split
  · rfl
  · split <;> rfl

/-- The DNS is asked the same, whatever has been collected. -/
theorem findServerName_dns (addr : Bytes) (a : Addressing σ) :
    (findServerName c addr a).dns = dnsAfter c addr a.dns := by
  unfold dnsAfter findServerName
  by_cases hempty : addr = []
  · simp only [if_pos hempty]
  by_cases hat : (skipQvirtual c addr).dropWhile (· ≠ atSign) = []
  · simp only [if_neg hempty, if_pos hat]
  simp only [if_neg hempty, if_neg hat, mapAddress]
  cases idpairFind c.localnames (skipQvirtual c addr) with
  | some lname => rfl
  | none =>
    simp only [Option.map_none]
    split
    · rfl
    · split
      · simp only [mapName_dns]
      · rfl

theorem Addressing.Counted.asked {a : Addressing σ} (h : a.Counted) (dns : σ) :
    ({ a with dns := dns } : Addressing σ).Counted := h

/-- What one address leaves behind. -/
structure Named (addr : Bytes) (a a' : Addressing σ) : Prop where
  recipients : a'.recipients =
    a.recipients ++
      classifyAddress c (fun host => (c.isHostAlias host a.dns).1) (skipQvirtual c addr)
  counted : a.Counted → a'.Counted
  dns : a'.dns = dnsAfter c addr a.dns

/-- **An address** adds its classification. -/
theorem findServerName_named (addr : Bytes) (a : Addressing σ) :
    Named c addr a (findServerName c addr a) := by
  suffices h : (findServerName c addr a).recipients = a.recipients ++
      classifyAddress c (fun host => (c.isHostAlias host a.dns).1) (skipQvirtual c addr) ∧
      (a.Counted → (findServerName c addr a).Counted) from
    ⟨h.1, h.2, findServerName_dns c addr a⟩
  have hskip : skipQvirtual c [] = [] := by
    unfold skipQvirtual
    split <;> simp
  have hnone : atSign ∉ skipQvirtual c addr →
      classifyAddress c (fun host => (c.isHostAlias host a.dns).1) (skipQvirtual c addr) = [] :=
    fun h => if_pos h
  unfold findServerName
  split
  · next hempty =>
    subst hempty
    rw [hnone (by simp [hskip]), List.append_nil]
    exact ⟨rfl, id⟩
  dsimp only
  split
  · next hat =>
    have hnot : atSign ∉ skipQvirtual c addr := by
      intro hmem
      rw [dropWhile_atSign hmem] at hat
      exact absurd hat (List.cons_ne_nil _ _)
    rw [hnone hnot, List.append_nil]
    exact ⟨rfl, id⟩
  next hat =>
  have hmem : atSign ∈ skipQvirtual c addr := by
    by_contra hnot
    apply hat
    have hall : ∀ b ∈ skipQvirtual c addr, decide (b ≠ atSign) = true :=
      fun b hb => decide_eq_true fun h => hnot (h ▸ hb)
    exact List.dropWhile_eq_nil_iff.mpr hall
  rw [classifyAddress, if_neg (not_not_intro hmem)]
  dsimp only
  have hhost := dropWhile_atSign hmem
  have hdomain : c.localdomains.any (matchesDomain ((skipQvirtual c addr).dropWhile (· ≠ atSign))) =
      true ↔ ∃ domain ∈ c.localdomains,
        EndsAtLabel (((skipQvirtual c addr).dropWhile (· ≠ atSign)).drop 1) domain := by
    rw [List.any_eq_true, hhost]
    simp only [matchesDomain_iff, List.drop_one, List.tail_cons]
  unfold mapAddress
  -- first the full address, then the domains, then the aliases of the server, then the name
  cases idpairFind c.localnames (skipQvirtual c addr) with
  | some lname => exact ⟨rfl, fun h => h.accept lname⟩
  | none =>
    dsimp only [Option.map_none]
    by_cases hlocal : ∃ domain ∈ c.localdomains,
        EndsAtLabel (((skipQvirtual c addr).dropWhile (· ≠ atSign)).drop 1) domain
    · rw [if_pos (hdomain.mpr hlocal), if_pos hlocal]
      exact ⟨rfl, fun h => h.accept _⟩
    · rw [if_neg fun h => hlocal (hdomain.mp h), if_neg hlocal]
      cases halias : (c.isHostAlias (((skipQvirtual c addr).dropWhile (· ≠ atSign)).drop 1)
          a.dns).1 with
      | false => exact ⟨rfl, fun h => (h.asked _).reject _⟩
      | true =>
        simp only [if_true, Bool.not_true, Bool.false_eq_true, if_false, mapName]
        cases idpairFind c.localnames ((skipQvirtual c addr).takeWhile (· ≠ atSign)) with
        | some lname => exact ⟨rfl, fun h => (h.asked _).accept _⟩
        | none =>
          dsimp only
          split
          · exact ⟨rfl, fun h => (h.asked _).accept _⟩
          · exact ⟨(List.append_nil _).symm, fun h => h⟩

/-! ## Lists of addresses -/

/-- **A list of addresses** adds their classifications, in order. -/
theorem findServerName_foldl (addrs : List Bytes) (a : Addressing σ) :
    (addrs.foldl (fun a addr => findServerName c addr a) a).recipients =
        a.recipients ++ classifyAddresses c addrs a.dns ∧
      (a.Counted → (addrs.foldl (fun a addr => findServerName c addr a) a).Counted) := by
  induction addrs generalizing a with
  | nil => exact ⟨(List.append_nil _).symm, id⟩
  | cons addr addrs ih =>
    have hnamed := findServerName_named c addr a
    obtain ⟨hrecipients, hcounted⟩ := ih (findServerName c addr a)
    rw [List.foldl_cons, hrecipients, hnamed.recipients, hnamed.dns, List.append_assoc]
    exact ⟨rfl, fun h => hcounted (hnamed.counted h)⟩

/-- The addresses of the headers that are looked at. -/
def addresses (e : Envelope) : List Bytes := (chosenHeaders c e).flatMap c.nxtaddrs

/-- **The recipients of a message.** The list is the concatenation of what the addresses give, and
what it accepts and rejects is counted. Where it accepts nothing, the postmaster is put at its end,
which is not counted. -/
theorem localRecipients_classified (e : Envelope) (olderrs : Nat) (dns : σ)
    (hmulti : c.isMultidrop = true) :
    let r := localRecipients c e olderrs dns
    let classified := classifyAddresses c (addresses c e) dns
    r.addressing.recipients =
        (if classified.countP (·.mark = .accept) = 0 then classified ++ [⟨c.postmaster, .accept⟩]
          else classified) ∧
      r.addressing.acceptCount = classified.countP (·.mark = .accept) ∧
      r.addressing.rejectCount = r.addressing.recipients.countP (·.mark = .reject) ∧
      (r.opensSink = true → ∃ recipient ∈ r.addressing.recipients, recipient.mark = .accept) := by
  have hflat : (chosenHeaders c e).foldl (fun a hdr => findServerNames c hdr a) ⟨[], 0, 0, dns⟩ =
      (addresses c e).foldl (fun a addr => findServerName c addr a) ⟨[], 0, 0, dns⟩ := by
    rw [addresses, List.foldl_flatMap]
    rfl
  obtain ⟨hrecipients, hcounted⟩ := findServerName_foldl c (addresses c e) ⟨[], 0, 0, dns⟩
  obtain ⟨haccept, hreject⟩ := hcounted ⟨rfl, rfl⟩
  rw [List.nil_append] at hrecipients
  rw [hrecipients] at haccept hreject
  have hmark : ¬(Xmit.accept = Xmit.reject) := by decide
  simp only [localRecipients, if_pos hmulti, hflat, haccept]
  -- no recipient is accepted: the postmaster is, who is not counted
  by_cases hnone : (classifyAddresses c (addresses c e) dns).countP (·.mark = .accept) = 0
  · simp only [if_pos hnone, hrecipients, hreject, List.countP_append,
      List.countP_singleton, true_and]
    exact ⟨by simp, fun _ => ⟨_, List.mem_append_right _ (List.mem_singleton_self _), rfl⟩⟩
  · simp only [if_neg hnone, hrecipients, haccept, hreject, true_and]
    intro _
    obtain ⟨recipient, hmem, hacc⟩ := List.countP_pos_iff.mp (Nat.pos_of_ne_zero hnone)
    exact ⟨recipient, hmem, of_decide_eq_true hacc⟩

end

/-- Names for two local users, and a header whose address has no at sign. -/
def twoUsers : Multidrop Unit where
  localnames := [(Bytes.lit "alice", none), (Bytes.lit "bob", none)]
  wildcard := false
  localdomains := []
  qvirtual := none
  envelope := .unset
  sdps := false
  postmaster := Bytes.lit "postmaster"
  nxtaddrs hdr := [hdr]
  isHostAlias _ dns := (false, dns)
  errcount _ := 0

/-- The loop over `nxtaddr`, up to the null pointer. -/
def nxtaddrLoop (hdr : Bytes) : List Bytes :=
  ((Rfc822.nxtaddrs 8192 hdr hdr.length Rfc822.fresh).takeWhile (· ≠ .null)).filterMap fun r =>
    match r with
    | .address addr => some addr
    | _ => none

/-- The same users of `mail.org`, whose name is an alias, with a domain of lists; the questions to
the DNS are counted. -/
def mailOrg : Multidrop Nat where
  localnames := twoUsers.localnames
  wildcard := false
  localdomains := [Bytes.lit "lists.org"]
  qvirtual := none
  envelope := .unset
  sdps := false
  postmaster := twoUsers.postmaster
  nxtaddrs := nxtaddrLoop
  isHostAlias host n := (host = Bytes.lit "mail.org", n + 1)
  errcount _ := 0

/-- A message to a local user, a foreign one, a list and an unknown user of the host. -/
def toFour : Envelope where
  sdpsEnvto := none
  envelope := none
  deliveredTo := none
  receivedFor := none
  resentTo := []
  addressedTo :=
    [Bytes.lit "To: alice@mail.org, Carol <carol@example.org>\n",
      Bytes.lit "Cc: dev@a.lists.org, eve@mail.org\n"]

/-- Two are accepted and one is rejected; the unknown user is neither. -/
theorem localRecipients_classified_four :
    (let r := localRecipients mailOrg toFour 0 0
    let classified := classifyAddresses mailOrg (addresses mailOrg toFour) 0
    r.addressing.recipients =
        (if classified.countP (·.mark = .accept) = 0 then
          classified ++ [⟨mailOrg.postmaster, .accept⟩]
          else classified) ∧
      r.addressing.acceptCount = classified.countP (·.mark = .accept) ∧
      r.addressing.rejectCount = r.addressing.recipients.countP (·.mark = .reject) ∧
      (r.opensSink = true → ∃ recipient ∈ r.addressing.recipients, recipient.mark = .accept)) ∧
    (localRecipients mailOrg toFour 0 0).addressing.recipients =
      [⟨Bytes.lit "alice", .accept⟩, ⟨Bytes.lit "carol@example.org", .reject⟩,
        ⟨Bytes.lit "dev@a.lists.org", .accept⟩] :=
  ⟨localRecipients_classified mailOrg toFour 0 0 rfl, by decide +kernel⟩

/-- A message for `root` goes to the postmaster, which neither is a classification of the address
nor is counted. -/
theorem postmaster_uncounted :
    let e : Envelope := ⟨none, some (Bytes.lit "root"), none, none, [], []⟩
    let r := localRecipients twoUsers e 0 ()
    r.opensSink = true ∧
      r.addressing.recipients ≠ classifyAddresses twoUsers (addresses twoUsers e) () ∧
      r.addressing.acceptCount ≠ r.addressing.recipients.countP (·.mark = .accept) := by
  have hnone : classifyAddresses twoUsers [Bytes.lit "root"] () = [] := by
    have hat : atSign ∉ skipQvirtual twoUsers (Bytes.lit "root") := by decide
    simp only [classifyAddresses, classifyAddress, if_pos hat, List.append_nil]
  refine ⟨rfl, ?_, by decide⟩
  have haddresses : addresses twoUsers ⟨none, some (Bytes.lit "root"), none, none, [], []⟩ =
      [Bytes.lit "root"] := rfl
  rw [haddresses, hnone]
  decide

end Fetchmail.Transact
