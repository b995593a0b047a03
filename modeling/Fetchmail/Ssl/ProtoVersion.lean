import Fetchmail.Lib.Bytes

/-!
# Protocol Versions

The two versions of `OSSL_proto_version_logic` of `socket.c`: the one for OpenSSL 1.0.x and
LibreSSL chooses a method or forbids versions by options, the one for OpenSSL 1.1.0 sets bounds.
Both go through the same comparisons of the name that is asked for.

What the headers say and what the library speaks are different things. Whether SSL 3 is to be had
is asked of the preprocessor, in two ways: an `OPENSSL_NO_SSL3` that is defined as nothing passes
for one that is not defined.
-/

namespace Fetchmail.Ssl

open Fetchmail.Lib

inductive Version where
  | ssl2
  | ssl3
  | tls1
  | tls11
  | tls12
  | tls13
  deriving DecidableEq, Repr

/-- The value of `SSL3_VERSION` and so on, up to order. -/
def Version.rank : Version → Nat
  | .ssl2 => 0
  | .ssl3 => 1
  | .tls1 => 2
  | .tls11 => 3
  | .tls12 => 4
  | .tls13 => 5

/-- What the headers of the library say. -/
structure Headers where
  /-- `HAVE_DECL_SSLV3_CLIENT_METHOD > 0` -/
  sslv3ClientMethod : Bool
  /-- `OPENSSL_NO_SSL3 + 0` is not zero -/
  noSsl3 : Bool
  /-- `defined(TLS1_1_VERSION)` -/
  tls11 : Bool
  /-- `defined(TLS1_2_VERSION)` -/
  tls12 : Bool
  /-- `defined(TLS1_3_VERSION)` -/
  tls13 : Bool

/-- The number of the version is asked for before it is used, or it is always there. -/
def Headers.defines (d : Headers) : Version → Bool
  | .tls11 => d.tls11
  | .tls12 => d.tls12
  | .tls13 => d.tls13
  | _ => true

/-! ## The name -/

/-- The branches of the comparisons. -/
inductive Asked where
  | only (v : Version)
  | from (v : Version)
  | auto
  | invalid
  deriving DecidableEq, Repr

/-- The names that are compared with, in order. -/
def names : List (Bytes × Asked) :=
  [(Bytes.lit "ssl3", .only .ssl3), (Bytes.lit "ssl3+", .from .ssl3),
   (Bytes.lit "tls1", .only .tls1), (Bytes.lit "tls1+", .from .tls1),
   (Bytes.lit "tls1.1", .only .tls11), (Bytes.lit "tls1.1+", .from .tls11),
   (Bytes.lit "tls1.2", .only .tls12), (Bytes.lit "tls1.2+", .from .tls12),
   (Bytes.lit "tls1.3", .only .tls13), (Bytes.lit "tls1.3+", .from .tls13),
   (Bytes.lit "ssl23", .auto), (Bytes.lit "auto", .auto)]

/-- The comparisons with `*myproto`, which is `"auto"` if there is none. -/
def asked (myproto : Option Bytes) : Asked :=
  let myproto := myproto.getD (Bytes.lit "auto")
  ((names.find? fun name => Bytes.equalsCI name.1 myproto).map (·.2)).getD .invalid

/-! ## The two functions -/

/-- What the context is made with: the bounds of the method, and the versions that are avoided. -/
structure Context where
  lo : Version
  hi : Version
  avoid : List Version
  deriving DecidableEq, Repr

/-- `-1`, a context, or `abort`. -/
inductive Chosen where
  | unsupported
  | context (c : Context)
  | abort
  deriving DecidableEq, Repr

/-- `avoid_ssl_versions` at the start -/
def avoidSslVersions : List Version := [.ssl2, .ssl3]

/-- `SSLv23_client_method()` -/
def sslv23 (avoid : List Version) : Chosen := .context ⟨.ssl2, .tls13, avoid⟩

/-- The branches for OpenSSL 1.0.x, with the context that `SSLOpen` makes if no method was
chosen. -/
def branch10x (d : Headers) : Asked → Chosen
  | .only .ssl3 =>
    if d.sslv3ClientMethod && !d.noSsl3 then .context ⟨.ssl3, .ssl3, [.ssl2]⟩ else .unsupported
  | .from .ssl3 => sslv23 [.ssl2]
  | .only .tls1 => .context ⟨.tls1, .tls1, avoidSslVersions⟩
  | .from .tls1 => sslv23 avoidSslVersions
  | .only .tls11 =>
    if d.tls11 then .context ⟨.tls11, .tls11, avoidSslVersions⟩ else .unsupported
  | .from .tls11 => if d.tls11 then sslv23 (avoidSslVersions ++ [.tls1]) else .unsupported
  | .only .tls12 =>
    if d.tls12 then .context ⟨.tls12, .tls12, avoidSslVersions⟩ else .unsupported
  | .from .tls12 =>
    if d.tls12 then sslv23 (avoidSslVersions ++ [.tls1, .tls11]) else .unsupported
  | .only .tls13 =>
    if d.tls13 then .context ⟨.tls13, .tls13, avoidSslVersions⟩ else .unsupported
  | .from .tls13 =>
    if d.tls13 then sslv23 (avoidSslVersions ++ [.tls1, .tls11, .tls12]) else .unsupported
  | .auto => sslv23 avoidSslVersions
  | _ => sslv23 avoidSslVersions

/-- `SSL_CTX_set_min_proto_version`: a version is taken as a bound also where the library was built
without it. -/
def Context.setMin (v : Version) (c : Context) : Context := { c with lo := v }

/-- `SSL_CTX_set_max_proto_version` -/
def Context.setMax (v : Version) (c : Context) : Context := { c with hi := v }

/-- `TLS_client_method()`, from `TLS1_VERSION` on -/
def tlsMethod (avoid : List Version) : Context := ⟨.tls1, .tls13, avoid⟩

/-- The branches for OpenSSL 1.1.0. -/
def branch110 (d : Headers) : Asked → Chosen
  | .only .ssl3 =>
    if d.noSsl3 then .unsupported
    else .context (((tlsMethod [.ssl2]).setMin .ssl3).setMax .ssl3)
  | .from .ssl3 => .context ((tlsMethod [.ssl2]).setMin .ssl3)
  | .only .tls1 => .context ((tlsMethod avoidSslVersions).setMax .tls1)
  | .from .tls1 => .context (tlsMethod avoidSslVersions)
  | .only .tls11 =>
    if d.tls11 then .context (((tlsMethod avoidSslVersions).setMin .tls11).setMax .tls11)
    else .unsupported
  | .from .tls11 =>
    if d.tls11 then .context ((tlsMethod avoidSslVersions).setMin .tls11) else .unsupported
  | .only .tls12 =>
    if d.tls12 then .context (((tlsMethod avoidSslVersions).setMin .tls12).setMax .tls12)
    else .unsupported
  | .from .tls12 =>
    if d.tls12 then .context ((tlsMethod avoidSslVersions).setMin .tls12) else .unsupported
  | .only .tls13 =>
    if d.tls13 then .context (((tlsMethod avoidSslVersions).setMin .tls13).setMax .tls13)
    else .unsupported
  | .from .tls13 =>
    if d.tls13 then .context ((tlsMethod avoidSslVersions).setMin .tls13) else .unsupported
  | .auto => .context (tlsMethod avoidSslVersions)
  | _ => .abort

/-- `OSSL10X_proto_version_logic` -/
def ossl10xProtoVersionLogic (d : Headers) (myproto : Option Bytes) : Chosen :=
  branch10x d (asked myproto)

/-- `OSSL110_proto_version_logic` -/
def ossl110ProtoVersionLogic (d : Headers) (myproto : Option Bytes) : Chosen :=
  branch110 d (asked myproto)

/-! ## The versions that can be spoken -/

/-- The version is within the bounds, and is not avoided. -/
def Chosen.admits (v : Version) : Chosen → Bool
  | .context c => c.lo.rank ≤ v.rank && v.rank ≤ c.hi.rank && v ∉ c.avoid
  | _ => false

/-- The version can come out of a handshake with a library that speaks `speaks`. -/
def Chosen.allows (speaks : Version → Bool) (v : Version) (x : Chosen) : Bool :=
  speaks v && x.admits v

/-- What the name stands for: one version, the versions from one on, or TLS, where the headers know
the version that is named. -/
def Asked.covers (d : Headers) (v : Version) : Asked → Bool
  | .only v' => d.defines v' && v = v'
  | .from v' => d.defines v' && v'.rank ≤ v.rank
  | .auto => Version.tls1.rank ≤ v.rank
  | .invalid => false

/-- Nothing tells the two outcomes apart. -/
structure Chosen.Alike (speaks : Version → Bool) (x y : Chosen) : Prop where
  allows : ∀ v, x.allows speaks v = y.allows speaks v
  unsupported : x = .unsupported ↔ y = .unsupported
  abort : x = .abort ↔ y = .abort

theorem asked_mem (myproto : Option Bytes) :
    asked myproto = .invalid ∨
      ∃ name ∈ names, asked myproto = name.2 ∧
        Bytes.equalsCI name.1 (myproto.getD (Bytes.lit "auto")) = true := by
  cases hfind : names.find? fun name =>
      Bytes.equalsCI name.1 (myproto.getD (Bytes.lit "auto")) with
  | none => exact Or.inl (by simp [asked, hfind])
  | some name =>
    have hname := List.find?_some hfind
    exact Or.inr ⟨name, List.mem_of_find?_eq_some hfind, by simp [asked, hfind], hname⟩

/-- The branches, one by one, but for the one that asks the preprocessor for SSL 3. -/
theorem branches_agree (v : Version) (m n : Bool) : ∀ name ∈ names, name.2 ≠ .only .ssl3 →
    ∀ t1 t2 t3 : Bool, let d : Headers := ⟨m, n, t1, t2, t3⟩
    (branch110 d name.2).admits v = name.2.covers d v ∧
      (branch10x d name.2).admits v = name.2.covers d v ∧
      branch110 d name.2 ≠ .abort ∧
      (branch110 d name.2 = .unsupported ↔ branch10x d name.2 = .unsupported) := by
  cases v <;> cases m <;> cases n <;> decide

variable (d : Headers) (myproto : Option Bytes) (v : Version)

/-- The function for OpenSSL 1.0.x leaves the program running. -/
theorem ossl10x_ne_abort : ossl10xProtoVersionLogic d myproto ≠ .abort := by
  rw [ossl10xProtoVersionLogic]
  have hbranch : ∀ t : Asked, branch10x d t ≠ .abort := by
    intro t
    unfold branch10x sslv23
    split <;> try split
    all_goals exact Chosen.noConfusion
  exact hbranch _

/-- A name that stands for anything but SSL 3 alone is taken in the same way by both functions. -/
theorem admits_of_valid (hvalid : asked myproto ≠ .invalid) (hssl3 : asked myproto ≠ .only .ssl3) :
    (ossl110ProtoVersionLogic d myproto).admits v = (asked myproto).covers d v ∧
      (ossl10xProtoVersionLogic d myproto).admits v = (asked myproto).covers d v ∧
      ossl110ProtoVersionLogic d myproto ≠ .abort ∧
      (ossl110ProtoVersionLogic d myproto = .unsupported ↔
        ossl10xProtoVersionLogic d myproto = .unsupported) := by
  rw [ossl110ProtoVersionLogic, ossl10xProtoVersionLogic]
  rcases asked_mem myproto with hinvalid | ⟨name, hmem, hasked, -⟩
  · exact absurd hinvalid hvalid
  · rw [hasked] at hssl3 ⊢
    exact branches_agree v d.sslv3ClientMethod d.noSsl3 name hmem hssl3 d.tls11 d.tls12 d.tls13

/-- A name that is none of theirs ends the program with the one, and stands for TLS with the
other. -/
theorem admits_of_invalid (hinvalid : asked myproto = .invalid) :
    ossl110ProtoVersionLogic d myproto = .abort ∧
      (ossl10xProtoVersionLogic d myproto).admits v = Asked.auto.covers d v := by
  rw [ossl110ProtoVersionLogic, ossl10xProtoVersionLogic, hinvalid]
  refine ⟨rfl, ?_⟩
  cases v <;> rfl

/-- SSL 3 alone: the one function also asks whether there is a method for it. -/
theorem admits_of_ssl3 (hssl3 : asked myproto = .only .ssl3) :
    (ossl110ProtoVersionLogic d myproto).admits v = (!d.noSsl3 && v = .ssl3) ∧
      (ossl10xProtoVersionLogic d myproto).admits v =
        (d.sslv3ClientMethod && !d.noSsl3 && v = .ssl3) ∧
      ossl110ProtoVersionLogic d myproto ≠ .abort ∧
      (ossl110ProtoVersionLogic d myproto = .unsupported ↔ d.noSsl3 = true) ∧
      (ossl10xProtoVersionLogic d myproto = .unsupported ↔
        d.noSsl3 = true ∨ d.sslv3ClientMethod = false) := by
  rw [ossl110ProtoVersionLogic, ossl10xProtoVersionLogic, hssl3]
  obtain ⟨m, n, t1, t2, t3⟩ := d
  revert m n t1 t2 t3
  cases v <;> decide

/-- The one function ends the program for the names that are not known, and for no others. -/
theorem ossl110_eq_abort_iff :
    ossl110ProtoVersionLogic d myproto = .abort ↔ asked myproto = .invalid := by
  constructor
  · intro habort
    by_contra hvalid
    by_cases hssl3 : asked myproto = .only .ssl3
    · exact (admits_of_ssl3 d myproto .ssl3 hssl3).2.2.1 habort
    · exact (admits_of_valid d myproto .ssl3 hvalid hssl3).2.2.1 habort
  · exact fun hinvalid => (admits_of_invalid d myproto .ssl3 hinvalid).1

/-- Whatever the library speaks and its headers say: nothing tells the two functions apart exactly
if the name is one of theirs and, where it is SSL 3 alone, both refuse it or both have it. -/
theorem alike_iff (speaks : Version → Bool) :
    (ossl110ProtoVersionLogic d myproto).Alike speaks (ossl10xProtoVersionLogic d myproto) ↔
      asked myproto ≠ .invalid ∧
        (asked myproto = .only .ssl3 → d.noSsl3 = true ∨ d.sslv3ClientMethod = true) := by
  have habort := ossl110_eq_abort_iff d myproto
  have hruns := ossl10x_ne_abort d myproto
  constructor
  · intro h
    refine ⟨fun hinvalid => hruns (h.abort.mp (habort.mpr hinvalid)), fun hssl3 => ?_⟩
    obtain ⟨-, -, -, h110, h10x⟩ := admits_of_ssl3 d myproto .ssl3 hssl3
    have hrefused := h.unsupported
    rw [h110, h10x] at hrefused
    cases hmethod : d.sslv3ClientMethod with
    | false => exact Or.inl (hrefused.mpr (Or.inr hmethod))
    | true => exact Or.inr rfl
  · rintro ⟨hvalid, hheaders⟩
    have hneither : ossl110ProtoVersionLogic d myproto = .abort ↔
        ossl10xProtoVersionLogic d myproto = .abort :=
      iff_of_false (fun h => hvalid (habort.mp h)) hruns
    by_cases hssl3 : asked myproto = .only .ssl3
    · have hboth := fun v => admits_of_ssl3 d myproto v hssl3
      obtain ⟨-, -, -, h110, h10x⟩ := hboth .ssl3
      refine ⟨fun v => ?_, ?_, hneither⟩
      · rw [Chosen.allows, Chosen.allows, (hboth v).1, (hboth v).2.1]
        rcases hheaders hssl3 with hno | hmethod
        · simp [hno]
        · simp [hmethod]
      · rw [h110, h10x]
        rcases hheaders hssl3 with hno | hmethod
        · simp [hno]
        · simp [hmethod]
    · have hboth := fun v => admits_of_valid d myproto v hvalid hssl3
      refine ⟨fun v => ?_, (hboth .ssl3).2.2.2, hneither⟩
      rw [Chosen.allows, Chosen.allows, (hboth v).1, (hboth v).2.1]

/-- **When the two functions agree, and what they do where they do not.** -/
theorem protoVersionLogic_agree (speaks : Version → Bool) :
    ((ossl110ProtoVersionLogic d myproto).Alike speaks (ossl10xProtoVersionLogic d myproto) ↔
      asked myproto ≠ .invalid ∧
        (asked myproto = .only .ssl3 → d.noSsl3 = true ∨ d.sslv3ClientMethod = true)) ∧
    (asked myproto ≠ .invalid → asked myproto ≠ .only .ssl3 → ∀ v,
      (ossl110ProtoVersionLogic d myproto).allows speaks v =
        (speaks v && (asked myproto).covers d v)) ∧
    (asked myproto = .only .ssl3 →
      (∀ v, (ossl110ProtoVersionLogic d myproto).allows speaks v =
        (speaks v && (!d.noSsl3 && v = .ssl3))) ∧
      (ossl110ProtoVersionLogic d myproto = .unsupported ↔ d.noSsl3 = true) ∧
      (ossl10xProtoVersionLogic d myproto = .unsupported ↔
        d.noSsl3 = true ∨ d.sslv3ClientMethod = false)) ∧
    (ossl110ProtoVersionLogic d myproto = .abort ↔ asked myproto = .invalid) ∧
    (asked myproto = .invalid → ∀ v,
      (ossl10xProtoVersionLogic d myproto).allows speaks v =
        (speaks v && Asked.auto.covers d v)) := by
  refine ⟨alike_iff d myproto speaks, fun hvalid hssl3 v => ?_, fun hssl3 => ?_,
    ossl110_eq_abort_iff d myproto, fun hinvalid v => ?_⟩
  · rw [Chosen.allows, (admits_of_valid d myproto v hvalid hssl3).1]
  · obtain ⟨-, -, -, h110, h10x⟩ := admits_of_ssl3 d myproto .ssl3 hssl3
    exact ⟨fun v => congrArg (speaks v && ·) (admits_of_ssl3 d myproto v hssl3).1, h110, h10x⟩
  · rw [Chosen.allows, (admits_of_invalid d myproto v hinvalid).2]

/-- The names that let SSL 3 in. -/
theorem name_of_ssl3 (h : asked myproto = .only .ssl3 ∨ asked myproto = .from .ssl3) :
    ∃ name, myproto = some name ∧
      (Bytes.equalsCI (Bytes.lit "ssl3") name = true ∨
        Bytes.equalsCI (Bytes.lit "ssl3+") name = true) := by
  have htable : ∀ name ∈ names, name.2 = .only .ssl3 ∨ name.2 = .from .ssl3 →
      name.1 = Bytes.lit "ssl3" ∨ name.1 = Bytes.lit "ssl3+" := by
    decide
  rcases asked_mem myproto with hinvalid | ⟨name, hmem, hasked, hname⟩
  · rw [hinvalid] at h
    rcases h with h | h <;> cases h
  · rw [hasked] at h
    have hssl3 := htable name hmem h
    cases myproto with
    | none =>
      -- no name stands for `auto`
      rcases hssl3 with h | h <;> rw [h] at hname <;> cases hname
    | some asked =>
      refine ⟨asked, rfl, ?_⟩
      rw [Option.getD_some] at hname
      rcases hssl3 with h | h <;> rw [h] at hname
      · exact Or.inl hname
      · exact Or.inr hname

/-- Below TLS there is only SSL 3, under two of the names. -/
theorem below_of_mem (hbelow : v.rank < Version.tls1.rank) :
    ∀ name ∈ names, ∀ m n t1 t2 t3 : Bool, name.2.covers ⟨m, n, t1, t2, t3⟩ v = true →
      v = .ssl3 ∧ (name.2 = .only .ssl3 ∨ name.2 = .from .ssl3) := by
  revert hbelow
  cases v <;> decide

variable {d myproto v}

/-- What is below TLS is spoken only if it was asked for by its name. -/
theorem protoVersionLogic_floor {speaks : Version → Bool}
    (hallows : (ossl110ProtoVersionLogic d myproto).allows speaks v = true ∨
      (ossl10xProtoVersionLogic d myproto).allows speaks v = true)
    (hbelow : v.rank < Version.tls1.rank) :
    v = .ssl3 ∧ ∃ name, myproto = some name ∧
      (Bytes.equalsCI (Bytes.lit "ssl3") name = true ∨
        Bytes.equalsCI (Bytes.lit "ssl3+") name = true) := by
  have hadmits : (ossl110ProtoVersionLogic d myproto).admits v = true ∨
      (ossl10xProtoVersionLogic d myproto).admits v = true :=
    hallows.imp (fun h => (Bool.and_eq_true_iff.mp h).2) fun h => (Bool.and_eq_true_iff.mp h).2
  have hauto : Asked.auto.covers d v = false := by
    rw [Asked.covers, decide_eq_false_iff_not]
    omega
  -- a name that is not known ends the program with the one, and stands for TLS with the other
  by_cases hinvalid : asked myproto = .invalid
  · obtain ⟨h110, h10x⟩ := admits_of_invalid d myproto v hinvalid
    rw [h110, h10x, hauto] at hadmits
    rcases hadmits with h | h <;> cases h
  -- `ssl3` alone is the only one of the names that the two functions read differently
  · by_cases hssl3 : asked myproto = .only .ssl3
    · obtain ⟨h110, h10x, -⟩ := admits_of_ssl3 d myproto v hssl3
      rw [h110, h10x] at hadmits
      have hv : v = .ssl3 := by
        rcases hadmits with h | h <;> simpa using (Bool.and_eq_true_iff.mp h).2
      exact ⟨hv, name_of_ssl3 myproto (Or.inl hssl3)⟩
    · obtain ⟨h110, h10x, -⟩ := admits_of_valid d myproto v hinvalid hssl3
      rw [h110, h10x, or_self] at hadmits
      rcases asked_mem myproto with h | ⟨name, hmem, hasked, -⟩
      · exact absurd h hinvalid
      · rw [hasked] at hadmits
        obtain ⟨hv, hname⟩ := below_of_mem v hbelow name hmem d.sslv3ClientMethod d.noSsl3
          d.tls11 d.tls12 d.tls13 hadmits
        exact ⟨hv, name_of_ssl3 myproto (by rw [hasked]; exact hname)⟩

/-- A library that speaks everything from SSL 3 on. -/
def fromSsl3 : Version → Bool := fun v => v ≠ .ssl2

theorem protoVersionLogic_floor_sample :
    Version.ssl3 = .ssl3 ∧ ∃ name, some (Bytes.lit "SSL3+") = some name ∧
      (Bytes.equalsCI (Bytes.lit "ssl3") name = true ∨
        Bytes.equalsCI (Bytes.lit "ssl3+") name = true) := by
  have hallows : (ossl110ProtoVersionLogic ⟨true, false, true, true, true⟩
      (some (Bytes.lit "SSL3+"))).allows fromSsl3 .ssl3 = true := by decide
  exact protoVersionLogic_floor (Or.inl hallows) (by decide)

-- SSL 3 is in the library, but only one of the functions gets at it
example : let d : Headers := ⟨false, false, true, true, true⟩
    ossl10xProtoVersionLogic d (some (Bytes.lit "ssl3")) = .unsupported ∧
      (ossl110ProtoVersionLogic d (some (Bytes.lit "ssl3"))).allows fromSsl3 .ssl3 = true := by
  decide

end Fetchmail.Ssl
