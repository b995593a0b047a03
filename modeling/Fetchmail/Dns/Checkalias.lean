import Fetchmail.Lib.Act
import Fetchmail.Lib.Bytes

/-!
# Host Aliases

`is_host_alias` of `checkalias.c`, in a build with `HAVE_RES_SEARCH`. The resolver is an
oracle whose answers may change from one lookup to the next. Every lookup leaves an event
with its answer, so that "matched by some lookup" is a statement about the trace.
-/

namespace Fetchmail.Dns

open Fetchmail.Lib

/-! ## The resolver -/

/-- What `compareaddr` compares: family and address bytes. -/
structure Address where
  family : Nat
  bytes : Bytes
  deriving DecidableEq, Repr

/-- The answer of `fm_getaddrinfo`. -/
inductive AddrAnswer where
  /-- `ai_canonname` and the addresses -/
  | found (canonname : Bytes) (addresses : List Address)
  /-- `EAI_NONAME`, `EAI_NODATA` -/
  | noName
  /-- any other error -/
  | failure
  deriving DecidableEq, Repr

/-- The answer of `getmxrecords`, with `h_errno` where it is `NULL`. -/
inductive MxAnswer where
  | records (names : List Bytes)
  /-- `HOST_NOT_FOUND`, `NO_ADDRESS` -/
  | notFound
  /-- any other error -/
  | failure
  deriving DecidableEq, Repr

/-- A lookup and its answer. -/
inductive Lookup where
  | addr (name : Bytes) (answer : AddrAnswer)
  | mx (name : Bytes) (answer : MxAnswer)
  deriving DecidableEq, Repr

/-- What `is_host_alias` reads of the query, and the resolver it asks. -/
structure Ctl (ω : Type) where
  /-- `lead_server->truename` -/
  leadTruename : Bytes
  /-- `ctl->server.truename` -/
  truename : Bytes
  dns : Bool
  checkalias : Bool
  getaddrinfo : Bytes → ω → AddrAnswer × ω
  getmxrecords : Bytes → ω → MxAnswer × ω

/-- What it writes; `world` is the state of the resolver. -/
structure State (ω : Type) where
  /-- `lead_server->akalist` -/
  akalist : List Bytes
  errcount : Nat
  world : ω

section

variable {ω : Type} (c : Ctl ω)

/-- `fm_getaddrinfo` -/
def lookupAddr (name : Bytes) : Act (State ω) Lookup AddrAnswer := do
  let answer ← Act.lift fun s =>
    ((c.getaddrinfo name s.world).1, { s with world := (c.getaddrinfo name s.world).2 })
  Act.emit (.addr name answer)
  return answer

/-- `getmxrecords` -/
def lookupMx (name : Bytes) : Act (State ω) Lookup MxAnswer := do
  let answer ← Act.lift fun s =>
    ((c.getmxrecords name s.world).1, { s with world := (c.getmxrecords name s.world).2 })
  Act.emit (.mx name answer)
  return answer

/-! ## The function -/

/-- The loops of `is_ip_alias`. -/
def shareAddress (l₁ l₂ : List Address) : Bool := l₁.any fun x => l₂.any fun y => x = y

/-- `is_ip_alias` -/
def isIpAlias (name₁ name₂ : Bytes) : Act (State ω) Lookup Bool := do
  match ← lookupAddr c name₁ with
  | .found _ l₁ =>
    match ← lookupAddr c name₂ with
    | .found _ l₂ => return shareAddress l₁ l₂
    | _ => return false
  | _ => return false

/-- `name` ends in a dot and `aka`. -/
def dottedSuffix (name aka : Bytes) : Bool :=
  aka.length < name.length &&
    Bytes.charAt name (name.length - aka.length - 1) = Bytes.dot &&
    Bytes.equalsCI (name.drop (name.length - aka.length)) aka

/-- The checks that ask no resolver. -/
def knownAlias (akalist : List Bytes) (name : Bytes) : Bool :=
  Bytes.equalsCI c.leadTruename name || akalist.any (Bytes.equalsCI name) ||
    akalist.any (dottedSuffix name)

/-- `ctl->errcount++` -/
def countError : Act (State ω) Lookup Unit :=
  Act.modify fun s => { s with errcount := s.errcount + 1 }

/-- The label `match` and what follows it. -/
def addAlias (name : Bytes) : Act (State ω) Lookup Bool := do
  Act.modify fun s => { s with akalist := s.akalist ++ [name] }
  return true

/-- The name has an address: does the mail server go by it? -/
def checkAddress (name canonname : Bytes) : Act (State ω) Lookup Bool := do
  if Bytes.equalsCI c.truename canonname then addAlias name
  else if c.checkalias then
    match ← lookupAddr c c.truename with
    | .found _ _ =>
      if ← isIpAlias c c.truename name then addAlias name
      else return false
    | _ => return false
  else return false

/-- The loop over the MX records. -/
def checkMxRecords (name : Bytes) : List Bytes → Act (State ω) Lookup Bool
  | [] => return false
  | mxname :: rest => do
    if Bytes.equalsCI c.truename mxname then addAlias name
    else if ← isIpAlias c c.truename mxname then addAlias name
    else checkMxRecords name rest

/-- The name has no address, or none could be had: search for a match on MX records. -/
def checkMx (name : Bytes) : Act (State ω) Lookup Bool := do
  match ← lookupMx c name with
  | .notFound => return false
  | .records names => checkMxRecords c name names
  | .failure =>
    countError
    -- the source leaves the switch here, and goes on below the label `match`
    addAlias name

/-- `is_host_alias` -/
def isHostAlias (name : Bytes) : Act (State ω) Lookup Bool := do
  let akalist ← Act.gets State.akalist
  if knownAlias c akalist name then return true
  else if !c.dns then return false
  else
    match ← lookupAddr c name with
    | .found canonname _ => checkAddress c name canonname
    | .noName => checkMx c name
    | .failure =>
      countError
      checkMx c name

/-- A sequence of calls, with their results. -/
def isHostAliases : List Bytes → Act (State ω) Lookup (List Bool)
  | [] => return []
  | name :: names => do
    let found ← isHostAlias c name
    return found :: (← isHostAliases names)

end

end Fetchmail.Dns
