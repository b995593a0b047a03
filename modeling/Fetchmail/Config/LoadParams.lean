import Fetchmail.Lib.Layers

/-!
# Options

The options of `struct query` and how `load_params` of `fetchmail.c` makes the records that
are polled from those of the command line, of the `defaults` entry and of the server
entries. The fields are grouped by the convention that marks an unset one: a null pointer,
the number zero, the flag zero, the empty list.

A null pointer is `none`, and a list stands for its own copy: the list that may be shared
between the users of one server, `localdomains`, cannot be set on the command line, and so is
never appended to. SSL and the monitoring of interfaces are compiled in, SDPS is not.
-/

namespace Fetchmail.Config

open Lib.Layers

/-! ## The fields -/

/-- The fields of type `char *`; `interface_pair` points to what `interface` is parsed to. -/
inductive StrOpt where
  | via | service | envelope | qvirtual | principal | esmtpName | esmtpPassword
  | interface | interfacePair | monitor | plugin | plugout
  | remotename | password | mda | bsmtp | smtpaddress | smtpname | preconnect | postconnect
  | sslkey | sslcert | sslproto | sslcertfile | sslcertpath | sslcommonname | sslfingerprint
  | properties
  deriving DecidableEq, Repr

/-- The fields of type `int`, and `badheader` and `listener`. -/
inductive NumOpt where
  | protocol | authenticate | badheader | listener | interval | timeout | envskip
  | limit | warnings | fetchlimit | fetchsizelimit | fastuidl | batchlimit | expunge
  deriving DecidableEq, Repr

/-- The fields of type `flag`, and `wildcard`. -/
inductive FlagOpt where
  | skip | dns | uidl | checkalias | tracepolls | wildcard | keep | flush | limitflush
  | fetchall | rewrite | forcecr | stripcr | pass8bits | dropstatus | dropdelivered
  | mimedecode | idle | useSsl | sslcertck
  deriving DecidableEq, Repr

/-- The fields of type `struct idlist *`. -/
inductive ListOpt where
  | akalist | localdomains | localnames | mailboxes | smtphunt | domainlist | antispam
  deriving DecidableEq, Repr

/-- The value of a `char *`; `disabled` is `STRING_DISABLED`. -/
inductive Str where
  | text (s : String)
  | disabled
  deriving DecidableEq, Repr

/-- A member of a list: `id`, the other half `id2` of a pair, and the number `val.status.num`. -/
structure Node where
  id : Option String
  id2 : Option String
  num : Int
  deriving DecidableEq, Repr

/-- `save_str` -/
def Node.ofId (id : Option String) : Node := ⟨id, none, 0⟩

/-- `struct query` -/
structure Query where
  str : StrOpt → Option Str
  num : NumOpt → Int
  flag : FlagOpt → Nat
  list : ListOpt → List Node

/-! ## Merging -/

/-- `append_str_list`; the list that is appended is a fresh copy, so that it is never a part
of the other one. -/
def appendStrList : List Node → List Node → List Node
  | idl, [] => idl
  | [], nidl => nidl
  | [node], nidl => node :: nidl
  | node :: idl, nidl => node :: appendStrList idl nidl

/-- `list_merge` -/
def listMerge (force : Bool) (dstl srcl : List Node) : List Node :=
  if (if force then !srcl.isEmpty else dstl.isEmpty) then appendStrList dstl srcl else dstl

/-- `FLAG_MERGE` -/
def flagMerge {α : Type} [DecidableEq α] (unset : α) (force : Bool) (h2 h1 : α) : α :=
  if (if force then h1 ≠ unset else h2 = unset) then h1 else h2

/-- The fields that `optmerge` lists. -/
def StrOpt.merged : StrOpt → Bool
  | .esmtpName | .esmtpPassword => false
  | _ => true

/-- The fields that `optmerge` lists. -/
def ListOpt.merged : ListOpt → Bool
  | .akalist => false
  | _ => true

/-- `optmerge`; it lists all numbers and flags. -/
def optmerge (h2 h1 : Query) (force : Bool) : Query where
  str o := if o.merged then flagMerge none force (h2.str o) (h1.str o) else h2.str o
  num o := flagMerge 0 force (h2.num o) (h1.num o)
  flag o := flagMerge 0 force (h2.flag o) (h1.flag o)
  list o := if o.merged then listMerge force (h2.list o) (h1.list o) else h2.list o

/-! ## Constants -/

/-- `P_AUTO` -/
def pAuto : Int := 1
/-- `P_ETRN` -/
def pEtrn : Int := 7
/-- `P_ODMR` -/
def pOdmr : Int := 8
/-- `A_ANY` -/
def aAny : Int := 0
/-- `A_PASSWORD` -/
def aPassword : Int := 1
/-- `BHREJECT` -/
def bhReject : Int := 0
/-- `SMTP_MODE`, the character `S` -/
def smtpMode : Int := 83
/-- `CLIENT_TIMEOUT` -/
def clientTimeout : Int := 300
/-- `WARNING_INTERVAL` -/
def warningInterval : Int := 3600
/-- `FLAG_TRUE` -/
def flagTrue : Nat := 2
/-- `FLAG_FALSE` -/
def flagFalse : Nat := 1

/-! ## Loading -/

/-- What else `load_params` reads. -/
structure Run where
  user : String
  fetchmailhost : String
  configdump : Bool

/-- `def_opts` -/
def defOpts (r : Run) : Query where
  str
    | .remotename | .esmtpName => some (.text r.user)
    | _ => none
  num
    | .protocol => pAuto
    | .timeout => clientTimeout
    | .badheader => bhReject
    | .warnings => warningInterval
    | .listener => smtpMode
    | .fetchsizelimit => 100
    | .fastuidl => 4
    | _ => 0
  flag _ := 0
  list _ := []

/-- `DEFAULT` -/
def default (flag dflt : Nat) : Nat :=
  if flag = flagTrue then 1 else if flag = flagFalse then 0 else dflt

/-- The flags that are passed to `DEFAULT`. -/
def FlagOpt.defaulted : FlagOpt → Bool
  | .skip | .wildcard | .tracepolls => false
  | _ => true

/-- What `DEFAULT` sets where nothing is given. -/
def FlagOpt.dflt (mda : Option Str) : FlagOpt → Nat
  | .rewrite | .dns | .sslcertck => 1
  | .stripcr => if mda = none then 0 else 1
  | _ => 0

/-- The list that is set up where there is none. -/
def ListOpt.dflt (r : Run) (protocol : Int) : ListOpt → List Node
  | .smtphunt => [.ofId "localhost"]
  | .domainlist =>
    if protocol = pEtrn ∨ protocol = pOdmr then [.ofId r.fetchmailhost] else []
  | .localnames => [.ofId r.user]
  | .mailboxes => [.ofId none]
  | _ => []

/-- The block `if (configdump || ctl->active)` of `load_params`. -/
def setDefaults (r : Run) (q : Query) : Query where
  str := q.str
  num o := if o = .timeout ∧ q.num o = -1 then clientTimeout else q.num o
  flag o := if o.defaulted then default (q.flag o) (o.dflt (q.str .mda)) else q.flag o
  list o := if q.list o = [] then o.dflt r (q.num .protocol) else q.list o

/-- A record of `querylist`. -/
structure Ctl where
  pollname : String
  active : Bool
  opts : Query

/-- The body of the loop over `querylist`. -/
def loadCtl (r : Run) (cmdOpts : Query) (ctl : Ctl) : Ctl :=
  let opts := optmerge (optmerge ctl.opts (defOpts r) false) cmdOpts true
  { ctl with opts := if r.configdump || ctl.active then setDefaults r opts else opts }

/-- A defaults record is merged into the others, and dropped. -/
def mergeDefaults : List Ctl → List Ctl
  | [] => []
  | ctl :: ctls =>
    if ctl.pollname = "defaults" then
      ctls.map fun c => { c with opts := optmerge c.opts ctl.opts false }
    else ctl :: ctls

/-- `load_params`, from where the run control file has been parsed; `none` where it exits
because of a second defaults record. -/
def loadParams (r : Run) (cmdOpts : Query) (querylist : List Ctl) : Option (List Ctl) :=
  let querylist := mergeDefaults querylist
  if querylist.tail.any (·.pollname = "defaults") then none
  else some (querylist.map (loadCtl r cmdOpts))

/-! ## What can be written -/

/-- The numbers for which `NUM_VALUE_IN` is used. -/
def NumOpt.isNumValue : NumOpt → Bool
  | .limit | .warnings | .fetchlimit | .fetchsizelimit | .fastuidl | .batchlimit
  | .expunge => true
  | _ => false

/-- `NUM_VALUE_IN` -/
def numValueIn (n : Int) : Int := if n = 0 then -1 else n

/-- `NUM_VALUE_OUT` -/
def numValueOut (n : Int) : Int := if n < 0 then 0 else n

/-- The flags without a word to turn them off. -/
def FlagOpt.isSwitch : FlagOpt → Bool
  | .skip | .wildcard => true
  | _ => false

/-- The options that a user gives in one place; a list is given where it is not empty. -/
structure Settings where
  str : StrOpt → Option Str
  num : NumOpt → Option Int
  flag : FlagOpt → Option Bool
  list : ListOpt → List Node
  /-- `no envelope` -/
  disabled : ∀ o, str o = some .disabled → o = .envelope
  switches : ∀ o, o.isSwitch = true → flag o ≠ some false
  /-- the constants start at `P_AUTO` -/
  protocols : num .protocol ≠ some 0

/-- How the parsers store a flag. -/
def FlagOpt.enc (o : FlagOpt) (b : Bool) : Nat :=
  if o.isSwitch then (if b then 1 else 0) else if b then flagTrue else flagFalse

/-- How the grammar of the run control file stores a number. -/
def NumOpt.enc (o : NumOpt) (n : Int) : Int := if o.isNumValue then numValueIn n else n

/-- How `parsecmdline` stores a number. -/
def NumOpt.cmdEnc (o : NumOpt) (n : Int) : Int :=
  if o.isNumValue || o = .timeout then numValueIn n else n

/-- The record that the grammar of the run control file makes. -/
def Settings.current (s : Settings) : Query where
  str := s.str
  num o := encode 0 o.enc (s.num o)
  flag o := encode 0 o.enc (s.flag o)
  list := s.list

/-- Whether there is an option on the command line. -/
def StrOpt.onCmdline : StrOpt → Bool
  | .via | .esmtpName | .esmtpPassword | .password | .preconnect | .postconnect
  | .properties => false
  | _ => true

/-- Whether there is an option on the command line. -/
def NumOpt.onCmdline : NumOpt → Bool
  | .interval | .envskip => false
  | _ => true

/-- What can be given on the command line. -/
def FlagOpt.onCmdline : FlagOpt → List Bool
  | .keep | .sslcertck => [true, false]
  | .rewrite => [false]
  | .fetchall | .flush | .limitflush | .idle | .uidl | .useSsl | .tracepolls => [true]
  | _ => []

/-- Whether there is an option on the command line. -/
def ListOpt.onCmdline : ListOpt → Bool
  | .mailboxes | .smtphunt | .domainlist | .antispam => true
  | _ => false

/-- The options that are given on the command line. -/
structure CmdLine extends Settings where
  strs : ∀ o, str o ≠ none → o.onCmdline = true
  nums : ∀ o, num o ≠ none → o.onCmdline = true
  flags : ∀ o b, flag o = some b → b ∈ o.onCmdline
  lists : ∀ o, list o ≠ [] → o.onCmdline = true

/-- The record that `parsecmdline` makes. -/
def CmdLine.cmdOpts (c : CmdLine) : Query where
  str := c.str
  num o := encode 0 o.cmdEnc (c.num o)
  flag o := encode 0 o.enc (c.flag o)
  list := c.list

/-- A server entry. -/
structure Entry extends Settings where
  pollname : String
  active : Bool
  named : pollname ≠ "defaults"

/-- The record of a server entry. -/
def Entry.ctl (e : Entry) : Ctl := ⟨e.pollname, e.active, e.current⟩

/-- The list that the parser makes, with or without a defaults record. -/
def querylist (defaults : Option Settings) (entries : List Entry) : List Ctl :=
  (defaults.toList.map fun d => ⟨"defaults", true, d.current⟩) ++ entries.map Entry.ctl

end Fetchmail.Config
