import Fetchmail.Config.LoadParams
import Fetchmail.Config.Visbuf
import Fetchmail.Lib.Literals

/-!
# The Configuration Dump

`dump_config` of `conf.c`, which prints the records that `load_params` leaves as a Python
dictionary, and the list that `hostalloc` of the parser makes of the records. A pointer to a record
or to the server in it is a number, its address, which the allocator chooses.

What is printed is a sequence of tokens with white space between them; line ends, which end
nothing but the comments, are left out, and so is what is printed before the dictionary. Strings are
printed by `visbuf`. All protocols, name resolution, SSL and the monitoring of interfaces are
compiled in.
-/

namespace Fetchmail.Config.Dump

open Fetchmail.Lib Fetchmail.Lib.Literals

/-! ## Records -/

/-- A record of `querylist`; `lead` is `server.lead_server`. -/
structure Record where
  addr : Nat
  lead : Option Nat
  ctl : Ctl

/-- What the parser knows of the list. -/
structure Hosts where
  querylist : List Record
  leadentry : Option Nat
  trailer : Bool

/-- A new server entry begins, or parameters are registered in a new record. -/
inductive Event where
  | server
  | record (addr : Nat) (ctl : Ctl)

/-- `hostalloc` -/
def hostalloc (h : Hosts) (addr : Nat) (ctl : Ctl) : Hosts :=
  if h.trailer then { h with querylist := h.querylist ++ [⟨addr, h.leadentry, ctl⟩] }
  else { h with
    querylist := h.querylist ++ [⟨addr, none, ctl⟩]
    leadentry := some addr }

/-- `record_current`; where `load_params` calls `hostalloc` for a name on the command line, it
makes the record a leading one. -/
def Hosts.handle (h : Hosts) : Event → Hosts
  | .server => { h with trailer := false }
  | .record addr ctl => { hostalloc h addr ctl with trailer := true }

/-- The list at the end. -/
def register (es : List Event) : List Record :=
  (es.foldl Hosts.handle ⟨[], none, false⟩).querylist

/-- The addresses that the allocator has given. -/
def addresses (es : List Event) : List Nat :=
  es.filterMap fun
    | .server => none
    | .record addr _ => some addr

/-- `load_params`, on records: a defaults record at the head is dropped. -/
def loadRecords (r : Run) (cmdOpts : Query) (querylist : List Record) : Option (List Record) :=
  let kept := if (querylist.head?.map (·.ctl.pollname)) = some "defaults" then querylist.tail
    else querylist
  (loadParams r cmdOpts (querylist.map (·.ctl))).map fun ctls =>
    List.zipWith (fun rec ctl => { rec with ctl := ctl }) kept ctls

/-! ## What is printed -/

/-- What a token is made of: the body of a string, if `visbuf` writes one, a string that is a part
of the program, a number, a name, or the text of a comment. -/
inductive Piece where
  | str (body : Option Bytes)
  | lit (s : String)
  | num (n : Int)
  | name (s : String)
  | comment (text : Bytes)

/-- A string ends where it seems to, and a comment at the end of its line. -/
def Piece.ok : Piece → Bool
  | .str none => false
  | .str (some body) => (pyString body).isSome
  | .comment text => decide (Bytes.lf ∉ text ∧ Bytes.cr ∉ text)
  | _ => true

abbrev Tok := Token Piece

/-- White space at the beginning of a line, or a token. -/
inductive Printed where
  | white (tabs : Nat) (half : Bool)
  | token (t : Tok)

/-- The output, with `indent_level`. -/
structure Out where
  level : Int
  text : List Printed

def Out.put (o : Out) (ts : List Tok) : Out := { o with text := o.text ++ ts.map .token }

/-- The white space of the level; at a negative one the remainder is negative, too. -/
def Out.white (o : Out) : Out :=
  { o with text := o.text ++ [.white (o.level.tdiv 2).toNat (o.level.tmod 2 ≠ 0)] }

/-- `indent`; `none` is the zero byte. -/
def indent (o : Out) : Option Tok → Out
  | some (.closing b) => ({ o with level := o.level - 1 } : Out).white.put [.closing b]
  | some (.opening b) =>
    let o := (if b = .square then o else o.white).put [.opening b]
    { o with level := o.level + 1 }
  | some t => o.white.put [t]
  | none => o.white

/-- The bytes of a string. -/
def cText (s : String) : Bytes := Bytes.cstr (Bytes.lit s)

/-- `USERNAMELEN` -/
def usernamelen : Nat := 128
/-- `KPOP_PORT` -/
def kpopPort : String := "kpop"
/-- `LMTP_MODE`, the character `L` -/
def lmtpMode : Int := 76

/-- What is printed for one key: by `stringdump`, `numdump`, `booldump` and `listdump`, and what
`dump_config` itself prints for `localnames` and `antispam`. -/
inductive Member where
  | str (member : Option String)
  | num (n : Int)
  | bool (onoff : Bool)
  | list (l : List Node)
  | names (l : List Node) (wildcard : Bool)
  | nums (l : List Node)

section

variable (isprint : UInt8 → Bool)

/-- A string in quotes. -/
def quoted (s : String) : Tok := .atom (.str (visText isprint (cText s)))

/-- A string in quotes that has been copied to `namebuf`, which may cut it. -/
def namebuf (s : Option String) : Tok :=
  .atom (.str (s.bind fun s => (visText isprint (cText s)).map (·.take usernamelen)))

/-- What `listdump` prints in the brackets. -/
def idText : List Node → List Tok
  | [] => []
  | idp :: rest =>
    (match idp.id with
      | none => []
      | some id => quoted isprint id :: if rest.isEmpty then [] else [.comma]) ++ idText rest

/-- What is printed for a member of `localnames`. -/
def nodeText (idp : Node) : List Tok :=
  match idp.id2 with
  | some id2 => .opening .paren :: [namebuf isprint idp.id, .comma, quoted isprint id2] ++
      [.closing .paren]
  | none => [namebuf isprint idp.id]

/-- What is printed for all of them. -/
def nameText : List Node → List Tok
  | [] => []
  | idp :: rest =>
    nodeText isprint idp ++ ((if rest.isEmpty then [] else [.comma]) ++ nameText rest)

/-- What is printed behind the colon. -/
def Member.text : Member → List Tok
  | .str none => [.atom (.name "None")]
  | .str (some s) => [quoted isprint s]
  | .num n => [.atom (.num (numValueOut n))]
  | .bool onoff => [.atom (.name (if onoff then "TRUE" else "FALSE"))]
  | .list l => .opening .square :: idText isprint l ++ [.closing .square]
  | .names l wildcard =>
    .opening .square :: (nameText isprint l ++
      if wildcard then [.comma, .atom (.lit "*")] else []) ++ [.closing .square]
  | .nums l => [.atom (.lit (" ".intercalate (l.map fun idp => toString idp.num)))]

/-- The line for one key. -/
def entryText (e : String × Member) : List Tok :=
  .atom (.lit e.1) :: .colon :: e.2.text isprint ++ [.comma]

def dumpMember (o : Out) (e : String × Member) : Out := (indent o none).put (entryText isprint e)

end

/-- A string that may be null; `STRING_DISABLED` is only used for the envelope. -/
def shown : Option Str → Option String
  | some (.text s) => some s
  | _ => none

/-- `showproto` -/
def showproto (proto : Int) : String :=
  if proto = pAuto then "auto"
  else if proto = 2 then "POP2"
  else if proto = 3 then "POP3"
  else if proto = 4 then "APOP"
  else if proto = 5 then "RPOP"
  else if proto = 6 then "IMAP"
  else if proto = pEtrn then "ETRN"
  else if proto = pOdmr then "ODMR"
  else "unknown?!?"

/-- The names of the authentication types, `A_ANY` to `A_MSN`. -/
def authNames : List (Int × String) :=
  [(aAny, "any"), (aPassword, "password"), (2, "ntlm"), (3, "cram-md5"), (7, "gssapi"),
    (5, "kerberos_v4"), (6, "kerberos_v5"), (8, "ssh"), (4, "otp"), (9, "msn")]

/-- The keys of the dictionary itself that come from `struct runctl`. -/
structure Runctl where
  pollInterval : Int
  logfile : Option String
  idfile : Option String
  postmaster : Option String
  bouncemail : Bool
  spambounce : Bool
  softbounce : Bool
  properties : Option String
  invisible : Bool
  showdots : Bool
  useSyslog : Bool

def Runctl.members (runp : Runctl) : List (String × Member) :=
  [("poll_interval", .num runp.pollInterval), ("logfile", .str runp.logfile),
    ("idfile", .str runp.idfile), ("postmaster", .str runp.postmaster),
    ("bouncemail", .bool runp.bouncemail), ("spambounce", .bool runp.spambounce),
    ("softbounce", .bool runp.softbounce), ("properties", .str runp.properties),
    ("invisible", .bool runp.invisible), ("showdots", .bool runp.showdots),
    ("syslog", .bool runp.useSyslog)]

/-- The keys of a server, before `users`. -/
def serverMembers (ctl : Ctl) : List (String × Member) :=
  let str o := Member.str (shown (ctl.opts.str o))
  let num o := Member.num (ctl.opts.num o)
  let flag o := Member.bool (ctl.opts.flag o ≠ 0)
  let usingKpop := ctl.opts.num .protocol = 3 ∧ ctl.opts.str .service = some (.text kpopPort) ∧
    ctl.opts.num .authenticate = 5
  [("pollname", .str (some ctl.pollname)), ("active", .bool (ctl.opts.flag .skip = 0)),
    ("via", str .via),
    ("protocol", .str (some (if usingKpop then "KPOP" else showproto (ctl.opts.num .protocol)))),
    ("service", str .service), ("timeout", num .timeout), ("interval", num .interval),
    ("envelope", if ctl.opts.str .envelope = none then .str (some "Received") else str .envelope),
    ("envskip", num .envskip), ("qvirtual", str .qvirtual)] ++
  ((authNames.lookup (ctl.opts.num .authenticate)).toList.map fun s => ("auth", .str (some s))) ++
  [("dns", flag .dns), ("uidl", flag .uidl), ("aka", .list (ctl.opts.list .akalist)),
    ("localdomains", .list (ctl.opts.list .localdomains)), ("interface", str .interface),
    ("monitor", str .monitor), ("plugin", str .plugin), ("plugout", str .plugout),
    ("principal", str .principal)] ++
  (if ctl.opts.str .esmtpName = none then [] else [("esmtpname", str .esmtpName)]) ++
  (if ctl.opts.str .esmtpPassword = none then [] else [("esmtppassword", str .esmtpPassword)]) ++
  [("tracepolls", flag .tracepolls), ("badheader", .bool (ctl.opts.num .badheader ≠ bhReject))]

/-- The keys of a user. -/
def userMembers (ctl : Ctl) : List (String × Member) :=
  let str o := Member.str (shown (ctl.opts.str o))
  let num o := Member.num (ctl.opts.num o)
  let flag o := Member.bool (ctl.opts.flag o ≠ 0)
  let list o := Member.list (ctl.opts.list o)
  [("remote", str .remotename), ("password", str .password),
    ("localnames", .names (ctl.opts.list .localnames) (ctl.opts.flag .wildcard ≠ 0)),
    ("fetchall", flag .fetchall), ("keep", flag .keep), ("flush", flag .flush),
    ("limitflush", flag .limitflush), ("rewrite", flag .rewrite), ("stripcr", flag .stripcr),
    ("forcecr", flag .forcecr), ("pass8bits", flag .pass8bits), ("dropstatus", flag .dropstatus),
    ("dropdelivered", flag .dropdelivered), ("mimedecode", flag .mimedecode), ("idle", flag .idle),
    ("mda", str .mda), ("bsmtp", str .bsmtp), ("lmtp", .bool (ctl.opts.num .listener = lmtpMode)),
    ("preconnect", str .preconnect), ("postconnect", str .postconnect), ("limit", num .limit),
    ("warnings", num .warnings), ("fetchlimit", num .fetchlimit),
    ("fetchsizelimit", num .fetchsizelimit), ("fastuidl", num .fastuidl),
    ("batchlimit", num .batchlimit), ("ssl", flag .useSsl), ("sslkey", str .sslkey),
    ("sslcert", str .sslcert), ("sslproto", str .sslproto), ("sslcertck", flag .sslcertck),
    ("sslcertpath", str .sslcertpath), ("sslcommonname", str .sslcommonname),
    ("sslfingerprint", str .sslfingerprint), ("expunge", num .expunge),
    ("properties", str .properties), ("smtphunt", list .smtphunt),
    ("fetchdomains", list .domainlist), ("smtpaddress", str .smtpaddress),
    ("smtpname", str .smtpname), ("antispam", .nums (ctl.opts.list .antispam)),
    ("mailboxes", list .mailboxes)]

section

variable (isprint : UInt8 → Bool)

/-- What is printed where a leading server entry begins; `ctl > querylist` compares addresses. -/
def dumpServer (querylist : Nat) (o : Out) (ctl : Record) : Out :=
  let o := if querylist < ctl.addr then
      (indent (indent (indent o (some (.closing .square))) (some (.closing .brace))) none).put
        [.comma]
    else o
  let o := (indent o none).put [.gap (.comment (cText ctl.ctl.pollname))]
  let o := indent o (some (.opening .brace))
  let o := (serverMembers ctl.ctl).foldl (dumpMember isprint) o
  let o := (indent o none).put [.atom (.lit "users"), .colon]
  indent o (some (.opening .square))

/-- The body of the loop. -/
def dumpRecord (querylist : Nat) (o : Out) (ctl : Record) : Out :=
  let o := if ctl.lead = none then dumpServer isprint querylist o ctl else o
  let o := indent o (some (.opening .brace))
  let o := (userMembers ctl.ctl).foldl (dumpMember isprint) o
  let o := indent o (some (.closing .brace))
  (indent o none).put [.comma]

/-- The value of the key `servers`, with the line in front of it. -/
def dumpServers (o : Out) : List Record → Out
  | [] => ({ o with text := o.text ++ [.white 0 true] } : Out).put
      [.atom (.lit "servers"), .colon, .opening .square, .closing .square]
  | querylist :: ctls =>
    let o := (indent o none).put [.gap (.comment (Bytes.lit " List of server entries begins here"))]
    let o := (indent o none).put [.atom (.lit "servers"), .colon]
    let o := indent o (some (.opening .square))
    let o := (querylist :: ctls).foldl (dumpRecord isprint querylist.addr) o
    indent (indent (indent o (some (.closing .square))) (some (.closing .brace)))
      (some (.closing .square))

/-- `dump_config`, from the initializer on. -/
def dumpConfig (runp : Runctl) (querylist : List Record) : List Printed :=
  let o := indent ⟨0, []⟩ (some (.opening .brace))
  let o := runp.members.foldl (dumpMember isprint) o
  let o := dumpServers isprint o querylist
  (indent o (some (.closing .brace))).text

/-! ## What it should mean -/

/-- White space does not count. -/
def tokens (text : List Printed) : List Tok :=
  text.filterMap fun
    | .white _ _ => none
    | .token t => some t

/-- A member of `localnames`. -/
def nameValue (idp : Node) : Value Piece :=
  let name := Value.atom (.str (idp.id.bind fun s =>
    (visText isprint (cText s)).map (·.take usernamelen)))
  match idp.id2 with
  | some id2 => .group .paren [name, .atom (.str (visText isprint (cText id2)))]
  | none => name

/-- The value that is printed behind the colon. -/
def Member.value : Member → Value Piece
  | .str none => .atom (.name "None")
  | .str (some s) => .atom (.str (visText isprint (cText s)))
  | .num n => .atom (.num (numValueOut n))
  | .bool onoff => .atom (.name (if onoff then "TRUE" else "FALSE"))
  | .list l =>
    .group .square ((l.filterMap Node.id).map fun s => .atom (.str (visText isprint (cText s))))
  | .names l wildcard =>
    .group .square (l.map (nameValue isprint) ++ if wildcard then [.atom (.lit "*")] else [])
  | .nums l => .atom (.lit (" ".intercalate (l.map fun idp => toString idp.num)))

/-- One key of a dictionary. -/
def entryValue (e : String × Member) : Value Piece := .member (.lit e.1) (e.2.value isprint)

/-- The record is that of a server entry, or a user of it. -/
def Belongs (server ctl : Record) : Prop :=
  ctl.addr = server.addr ∨ ctl.lead = some server.addr

instance (server ctl : Record) : Decidable (Belongs server ctl) :=
  inferInstanceAs (Decidable (_ ∨ _))

/-- The servers, each with the records that belong to it. -/
def servers (querylist : List Record) : List (Record × List Record) :=
  (querylist.filter (·.lead = none)).map fun server =>
    (server, querylist.filter (Belongs server ·))

def userValue (ctl : Record) : Value Piece :=
  .group .brace ((userMembers ctl.ctl).map (entryValue isprint))

def serverValue (s : Record × List Record) : Value Piece :=
  .group .brace ((serverMembers s.1.ctl).map (entryValue isprint) ++
    [.member (.lit "users") (.group .square (s.2.map (userValue isprint)))])

/-- The dictionary that is to be printed. -/
def configuration (runp : Runctl) (querylist : List Record) : Value Piece :=
  .group .brace (runp.members.map (entryValue isprint) ++
    [.member (.lit "servers") (.group .square ((servers querylist).map (serverValue isprint)))])

/-- The dump is a literal, in which each server appears once with its users. -/
def WellFormed (runp : Runctl) (querylist : List Record) : Prop :=
  parse Piece.ok (tokens (dumpConfig isprint runp querylist)) =
    some (configuration isprint runp querylist)

end

end Fetchmail.Config.Dump
