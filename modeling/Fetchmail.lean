import Fetchmail.Auth.Base64
import Fetchmail.Auth.Base64Bounds
import Fetchmail.Auth.CredentialBuffers
import Fetchmail.Auth.Exchanges
import Fetchmail.Auth.Hmac
import Fetchmail.Auth.Md5
import Fetchmail.Auth.Ntlm
import Fetchmail.Auth.Rpa
import Fetchmail.Auth.Sasl
import Fetchmail.Basic
import Fetchmail.Compat
import Fetchmail.Config.DumpFormat
import Fetchmail.Config.Escapes
import Fetchmail.Config.LoadParams
import Fetchmail.Config.Netrc
import Fetchmail.Config.Precedence
import Fetchmail.Config.Visbuf
import Fetchmail.Dns.AliasCache
import Fetchmail.Dns.Checkalias
import Fetchmail.Dns.MxRecords
import Fetchmail.Driver.FetchMessages
import Fetchmail.Driver.LoopRule
import Fetchmail.Driver.MailSafety
import Fetchmail.Driver.OldCalls
import Fetchmail.Driver.PollLoop
import Fetchmail.Driver.SizeAccess
import Fetchmail.Driver.SizeWarnings
import Fetchmail.Driver.SubSessions
import Fetchmail.Imap.Confidential
import Fetchmail.Imap.Getauth
import Fetchmail.Imap.Idle
import Fetchmail.Imap.Isolation
import Fetchmail.Imap.LineBounds
import Fetchmail.Imap.Mechanisms
import Fetchmail.Imap.Numbering
import Fetchmail.Imap.Quoting
import Fetchmail.Imap.Response
import Fetchmail.Imap.Session
import Fetchmail.Imap.TlsSafety
import Fetchmail.Imap.UnseenSearch
import Fetchmail.Lib.Act
import Fetchmail.Lib.Bytes
import Fetchmail.Lib.Chunks
import Fetchmail.Lib.Decimal
import Fetchmail.Lib.Layers
import Fetchmail.Lib.Lines
import Fetchmail.Lib.Literals
import Fetchmail.Lib.Pairs
import Fetchmail.Lib.Patricia
import Fetchmail.Lib.Words
import Fetchmail.Lock
import Fetchmail.Mime.BodyTypeLeft
import Fetchmail.Mime.EncodeBounds
import Fetchmail.Mime.Folding
import Fetchmail.Mime.HeaderWords
import Fetchmail.Mime.QpSource
import Fetchmail.Mime.QuotedPrintable
import Fetchmail.Mime.Rfc2047
import Fetchmail.Mime.UnMimeHeader
import Fetchmail.Odmr
import Fetchmail.Plugin
import Fetchmail.Pop3.Classification
import Fetchmail.Pop3.DeleteSafety
import Fetchmail.Pop3.FastAgreement
import Fetchmail.Pop3.Flush
import Fetchmail.Pop3.Getauth
import Fetchmail.Pop3.IndexBounds
import Fetchmail.Pop3.Listing
import Fetchmail.Pop3.NoDoubleDelivery
import Fetchmail.Pop3.Parseuid
import Fetchmail.Pop3.Replies
import Fetchmail.Pop3.ReplyBytes
import Fetchmail.Pop3.Session
import Fetchmail.Pop3.TlsSafety
import Fetchmail.Pop3.Uidl
import Fetchmail.Report
import Fetchmail.Rfc822.AddrList
import Fetchmail.Rfc822.HackRuns
import Fetchmail.Rfc822.NxtaddrBounds
import Fetchmail.Rfc822.Qualify
import Fetchmail.Rfc822.ReplyHackBounds
import Fetchmail.Rfc822.Valid
import Fetchmail.Sink.Accounting
import Fetchmail.Sink.Batch
import Fetchmail.Sink.BatchLimit
import Fetchmail.Sink.BatchSound
import Fetchmail.Sink.Bounce
import Fetchmail.Sink.Bsmtp
import Fetchmail.Sink.Delivery
import Fetchmail.Sink.Dialogue
import Fetchmail.Sink.LmtpReplies
import Fetchmail.Sink.MdaCommand
import Fetchmail.Sink.Recipients
import Fetchmail.Sink.ReplyFraming
import Fetchmail.Sink.Smtp
import Fetchmail.Sink.Softbounce
import Fetchmail.Sink.StuffTransparency
import Fetchmail.Sink.Stuffline
import Fetchmail.Ssl.NameMatch
import Fetchmail.Ssl.ProtoVersion
import Fetchmail.Ssl.Verify
import Fetchmail.Starttls
import Fetchmail.Transact.BodyDiscard
import Fetchmail.Transact.BodyFraming
import Fetchmail.Transact.BodyTransparency
import Fetchmail.Transact.Confidential
import Fetchmail.Transact.Dialogue
import Fetchmail.Transact.DuplicateKiller
import Fetchmail.Transact.Enshroud
import Fetchmail.Transact.HeaderTransparency
import Fetchmail.Transact.LiteralFraming
import Fetchmail.Transact.LiteralHeaders
import Fetchmail.Transact.Noninterference
import Fetchmail.Transact.Packets
import Fetchmail.Transact.ParseReceived
import Fetchmail.Transact.Readbody
import Fetchmail.Transact.Readheaders
import Fetchmail.Transact.ServerNames
import Fetchmail.Transact.SockWrite
import Fetchmail.Transact.Socket
import Fetchmail.Transact.SplitLines
import Fetchmail.Transact.WarningBuffer
import Fetchmail.Uid.Database
import Fetchmail.Uid.FreeTrie
import Fetchmail.Uid.ListModel
import Fetchmail.Uid.NumberIndex
import Fetchmail.Uid.PatriciaTrie
import Fetchmail.Uid.RoundTrip
import Fetchmail.Uid.SavedLists
import Fetchmail.Uid.TrieBits
import Fetchmail.Uid.TrieInsert
import Fetchmail.Uid.TrieLinks
import Fetchmail.Uid.TrieRefinement
import Fetchmail.Uid.WriteSafety
