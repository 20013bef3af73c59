import Smap.Bytes
import Smap.Number
import Smap.Printf
import Smap.Queue
import Smap.Query.Cond
import Smap.Query.Dispatch
import Smap.Query.Serve
import Smap.Query.Parse
import Smap.Query.Netmask
import Smap.Query.Words
import Smap.WordSplit.Quote
import Smap.WordSplit.Split
import Smap.WordSplit.Expand
import Smap.WordSplit.Append
import Smap.WordSplit.RoundTrip
import Smap.WordSplit.Template
import Smap.WordSplit.Glue
import Smap.WordSplit.Plain
import Smap.WordSplit.Line
import Smap.WordSplit.ScanLine
import Smap.WordSplit.Unquote
import Smap.WordSplit.Local
import Smap.WordSplit.Names
import Smap.WordSplit.Varnames
import Smap.WordSplit.Parts
import Smap.WordSplit.Comment
import Smap.WordSplit.Vars
import Smap.WordSplit.Fields
import Smap.Ldap.Attrs
import Smap.Ldap.Filter
import Smap.Ldap.Reading
import Smap.Ldap.Query
import Smap.Config.Table
import Smap.Config.Loop
import Smap.Config.ReadLine
import Smap.Config.Values
import Smap.Config.Statements
import Smap.Config.File
import Smap.Config.Directives
import Smap.Config.Declared
import Smap.Config.LoadPath
import Smap.Smapc.Lines
import Smap.Wire.Prog
import Smap.Wire.Session
import Smap.Wire.Answers
import Smap.Wire.Segments
import Smap.Stream.Basic
import Smap.Stream.Line
import Smap.Stream.Window
import Smap.Stream.Log
import Smap.Stream.Full
import Smap.Stream.Pieces
import Smap.Stream.Getdelim
import Smap.Stream.Reading
import Smap.Stream.Refill
import Smap.Sockmap.Codec
import Smap.Sockmap.Decode
import Smap.Sockmap.Length
import Smap.Sockmap.Emit
import Smap.Sockmap.Faults
import Smap.Sockmap.Output
import Smap.Sockmap.Duplex
import Smap.Trace
import Smap.Session.Loop
import Smap.Session.Lockstep
import Smap.Session.Rules
import Smap.Srvman.Runs
import Smap.Srvman.Slots
import Smap.Srvman.Loop
import Smap.Srvman.Children
import Smap.Srvman.Shutdown
import Smap.Srvman.Open
import Smap.Srvman.Fdset
import Smap.Srvman.Limit
import Smap.Srvman.Pause
import Smap.Startup.Linked
import Smap.Startup.Load
import Smap.Startup.Usable
import Smap.Startup.Serve
import Smap.Sed.Transform
import Smap.Sed.Compose
import Smap.Sed.Rewrite
import Smap.Sed.Substitute
import Smap.Sed.Ends
import Smap.Sed.CaseControl
import Smap.Sed.Failed
import Smap.Sed.Parts
import Smap.Sed.Delimiter
import Smap.Mailutils.Quota
import Smap.Url
import Smap.Parseopt.Options
import Smap.Parseopt.Names
import Smap.Parseopt.Permute
import Smap.Postgres.Conninfo
import Smap.Postgres.Literals
import Smap.Postgres.Escape
import Smap.Postgres.Reply
import Smap.Sqldb
import Smap.Sqldb.Reply
import Smap.Sqldb.Mysql
import Smap.Privs.Cred
import Smap.Privs.Switch
