import Syndeo.Concurrent.Pool
import Syndeo.Cache.Representation
import Syndeo.Cache.Refcount
import Syndeo.Cache.Records
import Syndeo.Cache.Gate
import Syndeo.Cache.Folding
import Syndeo.Cache.Corruption
import Syndeo.Cache.Sharing
import Syndeo.Cache.Boundary
import Syndeo.Cache.Saturation
import Syndeo.Ipc.Confirming
import Syndeo.Keystore.Enrolment
import Syndeo.Keystore.Homes
import Syndeo.Keystore.Slots
import Syndeo.Shell.Call
import Syndeo.Shell.Handle
import Syndeo.Shell.Tools
import Syndeo.Net.Service
import Syndeo.Peer.Answers
import Syndeo.Proxy.Authority
import Syndeo.Proxy.Forward
import Syndeo.Proxy.Asking
import Syndeo.Cache.Directives
import Syndeo.Cache.Staleness
import Syndeo.Cache.NoStore
import Syndeo.App.Address
import Syndeo.App.Tabs
import Syndeo.App.ReadLine
import Syndeo.App.Prompt
import Syndeo.App.Unread
import Syndeo.Proxy.Commands
import Syndeo.Proxy.Leaves
import Syndeo.Cache.Variants
import Syndeo.Cache.Partitions
import Syndeo.Http.Spelling
import Syndeo.Net.Keyed
import Syndeo.Cache.Ageing
import Syndeo.Cache.RangeGrammar
import Syndeo.Cache.RangeArithmetic
import Syndeo.Cache.Arrivals
import Syndeo.Cache.Fidelity
import Syndeo.Cache.Eviction
import Syndeo.Cache.Streaming
import Syndeo.Cache.Serving
import Syndeo.Proxy.Websocket
import Syndeo.Proxy.Gate
import Syndeo.Proxy.Owned
import Syndeo.Net.AltSvc
import Syndeo.Net.Returning
import Syndeo.Peer.Ledgers
import Syndeo.Peer.Codec
import Syndeo.Net.Rate
import Syndeo.Net.Heads
import Syndeo.Net.Declared
import Syndeo.Dom.Budget
import Syndeo.Cache.Coverage
import Syndeo.App.Summary
import Syndeo.Ui.Patience
import Syndeo.App.Mcp
import Syndeo.App.Consent
import Syndeo.App.Answered
import Syndeo.App.Ownership
import Syndeo.App.Around
import Syndeo.App.Field
import Syndeo.App.Launch
import Syndeo.Agent.Sandbox
import Syndeo.App.Survives
import Syndeo.Ui.Browsing
import Syndeo.Proxy.Keychain
