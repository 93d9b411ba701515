import Bgpd.Lib.BlockedOrder
import Bgpd.Lib.Run
import Bgpd.Lib.AssocList
import Bgpd.Rde.Types
import Bgpd.Rde.Decide
import Bgpd.Rde.DecideScan
import Bgpd.Rde.DecideCanon
import Bgpd.Rde.EvaluateSpec
import Bgpd.Rde.Adjout
import Bgpd.Rde.AdjoutSpec
import Bgpd.Rde.OutSpec
import Bgpd.Rde.Update
import Bgpd.Rde.UpdateMsg
import Bgpd.Rde.UpdateProgress
import Bgpd.Rde.UpdateSpec
import Bgpd.Rde.AddpathSpec
import Bgpd.Rde.ReloadEnd
import Bgpd.Rde.ReloadEndSpec
import Bgpd.Rde.Rib
import Bgpd.Rde.Peer
import Bgpd.Rde.Pending
import Bgpd.Rde.PendingSpec
import Bgpd.Rde.PendingRun
import Bgpd.Rde.PeerSpec
import Bgpd.Rde.RibSpec
import Bgpd.Rde.Sync
import Bgpd.Rde.Generate
import Bgpd.Rde.Incremental
import Bgpd.Rde.Scratch
import Bgpd.Rde.Session
import Bgpd.Rde.Consistency
import Bgpd.Rde.Community
import Bgpd.Rde.Intern
import Bgpd.Rde.InternSpec
import Bgpd.Rde.Kroute
import Bgpd.Rde.KrouteSpec
import Bgpd.Rde.KrouteVpn
import Bgpd.Rde.Dump
import Bgpd.Rde.DumpSpec
import Bgpd.Rde.DumpReload
import Bgpd.Lib.Ramp
import Bgpd.Lib.BitPrefix
import Bgpd.Rpki.Aspa
import Bgpd.Rpki.AspaDraft
import Bgpd.Rpki.Trie
import Bgpd.Rpki.TrieSpec
import Bgpd.Rpki.PrefixSet
import Bgpd.Rpki.PrefixSetLost
import Bgpd.Rpki.RoaSet
import Bgpd.Lib.Walk
import Bgpd.Rpki.Tables
import Bgpd.Rde.RpkiReload
import Bgpd.Rde.RpkiReloadSpec
import Bgpd.Rde.Softreconfig
import Bgpd.Rde.SoftreconfigSpec
import Bgpd.Rde.SoftreconfigRun
import Bgpd.Rde.Filter
import Bgpd.Rde.FilterSpec
import Bgpd.Rde.MrtIndex
import Bgpd.Rde.Nexthop
import Bgpd.Rde.NexthopSpec
import Bgpd.Rde.Nlri
import Bgpd.Rde.NlriSpec
import Bgpd.Lib.Intern
import Bgpd.Lib.PrefixOrder
import Bgpd.Rde.Flowspec
import Bgpd.Rde.FlowspecSpec
import Bgpd.Rde.PrefixCmp
import Bgpd.Rde.As4Path
import Bgpd.Rde.As4PathSpec
import Bgpd.Rde.Paths
import Bgpd.Rde.PathsSpec
import Bgpd.Rde.Flush
import Bgpd.Rde.PathIds
import Bgpd.Rde.FilterSet
import Bgpd.Rde.AttrParse
import Bgpd.Rde.DumpLog
import Bgpd.Rde.DumpOnce
import Bgpd.Rde.AdjoutWalkOnce
import Bgpd.Lib.RbTree
import Bgpd.Rpki.AspaFill
import Bgpd.Rpki.RoaEntries
import Bgpd.Rtr.Transfer
import Bgpd.Rtr.Lock
import Bgpd.Rtr.Complete
import Bgpd.Rde.Provenance
import Bgpd.Rde.OpenPolicy
import Bgpd.Rtr.Version
import Bgpd.Session.Timer
import Bgpd.Session.Types
import Bgpd.Session.State
import Bgpd.Session.Open
import Bgpd.Session.Fsm
import Bgpd.Session.Handlers
import Bgpd.Session.Frame
import Bgpd.Session.TimersDue
import Bgpd.Session.TimerRuns
import Bgpd.Session.Engine
import Bgpd.Session.MergeSpec
import Bgpd.Session.PollSpec
import Bgpd.Session.Throttle
import Bgpd.Fib.Batch
import Bgpd.Rde.DecideTotal
import Bgpd.Rde.RouteAge
import Bgpd.Rpki.AspaLookup
import Bgpd.Rpki.OrLonger
import Bgpd.Rpki.TrieOrder
import Bgpd.Rde.PendPrefixRun
import Bgpd.Rde.FlowspecOrder
import Bgpd.Rde.CommunityWire
import Bgpd.Lib.Ends
import Bgpd.Rde.AspathWalk
import Bgpd.Rde.AspathSafe
import Bgpd.Rde.AspathSpec
import Bgpd.Rde.AspathEdit
import Bgpd.Chash.Meta
import Bgpd.Chash.Sub
import Bgpd.Chash.Slots
import Bgpd.Chash.SubSpec
import Bgpd.Chash.SubMove
import Bgpd.Chash.Table
import Bgpd.Chash.TableSpec
import Bgpd.Chash.TableRun
import Bgpd.Chash.TableSet
import Bgpd.Chash.TableIter
import Bgpd.Bitmap.Map
import Bgpd.Bitmap.Spec
import Bgpd.Bitmap.Run
import Bgpd.Imsg.Buffer
import Bgpd.Imsg.Frame
import Bgpd.Imsg.Channel
import Bgpd.Imsg.Memory
import Bgpd.Fib.LabelRun
