import FnShare.Membership
import FnShare.File.RoundTrip
import FnShare.Ledger.Liveness
import FnShare.Node.Daemon
import FnShare.Placement.Programs
import FnShare.Repair.Overlap
import FnShare.Repair.Floor
import FnShare.Repair.Range
import FnShare.File.Tolerance
import FnShare.File.Stored
import FnShare.File.Failure
import FnShare.File.Integrity
import FnShare.File.Lru
import FnShare.Api.Session
import FnShare.Api.Init
import FnShare.Api.Config
import FnShare.Fuse
import FnShare.Link
import FnShare.Node.Sync
import FnShare.Node.Wire
import FnShare.Replicas
import FnShare.Secrecy
import FnShare.Spool.Pass
import FnShare.Spool.Files
import FnShare.Node.Frame
import FnShare.Ledger.Exchange
import FnShare.Durability
import FnShare.File.Stream
import FnShare.Fuse.Handle
import FnShare.Node.Gossip
import FnShare.Heartbeat
