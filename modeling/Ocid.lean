import Ocid.Core.Release
import Ocid.Core.Encoding
import Ocid.Core.Resolve
import Ocid.Lib.Calls
import Ocid.Lib.Histories
import Ocid.Lib.Guards
import Ocid.Lib.Runs
import Ocid.Lib.Table
import Ocid.Replication.Pull
import Ocid.Replication.Selection
import Ocid.Replication.Truthful
import Ocid.Replication.Inflight
import Ocid.Publishing.Session
import Ocid.Publishing.Tags
import Ocid.Publishing.Attach
import Ocid.Publishing.Referrers
import Ocid.Publishing.Uploads
import Ocid.Publishing.Resuming
import Ocid.Publishing.Routes
import Ocid.Publishing.Deleting
import Ocid.Publishing.Listing
import Ocid.Publishing.Kinds
import Ocid.Publishing.Refused
import Ocid.Publishing.Catalog
import Ocid.Publishing.Ranges
import Ocid.Lib.Walks
import Ocid.Lib.JsonText
import Ocid.Publishing.Collecting
import Ocid.Daemon.Publish
import Ocid.Daemon.Registry
import Ocid.Index.Refinement
import Ocid.Index.Paths
import Ocid.Lib.Latest
import Ocid.Replication.Convergence
import Ocid.Naming.Explicit
import Ocid.Retention.Kept
import Ocid.Lib.Slots
import Ocid.Lib.Search
import Ocid.Core.Rules
import Ocid.Policies.Changes
import Ocid.Naming.Rotation
import Ocid.Naming.Trust
import Ocid.Naming.Pinned
import Ocid.Naming.Agreement
import Ocid.Naming.Mapping
import Ocid.Naming.Signed
import Ocid.Naming.Zones
import Ocid.Naming.Printed
import Ocid.Lib.Packing
import Ocid.Naming.Strings
import Ocid.Replication.Filling
import Ocid.Replication.Answered
import Ocid.Replication.Sync
import Ocid.Replication.Totals
import Ocid.Replication.Partial
import Ocid.Retention.Retained
import Ocid.Retention.Settled
import Ocid.Retention.Grace
import Ocid.Retention.Listed
import Ocid.Policies.Additive
import Ocid.Policies.Maps
import Ocid.Policies.Offline
import Ocid.Policies.Topics
import Ocid.Policies.Selecting
import Ocid.Policies.Widest
import Ocid.Clients.Events
import Ocid.Clients.Follows
import Ocid.Clients.Images
import Ocid.Replication.Bounds
import Ocid.Replication.Swarm
import Ocid.Lib.Gossip
import Ocid.Replication.Serving
import Ocid.Replication.Mesh
import Ocid.Replication.Genuine
import Ocid.Replication.Available
import Ocid.Index.Writes
