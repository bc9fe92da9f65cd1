import Sdle.Crdt
import Sdle.HashRing
import Sdle.ServerStorage
import Sdle.Locks
import Sdle.Traffic
import Sdle.Handoff
import Sdle.Requests
import Sdle.Provenance
import Sdle.Acknowledged
import Sdle.Copies
import Sdle.Quorum
import Sdle.Join
import Sdle.Placement
import Sdle.LockOrder
import Sdle.Answers
import Sdle.Client
import Sdle.Quantities
import Sdle.Membership
import Sdle.Ownership
import Sdle.Reads
import Sdle.Routing
import Sdle.Leaving
import Sdle.Fallback
import Sdle.Setting
import Sdle.InFlight
import Sdle.Participation
import Sdle.OldData
import Sdle.Predecessors
import Sdle.UserLists
import Sdle.Joining
import Sdle.Cli
import Sdle.FieldEdits
import Sdle.Merges
import Sdle.WholeSystem
import Sdle.Replies
import Sdle.Sessions
import Sdle.Desks
import Sdle.Gossip
import Sdle.Rumours
import Sdle.Residence
import Sdle.Progress
import Sdle.Service
import Sdle.Ranking
import Sdle.CrdtReplicas
