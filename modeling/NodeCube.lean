import NodeCube.Main
import NodeCube.Proofs.Assembler.Comments
import NodeCube.Proofs.Assembler.Diagnostics
import NodeCube.Proofs.Assembler.Disassembly
import NodeCube.Proofs.Assembler.Formatting
import NodeCube.Proofs.Assembler.Language
import NodeCube.Proofs.Assembler.Maps
import NodeCube.Proofs.Assembler.Soundness
import NodeCube.Proofs.Assembler.Tokens
import NodeCube.Proofs.Casing.Collisions
import NodeCube.Proofs.Casing.Conservation
import NodeCube.Proofs.Casing.Damage
import NodeCube.Proofs.Casing.Delivery
import NodeCube.Proofs.Casing.Detached
import NodeCube.Proofs.Casing.Exchange
import NodeCube.Proofs.Casing.Faults
import NodeCube.Proofs.Casing.Hooks
import NodeCube.Proofs.Casing.Latency
import NodeCube.Proofs.Casing.Merge
import NodeCube.Proofs.Casing.NormalForm
import NodeCube.Proofs.Casing.Operations
import NodeCube.Proofs.Casing.Ownership
import NodeCube.Proofs.Casing.Power
import NodeCube.Proofs.Casing.Published
import NodeCube.Proofs.Casing.Removal
import NodeCube.Proofs.Casing.Replica
import NodeCube.Proofs.Casing.Requests
import NodeCube.Proofs.Casing.Restart
import NodeCube.Proofs.Casing.Restore
import NodeCube.Proofs.Casing.Rig
import NodeCube.Proofs.Casing.Round
import NodeCube.Proofs.Casing.Schedules
import NodeCube.Proofs.Casing.TickOrder
import NodeCube.Proofs.Casing.Transfers
import NodeCube.Proofs.Pipe.Fates
import NodeCube.Proofs.Pipe.Rendezvous
import NodeCube.Proofs.Runner.Arguments
import NodeCube.Proofs.Runner.Groups
import NodeCube.Proofs.Runner.Resume
import NodeCube.Proofs.Site.Counter
import NodeCube.Proofs.Site.Deeds
import NodeCube.Proofs.Site.Fetch
import NodeCube.Proofs.Site.Passages
import NodeCube.Proofs.Site.Requests
import NodeCube.Proofs.Site.Shifts
import NodeCube.Proofs.Site.Sight
import NodeCube.Proofs.Site.Turn
import NodeCube.Proofs.Site.Waiting
import NodeCube.Proofs.Site.Writing
import NodeCube.Proofs.Snapshot.Items
import NodeCube.Proofs.Snapshot.Places
import NodeCube.Proofs.Snapshot.Takes
import NodeCube.Proofs.Snapshot.Told
import NodeCube.Proofs.Text.Joins
import NodeCube.Proofs.Text.Lines
import NodeCube.Proofs.Text.Literals
import NodeCube.Proofs.Text.Numerals
import NodeCube.Proofs.Workshop.Footprint
import NodeCube.Runner.Directory
import NodeCube.Snapshot.Item
import NodeCube.Workshop.Command
