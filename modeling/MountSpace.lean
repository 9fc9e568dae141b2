import MountSpace.CommandLine.Session
import MountSpace.Main
import MountSpace.Proofs.Host.Mounted
import MountSpace.Proofs.Host.Rooted
import MountSpace.Proofs.Memory.History
import MountSpace.Proofs.Memory.Refusals
import MountSpace.Proofs.Outline.Refinement
import MountSpace.Proofs.Path.Sequences
import MountSpace.Proofs.Space.Bracket
import MountSpace.Proofs.Space.Chunks
import MountSpace.Proofs.Space.Creation
import MountSpace.Proofs.Space.Exchange
import MountSpace.Proofs.Space.Missing
import MountSpace.Proofs.Space.Renaming
import MountSpace.Proofs.Space.Resolution
import MountSpace.Proofs.Watch.Delivery
import MountSpace.Proofs.Watch.Queue
import MountSpace.Proofs.World.Attending
import MountSpace.Proofs.World.Configured
import MountSpace.Proofs.World.Ending
import MountSpace.Proofs.World.Listing
import MountSpace.Proofs.World.Mounting
import MountSpace.Proofs.World.Noticing
import MountSpace.Proofs.World.Registered
import MountSpace.Proofs.World.Returning
import MountSpace.Proofs.World.Serving
