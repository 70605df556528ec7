import Allotment.Allocator.Rehearsal
import Allotment.Cache.Script
import Allotment.Main
import Allotment.Proofs.Allocator.Journal
import Allotment.Proofs.Allocator.Pace
import Allotment.Proofs.Cache.Calls
import Allotment.Proofs.Cache.Relay
import Allotment.Proofs.Plan.Bound
import Allotment.Proofs.Plan.Entitled
import Allotment.Proofs.Plan.Excess
import Allotment.Proofs.Plan.Receivers
import Allotment.Proofs.Plan.Renumbering
import Allotment.Proofs.Quiet.Stable
import Allotment.Proofs.Rota.Concord
import Allotment.Proofs.Rota.Converge
import Allotment.Proofs.Run.Balance
import Allotment.Proofs.Run.Density
import Allotment.Proofs.Run.Filling
import Allotment.Proofs.Run.Plain
import Allotment.Proofs.Run.Serial
import Allotment.Proofs.Run.Sole
import Allotment.Proofs.Settle.Steady
import Allotment.Proofs.Store.Coherence
import Allotment.Proofs.Store.Guards
import Allotment.Proofs.Store.Onset
import Allotment.Proofs.Store.Reads
import Allotment.Proofs.Views
import Allotment.Session
