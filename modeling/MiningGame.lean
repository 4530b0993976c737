import MiningGame.Main
import MiningGame.Wire.Undo
import MiningGame.Proofs.Amounts
import MiningGame.Proofs.Contract
import MiningGame.Proofs.Changes
import MiningGame.Proofs.Edits
import MiningGame.Proofs.Recordings
import MiningGame.Proofs.Logging
import MiningGame.Proofs.AllOrNothing
import MiningGame.Proofs.Trail
import MiningGame.Proofs.Retention
import MiningGame.Proofs.Branch
import MiningGame.Proofs.Sound
import MiningGame.Proofs.Steps
import MiningGame.Proofs.Runs
import MiningGame.Proofs.Totals
import MiningGame.Proofs.Audit
import MiningGame.Proofs.Balance
import MiningGame.Proofs.Failures
import MiningGame.Proofs.Conservation
import MiningGame.Proofs.Snapshots
import MiningGame.Proofs.Acting
import MiningGame.Proofs.Strikes
import MiningGame.Proofs.Walking
import MiningGame.Proofs.Mining
import MiningGame.Proofs.Opening
import MiningGame.Proofs.Provenance
import MiningGame.Proofs.Finds
import MiningGame.Proofs.Lifecycle
import MiningGame.Proofs.Occupation
import MiningGame.Proofs.Shifts
import MiningGame.Proofs.Horizon
import MiningGame.Proofs.Redoing
import MiningGame.Proofs.Merging
import MiningGame.Proofs.Lexing
import MiningGame.Proofs.Parsing
import MiningGame.Proofs.RoundTrip
import MiningGame.Proofs.Operations
import MiningGame.Proofs.Interface
import MiningGame.Proofs.Gains
import MiningGame.Proofs.Sharing
import MiningGame.Proofs.Grammar
import MiningGame.Proofs.Enrolment
import MiningGame.Proofs.Carrying
import MiningGame.Proofs.Footprints
import MiningGame.Proofs.Journeys
import MiningGame.Proofs.Frame
import MiningGame.Proofs.Tallies
import MiningGame.Proofs.Reverting
import MiningGame.Proofs.Stack
import MiningGame.Proofs.Partition
import MiningGame.Proofs.Drawing
import MiningGame.Proofs.Building
import MiningGame.Proofs.Mixing
import MiningGame.Proofs.Listed
