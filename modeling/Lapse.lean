import Lapse.Machine.Run
import Lapse.Session.Play
import Lapse.Proofs.Change
import Lapse.Proofs.Calls
import Lapse.Proofs.Store
import Lapse.Proofs.Flight
import Lapse.Proofs.Replay
import Lapse.Proofs.Story
import Lapse.Proofs.Disposal
import Lapse.Proofs.Fetching
import Lapse.Proofs.Residence
import Lapse.Proofs.SingleFlight
import Lapse.Proofs.Chart
import Lapse.Proofs.Atomic
import Lapse.Proofs.Expiry
import Lapse.Proofs.Moves
import Lapse.Proofs.Custody
import Lapse.Proofs.Waiting
import Lapse.Proofs.Progress
import Lapse.Proofs.Countdown
import Lapse.Proofs.Gate
import Lapse.Proofs.Dialog
import Lapse.Proofs.Causes
import Lapse.Proofs.Episode
import Lapse.Proofs.Contest
import Lapse.Proofs.Patrols
import Lapse.Proofs.Turns
import Lapse.Proofs.Stopping
import Lapse.Proofs.Coherence
import Lapse.Proofs.Fate
import Lapse.Proofs.Rounds
import Lapse.Proofs.Visits
import Lapse.Proofs.Clearing
import Lapse.Proofs.Pacing
import Lapse.Proofs.Unscathed
import Lapse.Proofs.Ledger
import Lapse.Proofs.Execution
import Lapse.Proofs.Serial
import Lapse.Proofs.Recursion
import Lapse.Proofs.Equality
import Lapse.Proofs.Normal
import Lapse.Proofs.Spelling
import Lapse.Proofs.Jobs
import Lapse.Proofs.Schedule
import Lapse.Proofs.Commuting
import Lapse.Proofs.Likeness
import Lapse.Proofs.InPlace
import Lapse.Proofs.Deeds
import Lapse.Proofs.Tending
import Lapse.Proofs.Numerals
import Lapse.Proofs.Retries
import Lapse.Proofs.Hosted
import Lapse.Proofs.Sitting
import Lapse.Proofs.Outlasting
