import Nanofil.Ieee
import Nanofil.Soundness
import Nanofil.Fuel
import Nanofil.Signatures
import Nanofil.Lifetimes
import Nanofil.Dominators
import Nanofil.Experiment.Records
import Nanofil.Experiment.Ticks
import Nanofil.Experiment.Workers
import Nanofil.Campaign.Admission
import Nanofil.Campaign.Cancels
import Nanofil.Campaign.Settling
import Nanofil.Recording.Recorded
import Nanofil.Publishing.Published
import Nanofil.Framing.Shared
import Nanofil.Boehm.Finalizers
import Nanofil.Boehm.Hiding
import Nanofil.Boehm.Disappearing
import Nanofil.Boehm.Requests
import Nanofil.Switching.Selection
import Nanofil.Jemalloc.Mallctl
import Nanofil.Framing.Slotted
import Nanofil.Sarcasm.Reuse
import Nanofil.Sarcasm.Grouping
import Nanofil.Experiment.Ownership
import Nanofil.Experiment.Verdicts
import Nanofil.Experiment.Histories
import Nanofil.Logs.Paging
import Nanofil.Logs.Ingestion
import Nanofil.Emission.Limits
import Nanofil.Constants.Exactness
import Nanofil.Arithmetic.Strings
import Nanofil.Floats.Exactness
import Nanofil.Bases
import Nanofil.Idoms
import Nanofil.Frontiers
import Nanofil.Framing.Minimal
import Nanofil.Layouts.Placement
import Nanofil.Polls
