import WhileLang.Environment.Equivalence
import WhileLang.Evaluation.Fuel
import WhileLang.Json.RoundTrip
import WhileLang.Machine.Fuel
import WhileLang.Machine.Trace
import WhileLang.Parity
import WhileLang.Decoding
import WhileLang.Proofs.Iterates
import WhileLang.Proofs.Rules
import WhileLang.Proofs.Simulation
import WhileLang.Proofs.Advance
import WhileLang.Proofs.Budget
import WhileLang.Proofs.Agreement
import WhileLang.Proofs.TraceRun
import WhileLang.Proofs.History
import WhileLang.Proofs.Journal
import WhileLang.Proofs.Lockstep
import WhileLang.Proofs.Names
import WhileLang.Proofs.Noninterference
import WhileLang.Proofs.Independence
import WhileLang.Proofs.Kinding
import WhileLang.Proofs.Grouping
import WhileLang.Proofs.Wording
import WhileLang.Proofs.Congruence
import WhileLang.Proofs.Growth
import WhileLang.Proofs.Parts
import WhileLang.Proofs.Spelling
import WhileLang.Proofs.Resumption
import WhileLang.Proofs.Exchange
import WhileLang.Proofs.Cost
import WhileLang.Proofs.LoopExit
import WhileLang.Proofs.Frame
import WhileLang.Proofs.StackCode
import WhileLang.Proofs.LoopFree
import WhileLang.Proofs.Failure
import WhileLang.Proofs.SequenceTrace
import WhileLang.Proofs.Arithmetic
import WhileLang.Proofs.Visits
import WhileLang.Proofs.CountedLoop
import WhileLang.Proofs.Reports
import WhileLang.Proofs.FaultOrigin
import WhileLang.Proofs.Listing
import WhileLang.Proofs.Legibility
import WhileLang.Proofs.TraceLine
import WhileLang.Proofs.OverlayLaws
import WhileLang.Proofs.FixedPoint
import WhileLang.Proofs.Meaning
