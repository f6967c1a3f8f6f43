import ValueInference.Config.Settings
import ValueInference.Store.Render
import ValueInference.Store.Digest
import ValueInference.Store.Equality
import ValueInference.Store.Build
import ValueInference.Store.Concrete
import ValueInference.Update
import ValueInference.Merge
import ValueInference.Rebuild
import ValueInference.Recipe
import ValueInference.Literal
import ValueInference.Schedule.Machine
import ValueInference.Inspect
import ValueInference.Outline
import ValueInference.Proofs.Alike
import ValueInference.Proofs.Ground
import ValueInference.Proofs.Outcome
import ValueInference.Proofs.Content
import ValueInference.Proofs.Sound
import ValueInference.Proofs.Equal
import ValueInference.Proofs.Growth
import ValueInference.Proofs.Covers
import ValueInference.Proofs.Forced
import ValueInference.Proofs.WidenedSlots
import ValueInference.Proofs.Widened
import ValueInference.Proofs.Relaxed
import ValueInference.Proofs.Bounds
import ValueInference.Proofs.Equivalence
import ValueInference.Proofs.Transitivity
import ValueInference.Proofs.Bisimilar
import ValueInference.Proofs.Formed
import ValueInference.Proofs.Steady
import ValueInference.Proofs.Walks
import ValueInference.Proofs.Scenes
import ValueInference.Proofs.Copies
import ValueInference.Proofs.Running
import ValueInference.Proofs.Runs
import ValueInference.Proofs.Forms
import ValueInference.Proofs.Identity
import ValueInference.Proofs.Pendings
import ValueInference.Proofs.Moves
import ValueInference.Proofs.Lasting
import ValueInference.Proofs.Indistinct
import ValueInference.Proofs.Discernible
import ValueInference.Proofs.KnownSlots
import ValueInference.Proofs.Attained
import ValueInference.Proofs.CandidateSets
import ValueInference.Proofs.Becoming
import ValueInference.Proofs.BroadWalks
import ValueInference.Proofs.Tables
import ValueInference.Proofs.Deferred
import ValueInference.Proofs.Finished
import ValueInference.Proofs.Fitting
import ValueInference.Proofs.Rewriting
import ValueInference.Proofs.Drafts
import ValueInference.Proofs.Redrawn
import ValueInference.Proofs.RedrawnUnions
import ValueInference.Proofs.RedrawnFunctions
import ValueInference.Proofs.RedrawnWalks
import ValueInference.Proofs.Rewritten
import ValueInference.Proofs.Agreement
import ValueInference.Proofs.Refusals
import ValueInference.Proofs.Sessions
import ValueInference.Proofs.Canonical
import ValueInference.Proofs.Hashing
import ValueInference.Proofs.JoinedSlots
import ValueInference.Proofs.Produced
import ValueInference.Proofs.Stability
import ValueInference.Proofs.Joined
import ValueInference.Proofs.JoinedRuns
import ValueInference.Proofs.Interchange
import ValueInference.Proofs.Histories
import ValueInference.Proofs.Queues
import ValueInference.Proofs.Tasks
import ValueInference.Proofs.Wakeups
import ValueInference.Proofs.Resolvers
import ValueInference.Proofs.Literals
import ValueInference.Proofs.PutOff
import ValueInference.Proofs.FailedMerges
import ValueInference.Proofs.InStep
import ValueInference.Proofs.Unpaused
import ValueInference.Proofs.Composing
import ValueInference.Proofs.Continuing
import ValueInference.Proofs.Followed
import ValueInference.Proofs.Single
import ValueInference.Proofs.Arriving
import ValueInference.Proofs.Cleared
import ValueInference.Proofs.Pausing
import ValueInference.Proofs.ClearedForms
import ValueInference.Proofs.ClearedWalks
import ValueInference.Proofs.Widening
import ValueInference.Proofs.Proper
import ValueInference.Proofs.Endings
import ValueInference.Proofs.Merged
import ValueInference.Proofs.TypeOrder
import ValueInference.Proofs.Typing
import ValueInference.Proofs.Partials
import ValueInference.Proofs.SameType
import ValueInference.Proofs.Generalised
import ValueInference.Proofs.BroadTypes
import ValueInference.Proofs.Broadening
import ValueInference.Proofs.SetLaws
import ValueInference.Proofs.Commuting
import ValueInference.Proofs.Limits
import ValueInference.Proofs.Ledger
import ValueInference.Proofs.Invocations
import ValueInference.Proofs.Driving
import ValueInference.Proofs.Reports
import ValueInference.Proofs.Choosing
import ValueInference.Proofs.Stacks
import ValueInference.Proofs.Priorities
import ValueInference.Proofs.Callers
import ValueInference.Proofs.Upkeep
import ValueInference.Proofs.Errors
import ValueInference.Proofs.Admitted
import ValueInference.Proofs.Reported
import ValueInference.Proofs.Watched
import ValueInference.Proofs.Forcing
import ValueInference.Proofs.KnownOperands
import ValueInference.Proofs.Frozen
import ValueInference.Proofs.Gathered
import ValueInference.Proofs.Recursions
import ValueInference.Proofs.Terminating
import ValueInference.Proofs.Remade
import ValueInference.Proofs.Repeating
import ValueInference.Proofs.Rerun
import ValueInference.Proofs.Journals
import ValueInference.Proofs.Contexts
import ValueInference.Proofs.Values
import ValueInference.Proofs.TypeUnions
import ValueInference.Proofs.EqualTypes
import ValueInference.Proofs.Elementary
import ValueInference.Proofs.LiteralTypes
