import CallEvolution.Action.Basic
import CallEvolution.Action.Codec
import CallEvolution.Action.Error
import CallEvolution.Action.Path
import CallEvolution.Calendar.Date
import CallEvolution.Calendar.Text
import CallEvolution.Calendar.Time
import CallEvolution.Decimal.Layout
import CallEvolution.Decimal.Reader
import CallEvolution.Decimal.Shortest
import CallEvolution.Description.Failure
import CallEvolution.Description.Gene
import CallEvolution.Description.Individual
import CallEvolution.Description.Member
import CallEvolution.Description.Search
import CallEvolution.Evaluation.Archive
import CallEvolution.Evaluation.Evaluator
import CallEvolution.Evaluation.Report
import CallEvolution.Evaluation.Simulation
import CallEvolution.Fault
import CallEvolution.Gene.Adopt
import CallEvolution.Gene.Basic
import CallEvolution.Gene.Build
import CallEvolution.Gene.Codec
import CallEvolution.Gene.Copy
import CallEvolution.Gene.Equality
import CallEvolution.Gene.Error
import CallEvolution.Gene.Mutation
import CallEvolution.Gene.MutationSettings
import CallEvolution.Gene.Randomize
import CallEvolution.Gene.Render
import CallEvolution.Gene.Schema
import CallEvolution.Gene.Subtree
import CallEvolution.Gene.Traversal
import CallEvolution.Gene.Tree
import CallEvolution.Impact.Identity
import CallEvolution.Impact.Record
import CallEvolution.Individual.Basic
import CallEvolution.Individual.Codec
import CallEvolution.Individual.Link
import CallEvolution.Individual.Repair
import CallEvolution.Individual.Sync
import CallEvolution.Json.Basic
import CallEvolution.Json.Number
import CallEvolution.Json.Printer
import CallEvolution.Json.Reader
import CallEvolution.Json.Record
import CallEvolution.Linking.Body
import CallEvolution.Linking.Codec
import CallEvolution.Linking.Directive
import CallEvolution.Linking.Field
import CallEvolution.Linking.Key
import CallEvolution.Linking.Linker
import CallEvolution.Linking.Name
import CallEvolution.Linking.Parameter
import CallEvolution.Linking.Rank
import CallEvolution.Linking.Sequence
import CallEvolution.Linking.Settings
import CallEvolution.Linking.Site
import CallEvolution.Number.Binary
import CallEvolution.Number.Format
import CallEvolution.Number.Power
import CallEvolution.Petstore
import CallEvolution.Proofs.ActionOrder
import CallEvolution.Proofs.Admission
import CallEvolution.Proofs.Adoption
import CallEvolution.Proofs.Agreement
import CallEvolution.Proofs.AnchoredLinks
import CallEvolution.Proofs.ArchiveHistory
import CallEvolution.Proofs.ArchiveOffers
import CallEvolution.Proofs.ArenaIntegrity
import CallEvolution.Proofs.Attempts
import CallEvolution.Proofs.ChildSequences
import CallEvolution.Proofs.Compaction
import CallEvolution.Proofs.Comparison
import CallEvolution.Proofs.Conditions
import CallEvolution.Proofs.Construction
import CallEvolution.Proofs.Copying
import CallEvolution.Proofs.Cores
import CallEvolution.Proofs.Differences
import CallEvolution.Proofs.DirectedRows
import CallEvolution.Proofs.Directives
import CallEvolution.Proofs.Domains
import CallEvolution.Proofs.Draws
import CallEvolution.Proofs.DueLinks
import CallEvolution.Proofs.EffectiveMutations
import CallEvolution.Proofs.Embedding
import CallEvolution.Proofs.Encoding
import CallEvolution.Proofs.EqualForms
import CallEvolution.Proofs.ExactCopies
import CallEvolution.Proofs.ExistingRows
import CallEvolution.Proofs.Extents
import CallEvolution.Proofs.FaithfulBuilds
import CallEvolution.Proofs.FaithfulRepairs
import CallEvolution.Proofs.FaultCauses
import CallEvolution.Proofs.FixedNodes
import CallEvolution.Proofs.Frame
import CallEvolution.Proofs.GeneTerm
import CallEvolution.Proofs.Graft
import CallEvolution.Proofs.IdenticalBodies
import CallEvolution.Proofs.ImmutableData
import CallEvolution.Proofs.ImmutableRuns
import CallEvolution.Proofs.ImpactRecords
import CallEvolution.Proofs.Interruptions
import CallEvolution.Proofs.KeptRows
import CallEvolution.Proofs.KeyRuns
import CallEvolution.Proofs.KeyTables
import CallEvolution.Proofs.KeylessRows
import CallEvolution.Proofs.LastingRuns
import CallEvolution.Proofs.LeafFields
import CallEvolution.Proofs.LinkEnds
import CallEvolution.Proofs.LinkEntries
import CallEvolution.Proofs.LinkIntegrity
import CallEvolution.Proofs.LinkPass
import CallEvolution.Proofs.LinkRuns
import CallEvolution.Proofs.LinkSteps
import CallEvolution.Proofs.LinkedRuns
import CallEvolution.Proofs.LockedKeys
import CallEvolution.Proofs.Lockstep
import CallEvolution.Proofs.Lookups
import CallEvolution.Proofs.Magnitudes
import CallEvolution.Proofs.Members
import CallEvolution.Proofs.MendedKeys
import CallEvolution.Proofs.Mould
import CallEvolution.Proofs.Mutation
import CallEvolution.Proofs.MutationPaths
import CallEvolution.Proofs.MutatorSteps
import CallEvolution.Proofs.NodeLaws
import CallEvolution.Proofs.Outcome
import CallEvolution.Proofs.OuterNodes
import CallEvolution.Proofs.Overlay
import CallEvolution.Proofs.Ownership
import CallEvolution.Proofs.Patterns
import CallEvolution.Proofs.Places
import CallEvolution.Proofs.Printing
import CallEvolution.Proofs.Proposals
import CallEvolution.Proofs.QuietGenes
import CallEvolution.Proofs.Randomization
import CallEvolution.Proofs.Readings
import CallEvolution.Proofs.Redraws
import CallEvolution.Proofs.Refill
import CallEvolution.Proofs.Refusals
import CallEvolution.Proofs.Registration
import CallEvolution.Proofs.Relinking
import CallEvolution.Proofs.Renaming
import CallEvolution.Proofs.Rounding
import CallEvolution.Proofs.RowRuns
import CallEvolution.Proofs.SafeDraws
import CallEvolution.Proofs.SafeSteps
import CallEvolution.Proofs.Scores
import CallEvolution.Proofs.SearchAccounts
import CallEvolution.Proofs.SecondPass
import CallEvolution.Proofs.SeededRows
import CallEvolution.Proofs.SettledRuns
import CallEvolution.Proofs.Settling
import CallEvolution.Proofs.Shares
import CallEvolution.Proofs.SoundActions
import CallEvolution.Proofs.SoundMatches
import CallEvolution.Proofs.StaleLinks
import CallEvolution.Proofs.Starvation
import CallEvolution.Proofs.StructureChance
import CallEvolution.Proofs.Takeover
import CallEvolution.Proofs.Templates
import CallEvolution.Proofs.TextBinding
import CallEvolution.Proofs.TotalReading
import CallEvolution.Proofs.TotalSearch
import CallEvolution.Proofs.Transfer
import CallEvolution.Proofs.Unfolding
import CallEvolution.Proofs.Upkeep
import CallEvolution.Proofs.ValueEquality
import CallEvolution.Proofs.Variations
import CallEvolution.Proofs.Visibility
import CallEvolution.Proofs.Walks
import CallEvolution.Proofs.WeightedDraws
import CallEvolution.Proofs.WholeNumbers
import CallEvolution.Proofs.WrittenDates
import CallEvolution.Proofs.WrittenNumbers
import CallEvolution.Random.ChaCha
import CallEvolution.Random.Source
import CallEvolution.Random.Uniform
import CallEvolution.Random.Weighted
import CallEvolution.Random.Words
import CallEvolution.Sampling.Sampler
import CallEvolution.Sampling.Seed
import CallEvolution.Search.Attempt
import CallEvolution.Search.Codec
import CallEvolution.Search.Loop
import CallEvolution.Search.Settings
import CallEvolution.Setting
import CallEvolution.Table
import CallEvolution.Text.Base64
import CallEvolution.Text.Blank
import CallEvolution.Text.Case
import CallEvolution.Text.CaseTable
import CallEvolution.Text.Digits
import CallEvolution.Text.Duration
import CallEvolution.Text.EditDistance
import CallEvolution.Variation.Candidate
import CallEvolution.Variation.Mutator
