import ScriptSemantics.Command.Directory
import ScriptSemantics.Main
import ScriptSemantics.Syntax.Draft
import ScriptSemantics.Proofs.Shape
import ScriptSemantics.Proofs.Outcomes
import ScriptSemantics.Proofs.Traversal
import ScriptSemantics.Proofs.TypeTerms
import ScriptSemantics.Proofs.TypeTexts
import ScriptSemantics.Proofs.SymbolTables
import ScriptSemantics.Proofs.Lookups
import ScriptSemantics.Proofs.Registering
import ScriptSemantics.Proofs.Bindings
import ScriptSemantics.Proofs.Nesting
import ScriptSemantics.Proofs.Representation
import ScriptSemantics.Proofs.ViewReadings
import ScriptSemantics.Proofs.Footprints
import ScriptSemantics.Proofs.Following
import ScriptSemantics.Proofs.Regions
import ScriptSemantics.Proofs.Totality
import ScriptSemantics.Proofs.Settling
import ScriptSemantics.Proofs.Separation
import ScriptSemantics.Proofs.TwoPhases
import ScriptSemantics.Proofs.Renaming
import ScriptSemantics.Proofs.Outlines
import ScriptSemantics.Proofs.Renumbering
import ScriptSemantics.Proofs.Declarations
import ScriptSemantics.Proofs.Signatures
import ScriptSemantics.Proofs.Overloads
import ScriptSemantics.Proofs.Denotations
import ScriptSemantics.Proofs.Additions
import ScriptSemantics.Proofs.WalkOrder
import ScriptSemantics.Proofs.Repetition
import ScriptSemantics.Proofs.Recordings
import ScriptSemantics.Proofs.SlotGrammar
import ScriptSemantics.Proofs.Interruptions
import ScriptSemantics.Proofs.TidyTables
import ScriptSemantics.Proofs.Consistency
import ScriptSemantics.Proofs.Handles
import ScriptSemantics.Proofs.LexicalLookups
import ScriptSemantics.Proofs.Growth
import ScriptSemantics.Proofs.Persistence
import ScriptSemantics.Proofs.Schedules
import ScriptSemantics.Proofs.Rescheduling
import ScriptSemantics.Proofs.TreeTexts
import ScriptSemantics.Proofs.TableCalls
import ScriptSemantics.Proofs.ScopeChains
import ScriptSemantics.Proofs.ReachableParts
import ScriptSemantics.Proofs.ShownTexts
import ScriptSemantics.Proofs.TomlLines
import ScriptSemantics.Proofs.SettingsFiles
import ScriptSemantics.Proofs.CheckArguments
import ScriptSemantics.Proofs.Checking
import ScriptSemantics.Proofs.SymbolNodes
import ScriptSemantics.Proofs.Inheritance
import ScriptSemantics.Proofs.MissedReferences
import ScriptSemantics.Proofs.TypeCalls
import ScriptSemantics.Proofs.TypeReading
import ScriptSemantics.Proofs.Parameters
import ScriptSemantics.Proofs.ClassOutcomes
import ScriptSemantics.Proofs.DraftedTrees
import ScriptSemantics.Proofs.NestedDrafts
import ScriptSemantics.Proofs.AnalysedOutlines
import ScriptSemantics.Proofs.Discoveries
import ScriptSemantics.Proofs.StoppedWalks
import ScriptSemantics.Proofs.ReachedTables
import ScriptSemantics.Proofs.LocalDeclarations
import ScriptSemantics.Proofs.OverloadSearches
import ScriptSemantics.Proofs.Presentations
import ScriptSemantics.Proofs.RegionCover
import ScriptSemantics.Proofs.DraftedLeaves
