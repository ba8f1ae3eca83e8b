import ScriptBytecode.Main
import ScriptBytecode.Proofs.Assembling
import ScriptBytecode.Proofs.ExpressionCode
import ScriptBytecode.Proofs.Outline
import ScriptBytecode.Proofs.StatementCode
import ScriptBytecode.Proofs.LabelPlaces
import ScriptBytecode.Proofs.Layout
import ScriptBytecode.Proofs.AllPaths
import ScriptBytecode.Proofs.ControlFlow
import ScriptBytecode.Proofs.Registers
import ScriptBytecode.Proofs.ScopeObjects
import ScriptBytecode.Proofs.StrayAccess
import ScriptBytecode.Proofs.ScopedCode
import ScriptBytecode.Proofs.RuntimeScopes
import ScriptBytecode.Proofs.Validity
import ScriptBytecode.Proofs.PoolOrder
import ScriptBytecode.Proofs.Offences
import ScriptBytecode.Proofs.Demands
import ScriptBytecode.Proofs.TreeDemands
import ScriptBytecode.Proofs.FirstOffence
import ScriptBytecode.Proofs.NamedConstants
import ScriptBytecode.Proofs.LexicalScopes
import ScriptBytecode.Proofs.NearestDouble
import ScriptBytecode.Proofs.ExactScaling
import ScriptBytecode.Proofs.NumberText
import ScriptBytecode.Proofs.JsonText
import ScriptBytecode.Proofs.JsonLayout
import ScriptBytecode.Proofs.ProgramDocument
import ScriptBytecode.Proofs.SingleAssignment
import ScriptBytecode.Proofs.OutputForms
import ScriptBytecode.Proofs.ReachableAssemblers
import ScriptBytecode.Proofs.Evaluation
import ScriptBytecode.Proofs.ExpressionMeaning
import ScriptBytecode.Proofs.AppendedStatements
import ScriptBytecode.Proofs.FinishedPrograms
import ScriptBytecode.Proofs.LoopStructure
import ScriptBytecode.Proofs.ParallelSteps
import ScriptBytecode.Proofs.TreeShape
import ScriptBytecode.Proofs.CodeCopies
import ScriptBytecode.Proofs.LoopConditions
import ScriptBytecode.Proofs.EncodedInstructions
import ScriptBytecode.Proofs.ScopeHistories
import ScriptBytecode.Proofs.SoleBindings
import ScriptBytecode.Proofs.BalancedBlocks
import ScriptBytecode.Proofs.Interning
import ScriptBytecode.Proofs.ValidationOrder
import ScriptBytecode.Proofs.JsonDepth
import ScriptBytecode.Proofs.ListingText
import ScriptBytecode.Proofs.RenderedChunks
import ScriptBytecode.Proofs.SettingsSearch
import ScriptBytecode.Proofs.CommandLineGrammar
import ScriptBytecode.Proofs.OutputOption
import ScriptBytecode.Proofs.FileChanges
