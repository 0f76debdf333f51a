import ComponentCompiler.Ast.Build
import ComponentCompiler.Ast.Document
import ComponentCompiler.Ast.Outline
import ComponentCompiler.Config.Document
import ComponentCompiler.Cst.Document
import ComponentCompiler.Cst.Sketch
import ComponentCompiler.Edit
import ComponentCompiler.Graph.Compilation
import ComponentCompiler.Graph.Drawing
import ComponentCompiler.Graph.Linking
import ComponentCompiler.ImportTypes.Collect
import ComponentCompiler.ImportTypes.Document
import ComponentCompiler.Main
import ComponentCompiler.ModulePath.Document
import ComponentCompiler.Proofs.Graph.Acyclic
import ComponentCompiler.Proofs.ImportTypes.Table
import ComponentCompiler.SourceUnit
import ComponentCompiler.TaggedText
import ComponentCompiler.Yaml.Decode
import ComponentCompiler.Proofs.Graph.Resolution
import ComponentCompiler.Proofs.Graph.ResolutionOrder
import ComponentCompiler.Proofs.Ast.Construction
import ComponentCompiler.Proofs.Cst.Nesting
import ComponentCompiler.Proofs.Ast.Nesting
import ComponentCompiler.Proofs.Edit
import ComponentCompiler.Proofs.Ast.Ancestors
import ComponentCompiler.Proofs.Script.Edits
import ComponentCompiler.Proofs.Graph.Registration
import ComponentCompiler.Proofs.Graph.Linking
import ComponentCompiler.Proofs.Graph.CompileOrder
import ComponentCompiler.Proofs.Graph.ResolutionPass
import ComponentCompiler.Proofs.Graph.Agreement
import ComponentCompiler.Proofs.Graph.CompileStates
import ComponentCompiler.Proofs.Graph.Unloading
import ComponentCompiler.Proofs.Ast.Payload
import ComponentCompiler.Proofs.Ast.Extension
import ComponentCompiler.Proofs.Ast.Steps
import ComponentCompiler.Proofs.Ast.Entering
import ComponentCompiler.Proofs.Ast.Leaving
import ComponentCompiler.Proofs.Ast.Visits
import ComponentCompiler.Proofs.Ast.WellFormed
import ComponentCompiler.Proofs.Ast.LeavingOrder
import ComponentCompiler.Proofs.Ast.Members
import ComponentCompiler.Proofs.Ast.SourceOrder
import ComponentCompiler.Proofs.Ast.Bindings
import ComponentCompiler.Proofs.Ast.Moments
import ComponentCompiler.Proofs.Ast.PropertyNames
import ComponentCompiler.Proofs.Script.IdComponents
import ComponentCompiler.Proofs.Ast.QuietSteps
import ComponentCompiler.Proofs.Ast.Naming
import ComponentCompiler.Proofs.Ast.Receivers
import ComponentCompiler.Proofs.Ast.Values
import ComponentCompiler.Proofs.ImportTypes.References
import ComponentCompiler.Proofs.Text.ByteOrder
import ComponentCompiler.Proofs.Script.Header
import ComponentCompiler.Proofs.Script.Aliases
import ComponentCompiler.Proofs.Script.Watches
import ComponentCompiler.Proofs.Graph.SelfImports
import ComponentCompiler.Proofs.Script.PlainScripts
import ComponentCompiler.Proofs.Ast.Exports
import ComponentCompiler.Proofs.Script.Exports
import ComponentCompiler.Proofs.Graph.Handles
import ComponentCompiler.Proofs.Text.Split
import ComponentCompiler.Proofs.Volume
import ComponentCompiler.Proofs.Project.Loading
import ComponentCompiler.Proofs.Project.Scripts
import ComponentCompiler.Proofs.Json.RoundTrip
import ComponentCompiler.Proofs.Cst.RoundTrip
import ComponentCompiler.Proofs.Graph.Insertion
import ComponentCompiler.Proofs.Graph.Ordinals
import ComponentCompiler.Proofs.Graph.Repetition
import ComponentCompiler.Proofs.Graph.Manifest
import ComponentCompiler.Proofs.Graph.Dependencies
import ComponentCompiler.Proofs.Script.Levels
import ComponentCompiler.Proofs.Ast.Extents
import ComponentCompiler.Proofs.Script.Rendering
import ComponentCompiler.Proofs.Ast.SuperMarks
import ComponentCompiler.Proofs.Ast.SuperCalls
import ComponentCompiler.Proofs.Script.Constructors
import ComponentCompiler.Proofs.Text.Encoding
import ComponentCompiler.Proofs.Cst.TokenSearch
import ComponentCompiler.Proofs.Cst.Placement
import ComponentCompiler.Proofs.Cst.Layout
import ComponentCompiler.Proofs.ModulePath
import ComponentCompiler.Proofs.Script.HeadNames
import ComponentCompiler.Proofs.TaggedText
import ComponentCompiler.Proofs.Cst.DocumentOrder
import ComponentCompiler.Proofs.Graph.Removal
import ComponentCompiler.Proofs.Ast.ConstructorSlots
import ComponentCompiler.Proofs.Ast.Constructors
import ComponentCompiler.Proofs.Ast.Completion
import ComponentCompiler.Proofs.Ast.Visibility
import ComponentCompiler.Proofs.Graph.Entities
import ComponentCompiler.Proofs.Cst.Unfolding
import ComponentCompiler.Proofs.StackLoops
