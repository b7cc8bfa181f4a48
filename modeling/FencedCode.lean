import FencedCode.Checker.Line
import FencedCode.Checker.Replay
import FencedCode.Disk.Inventory
import FencedCode.Document
import FencedCode.Module.RedirectRecord
import FencedCode.Proofs.Document.Failure
import FencedCode.Proofs.Source.Stability
import FencedCode.Proofs.Workspace.Version
import FencedCode.Proofs.Compiler.Snapshot
import FencedCode.Proofs.Path.Walk
import FencedCode.Proofs.Path.Below
import FencedCode.Proofs.Document.Folder
import FencedCode.Proofs.Document.Attribution
import FencedCode.Proofs.Document.Hidden
import FencedCode.Proofs.Options.Chain
import FencedCode.Proofs.Options.BaseFolder
import FencedCode.Proofs.Workspace.Recall
import FencedCode.Proofs.Workspace.Redirect
import FencedCode.Proofs.Workspace.Spelling
import FencedCode.Proofs.Workspace.Reading
import FencedCode.Proofs.Workspace.Relative
import FencedCode.Proofs.Workspace.Importer
import FencedCode.Proofs.Source.Emission
import FencedCode.Proofs.Json.Relaxed
import FencedCode.Proofs.Json.Lines
import FencedCode.Proofs.Registry.Lifetime
import FencedCode.Proofs.Checker.Staleness
import FencedCode.Proofs.Module.Ascent
import FencedCode.Proofs.Checker.Emission
import FencedCode.Proofs.Diagnostic.LineStart
import FencedCode.Proofs.Checker.BlankLine
import FencedCode.Proofs.Source.Suppression
import FencedCode.Proofs.Module.Mapping
import FencedCode.Proofs.Module.Substitution
import FencedCode.Proofs.Workspace.Batch
import FencedCode.Proofs.Document.Excerpt
import FencedCode.Proofs.Document.Skipped
import FencedCode.Proofs.Diagnostic.Outline
import FencedCode.Proofs.Module.FileName
import FencedCode.Proofs.Diagnostic.Report
import FencedCode.Proofs.Document.Report
import FencedCode.Proofs.Path.Lexical
import FencedCode.Proofs.Path.Join
