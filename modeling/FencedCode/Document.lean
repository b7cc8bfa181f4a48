import FencedCode.Compiler
import FencedCode.Diagnostic.Report
import FencedCode.Settings
import FencedCode.Source.Listing

/-!
# Code blocks of a document

A document holds fenced code blocks. A block in a compiled language is cut into files, compiled, and
shown in two variants, and its diagnostics are placed in the document. Every block is counted,
compiled or not, so that the folder of a block does not depend on the blocks before it.
-/

namespace FencedCode

structure CodeBlock where
  lang : Text
  /-- The text behind the language on the fence line. -/
  info : Option Text
  value : Text
  /-- The line of the opening fence, counted from one. -/
  startLine : Nat
deriving DecidableEq

/-- The tags on the fence line of a block. -/
structure BlockTags where
  tags : List Text
deriving DecidableEq

namespace BlockTags

/-- The tag of blocks that are left alone. -/
def leaveAlone : Text := "no-transpile".toList

def ofInfo (info : Option Text) : BlockTags := ⟨(info.map Text.words).getD []⟩

def contains (t : BlockTags) (tag : Text) : Bool := t.tags.contains tag

def isLeftAlone (t : BlockTags) : Bool := t.contains leaveAlone

end BlockTags

namespace CodeBlock

/-- The name of the file for text without a directive; blocks in other languages have none. -/
def defaultName? (block : CodeBlock) : Option Text :=
  if block.lang = "ts".toList then some defaultFileName
  else if block.lang = "tsx".toList then some "index.tsx".toList
  else none

/-- The default file name of a block that is compiled. -/
def compiledName? (block : CodeBlock) : Option Text :=
  if (BlockTags.ofInfo block.info).isLeftAlone then none else block.defaultName?

end CodeBlock

/-- A compiled block. -/
structure BlockOutput where
  folder : Text
  typed : Text
  compiled : Text
  failures : List Failure
deriving DecidableEq

def BlockOutput.isOk (output : BlockOutput) : Bool := output.failures.isEmpty

inductive BlockOutcome
  | skipped
  | compiled (output : BlockOutput)
deriving DecidableEq

/-- The folder of a block, which is the block of the given number in its document. -/
def blockFolder (settings : Settings) (document : Text) (index : Nat) : Text :=
  settings.root document ++ "/codeBlock_".toList ++ Text.ofNat index

namespace CodeBlock

/-- A diagnostic of a file that begins `offset` lines below the first line of the block. -/
def failure (document : Text) (block : CodeBlock) (path source : Text) (offset : Nat)
    (diagnostic : Diagnostic) : Failure where
  document := document
  sourcePath := path
  location :=
    match diagnostic.position? with
    | some p => .at (block.startLine + 1 + offset + p.line) (p.character + 1)
    | none => .block block.startLine
  fileLine := diagnostic.position?.map (·.line)
  message := diagnostic.message
  source := source

/-- The diagnostics of compiled files, placed in the document. -/
def failures (document : Text) (block : CodeBlock) (folder default : Text) (files : FileSet)
    (compiled : CompiledFiles) : List Failure :=
  let starts := startLines folder default block.value
  compiled.entries.flatMap fun (key, file) ↦
    let source := ((files.get? key).map (·.code)).getD []
    file.diagnostics.map (failure document block key source ((starts.get? key).getD 0))

variable {σ : Type}

/-- Compiles a block, which is the block of the given number in its document. -/
def compile (checker : Checker σ) (fs : FileSystem) (settings : Settings) (document : Text)
    (index : Nat) (block : CodeBlock) : CompileM σ BlockOutcome :=
  match block.compiledName? with
  | none => return .skipped
  | some default => do
    let folder := blockFolder settings document index
    let files := FileSet.ofBlock folder default block.value
    let compiled ← Compiler.compile checker fs files
    return .compiled {
      folder
      typed := listing folder (settings.typedVariant files document).values
      compiled := listing folder (settings.compiledVariant compiled.emitted document).values
      failures := failures document block folder default files compiled }

end CodeBlock

namespace Document

variable {σ : Type}

/-- Compiles the blocks of a document from the given number on. -/
def compileFrom (checker : Checker σ) (fs : FileSystem) (settings : Settings) (document : Text) :
    Nat → List CodeBlock → CompileM σ (List BlockOutcome)
  | _, [] => return []
  | index, block :: rest => do
    let outcome ← block.compile checker fs settings document index
    return outcome :: (← compileFrom checker fs settings document (index + 1) rest)

/-- Compiles all blocks of a document, numbered from one. -/
def compile (checker : Checker σ) (fs : FileSystem) (settings : Settings) (document : Text)
    (blocks : List CodeBlock) : CompileM σ (List BlockOutcome) :=
  compileFrom checker fs settings document 1 blocks

end Document

end FencedCode
