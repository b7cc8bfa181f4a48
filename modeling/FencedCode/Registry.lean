import FencedCode.Compiler
import FencedCode.Settings

/-!
# Registries

A registry keeps one compiler for each identity of settings. A compiler is made when it is first
asked for, from the options of the settings, and is kept until it is disposed of. When its options
cannot be loaded nothing is kept.
-/

namespace FencedCode

/-- A way to begin the state of a checker for given options. It may keep a state of its own. -/
abbrev CheckerFactory (φ σ : Type) : Type := CompilerOptions → StateM φ σ

structure Registry (φ σ : Type) where
  factoryState : φ
  compilers : Table SettingsId (Compiler σ)

namespace Registry

variable {φ σ : Type}

def new (factoryState : φ) : Registry φ σ := ⟨factoryState, Table.empty⟩

def contains (r : Registry φ σ) (id : SettingsId) : Bool := r.compilers.contains id

def size (r : Registry φ σ) : Nat := r.compilers.size

/-- A new compiler for settings whose options are loaded, and the registry that keeps it. -/
def create (factory : CheckerFactory φ σ) (settings : Settings) (options : CompilerOptions)
    (r : Registry φ σ) : Compiler σ × Registry φ σ :=
  let (state, factoryState) := factory options r.factoryState
  let compiler : Compiler σ := ⟨Workspace.ofOptions options settings.redirects, state⟩
  (compiler, ⟨factoryState, r.compilers.insert settings.id compiler⟩)

/-- The compiler for settings, made if there is none. -/
def compiler (factory : CheckerFactory φ σ) (source : ConfigSource) (settings : Settings)
    (r : Registry φ σ) : Except CompileError (Compiler σ) × Registry φ σ :=
  match r.compilers.get? settings.id with
  | some compiler => (.ok compiler, r)
  | none =>
    match settings.loadOptions source with
    | .error e => (.error e, r)
    | .ok options =>
      let (compiler, r) := create factory settings options r
      (.ok compiler, r)

/-- The registry with a compiler that has gone through requests. -/
def keep (r : Registry φ σ) (id : SettingsId) (compiler : Compiler σ) : Registry φ σ :=
  { r with compilers := r.compilers.insert id compiler }

/-- Something done with the compiler for settings. -/
def withCompiler (factory : CheckerFactory φ σ) (source : ConfigSource) (settings : Settings)
    {α : Type} (action : StateM (Compiler σ) α) (r : Registry φ σ) :
    Except CompileError α × Registry φ σ :=
  match r.compiler factory source settings with
  | (.error e, r) => (.error e, r)
  | (.ok compiler, r) =>
    let (a, compiler) := action compiler
    (.ok a, r.keep settings.id compiler)

/-- The registry without a compiler. -/
def dispose (r : Registry φ σ) (id : SettingsId) : Registry φ σ :=
  { r with compilers := r.compilers.erase id }

/-- The registry without a compiler, and whether it had one. -/
def remove (r : Registry φ σ) (id : SettingsId) : Bool × Registry φ σ :=
  ((r.compilers.get? id).isSome, r.dispose id)

/-- The registry without compilers. -/
def clear (r : Registry φ σ) : Registry φ σ := { r with compilers := Table.empty }

end Registry

end FencedCode
