import FencedCode.Text.Basic

/-!
# Errors

Type errors in a block are diagnostics. An error ends a whole request: a configuration that cannot
be used, a file that is missing or unreadable, or a redirect that leads nowhere.
-/

namespace FencedCode

/-- A module is redirected to a path where nothing can be resolved. -/
structure MissingRedirect where
  module : Text
  target : Text
deriving DecidableEq

namespace MissingRedirect

def message (e : MissingRedirect) : Text :=
  "external resolution for `".toList ++ e.module ++ "` not found at ".toList ++ e.target

end MissingRedirect

/-- What is wrong with a configuration. -/
inductive ConfigFault
  /-- The file is no record of the expected form. -/
  | malformed
  | chainTooDeep
  /-- The configuration of a package is extended, and no package folder holds it. -/
  | packageNotFound (target : Text)
  | described (message : Text)
deriving DecidableEq

namespace ConfigFault

def message : ConfigFault → Text
  | malformed => "<json>".toList
  | chainTooDeep => "`extends` chain too deep (cyclic?)".toList
  | packageNotFound target =>
    "`extends: \"".toList ++ target ++ "\"` not found in any node_modules folder".toList
  | described message => message

end ConfigFault

inductive CompileError
  | configuration (path : Text) (fault : ConfigFault)
  | missingFile (path : Text)
  | redirect (error : MissingRedirect)
  | io (reason : Text)
deriving DecidableEq

namespace CompileError

def message : CompileError → Text
  | configuration path fault =>
    "invalid compiler configuration ".toList ++ path ++ ": ".toList ++ fault.message
  | missingFile path => "file not found: ".toList ++ path
  | redirect error => error.message
  | io reason => "I/O error: ".toList ++ reason

/-- Whether the configuration is to blame, and not the disk. -/
def isConfiguration : CompileError → Bool
  | configuration _ _ => true
  | redirect _ => true
  | _ => false

end CompileError

end FencedCode
