import FencedCode.Json.Record
import FencedCode.Module.Basic

/-!
# Redirects in JSON

A redirect is written as a record of its target and the identity of the package. The file inside the
package may be left out.
-/

namespace FencedCode

namespace PackageId

def ofSlot? : Json.Slot → Option PackageId
  | .given tree => do
    match ← tree.slots? ["name".toList, "subModuleName".toList, "version".toList] with
    | [name, inner, version] =>
      return ⟨← name.text?, ← inner.textOrEmpty?, ← version.text?⟩
    | _ => none
  | _ => none

end PackageId

/-- The redirect that a document holds. -/
def Redirect.ofText? (text : Text) : Option Redirect := do
  let tree ← Json.Tree.ofText? text
  match ← tree.slots? ["resolvedPath".toList, "packageId".toList] with
  | [target, package] => return ⟨← target.text?, ← PackageId.ofSlot? package⟩
  | _ => none

end FencedCode
