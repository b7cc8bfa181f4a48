import FencedCode.Module.Basic

/-!
# Remembered resolutions

The same names are imported again and again, so each outcome is kept for the importing file and
the name as they were written. A failure is kept like a success.
-/

namespace FencedCode

structure ResolutionMemo where
  outcomes : Table (Text × Text) (Option ResolvedModule)
  hits : Nat
  misses : Nat

namespace ResolutionMemo

def empty : ResolutionMemo := ⟨Table.empty, 0, 0⟩

/-- The outcome that is kept for a name in a file. -/
def kept? (memo : ResolutionMemo) (importer name : Text) : Option (Option ResolvedModule) :=
  memo.outcomes.get? (importer, name)

/-- One more outcome that was recalled. -/
def countHit (memo : ResolutionMemo) : ResolutionMemo := { memo with hits := memo.hits + 1 }

/-- One more outcome that had to be found, now kept. -/
def keep (memo : ResolutionMemo) (importer name : Text) (outcome : Option ResolvedModule) :
    ResolutionMemo :=
  { memo with
    outcomes := memo.outcomes.insert (importer, name) outcome
    misses := memo.misses + 1 }

/-- The outcome kept, or else `found`, which is then kept. -/
def outcome (memo : ResolutionMemo) (importer name : Text) (found : Option ResolvedModule) :
    Option ResolvedModule × ResolutionMemo :=
  match memo.kept? importer name with
  | some kept => (kept, memo.countHit)
  | none => (found, memo.keep importer name found)

def size (memo : ResolutionMemo) : Nat := memo.outcomes.size

theorem kept?_keep (memo : ResolutionMemo) (importer name : Text)
    (outcome : Option ResolvedModule) :
    (memo.keep importer name outcome).kept? importer name = some outcome := by
  simp [kept?, keep]

end ResolutionMemo

end FencedCode
