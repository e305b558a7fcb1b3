import CoroutineCheck.Fix.Basic
/-!
# Batches of fixes

Fixes are taken in order. One that cannot be applied on its own, or that conflicts with an edit
accepted before it, is skipped with the reason; all others are applied together.
-/
namespace CoroutineCheck

/-- What became of a list of fixes: the accepted edits, and the positions of applied and skipped
fixes. -/
structure Triage where
  accepted : List Edit
  applied : List Nat
  skipped : List (Nat × Rejection)
deriving DecidableEq, Repr

structure Batch where
  text : String
  applied : List Nat
  skipped : List (Nat × Rejection)
deriving DecidableEq, Repr

namespace Fix

def clash? (accepted : List Edit) (f : Fix) : Option Rejection :=
  f.edits.findSome? fun e =>
    (accepted.find? (·.span.conflicts e.span)).map fun prior => .overlap prior.span e.span

def skipReason? (source : List Char) (accepted : List Edit) (f : Fix) : Option Rejection :=
  match f.rejection? source with
  | some r => some r
  | none => f.clash? accepted

def triage (source : List Char) : (index : Nat) → (accepted : List Edit) → List Fix → Triage
  | _, accepted, [] => ⟨accepted, [], []⟩
  | i, accepted, f :: fs =>
    match f.skipReason? source accepted with
    | some r =>
      let t := triage source (i + 1) accepted fs
      ⟨t.accepted, t.applied, (i, r) :: t.skipped⟩
    | none =>
      let t := triage source (i + 1) (accepted ++ f.edits) fs
      ⟨t.accepted, i :: t.applied, t.skipped⟩

/-- Apply every fix that can be applied, in order. -/
def applyAll (source : String) (fixes : List Fix) : Batch :=
  let t := triage source.toList 0 [] fixes
  ⟨String.ofList ((Edit.splice? source.toList t.accepted).getD source.toList), t.applied, t.skipped⟩

end Fix
end CoroutineCheck
