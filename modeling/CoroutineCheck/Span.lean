/-!
# Spans

A span is a half-open range of byte offsets.
-/
namespace CoroutineCheck

structure Span where
  start : Nat
  stop : Nat
deriving DecidableEq, Repr, Inhabited

namespace Span

def length (a : Span) : Nat := a.stop - a.start

def isEmpty (a : Span) : Bool := a.start == a.stop

def contains (a b : Span) : Bool := a.start ≤ b.start && b.stop ≤ a.stop

theorem contains_iff {a b : Span} : a.contains b = true ↔ a.start ≤ b.start ∧ b.stop ≤ a.stop := by
  simp [contains]

@[simp] theorem contains_self (a : Span) : a.contains a = true := by
  simp [contains]

theorem contains_trans {a b c : Span} (hab : a.contains b = true) (hbc : b.contains c = true) :
    a.contains c = true := by
  rw [contains_iff] at *
  omega

def overlaps (a b : Span) : Bool := a.start < b.stop && b.start < a.stop

def cover (a b : Span) : Span := ⟨min a.start b.start, max a.stop b.stop⟩

/-- Two replacements conflict when they overlap or begin at the same place. -/
def conflicts (a b : Span) : Bool := a.overlaps b || a.start == b.start

/-- The order of replacement: by start, then by end. -/
def before (a b : Span) : Bool := a.start < b.start || (a.start == b.start && a.stop ≤ b.stop)

end Span
end CoroutineCheck
