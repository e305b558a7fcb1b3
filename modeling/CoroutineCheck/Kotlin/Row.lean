import CoroutineCheck.Span
import CoroutineCheck.Text.Bytes
/-!
# Parser rows

The tree a parser gives for a file. Rows are known by the kind of the grammar's rule; anonymous
rows are punctuation and keywords.
-/
namespace CoroutineCheck.Kotlin

inductive Side where
  | left
  | right
deriving DecidableEq, Repr

inductive Row where
  | mk (kind : String) (named : Bool) (span : Span) (side : Option Side) (children : List Row)
deriving Repr, Inhabited

namespace Row

def kind : Row → String
  | mk k _ _ _ _ => k

def named : Row → Bool
  | mk _ n _ _ _ => n

def span : Row → Span
  | mk _ _ s _ _ => s

def side : Row → Option Side
  | mk _ _ _ d _ => d

def children : Row → List Row
  | mk _ _ _ _ cs => cs

end Row

/-- A piece of the source, empty where the span is none. -/
def pieceOf (source : List Char) (span : Span) : List Char :=
  (Text.slice? source span.start span.stop).getD []

def identifierKinds : List String := ["identifier", "simple_identifier", "type_identifier"]

/-- Rows of types, which hold no expressions. -/
def typeKinds : List String :=
  ["user_type", "nullable_type", "non_nullable_type", "function_type", "parenthesized_type",
   "type_arguments", "type_parameters", "type_constraints", "type_reference", "receiver_type"]

def commentKinds : List String := ["line_comment", "block_comment", "multiline_comment", "comment"]

def delegationKinds : List String := ["delegation_specifiers", "delegation_specifier"]

def lambdaKinds : List String := ["annotated_lambda", "lambda_literal"]

end CoroutineCheck.Kotlin
