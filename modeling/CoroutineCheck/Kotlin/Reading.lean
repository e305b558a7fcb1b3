import CoroutineCheck.Kotlin.Outline
import CoroutineCheck.Kotlin.Row
import CoroutineCheck.Text.Lines
/-!
# Reading rows

A reading is a row together with its outline, and with the readings of its children. Rows are read
bottom up, so that a row can look at everything below it. Kinds without a meaning of their own are
the group of their children; types and comments are nothing.
-/
namespace CoroutineCheck.Kotlin

inductive Reading where
  | mk (kind : String) (named : Bool) (span : Span) (side : Option Side) (call : Option Outline)
      (outline : Outline) (children : List Reading)
deriving Repr, Inhabited

namespace Reading

def kind : Reading → String
  | mk k _ _ _ _ _ _ => k

def named : Reading → Bool
  | mk _ n _ _ _ _ _ => n

def span : Reading → Span
  | mk _ _ s _ _ _ _ => s

def side : Reading → Option Side
  | mk _ _ _ d _ _ _ => d

def call : Reading → Option Outline
  | mk _ _ _ _ c _ _ => c

def outline : Reading → Outline
  | mk _ _ _ _ _ o _ => o

def children : Reading → List Reading
  | mk _ _ _ _ _ _ cs => cs

def isIdentifier (r : Reading) : Bool := identifierKinds.contains r.kind

def isComment (r : Reading) : Bool := commentKinds.contains r.kind

def word (source : List Char) (r : Reading) : Word :=
  ⟨String.ofList (pieceOf source r.span), r.span⟩

/-- The row as an expression, which is exactly one node. -/
def expression (r : Reading) : Outline := r.outline.single r.kind r.span

def namedOf (rs : List Reading) : List Reading := rs.filter named

def outlines (rs : List Reading) : List Outline := rs.map outline

mutual

def descendant? (kind : String) : Reading → Option Reading
  | mk _ _ _ _ _ _ cs => firstIn? kind cs

/-- The first named row of a kind in a list of rows or below them. -/
def firstIn? (kind : String) : List Reading → Option Reading
  | [] => none
  | r :: rest =>
    if r.named then
      if r.kind == kind then some r else (descendant? kind r).or (firstIn? kind rest)
    else firstIn? kind rest

end

end Reading

open Reading

def readPackage? (source : List Char) (span : Span) (rows : List Reading) : Option Package :=
  ((namedOf rows).find? fun r => r.kind == "qualified_identifier" || r.kind == "identifier").map
    fun r => ⟨(Text.position source span.start).line,
      String.ofList (Text.squeeze (pieceOf source r.span))⟩

def navigationParts? (rows : List Reading) : Option (Reading × Reading) :=
  match namedOf rows with
  | receiver :: second :: rest =>
    let last := (second :: rest).getLast (by simp)
    if last.kind == "navigation_suffix" then
      ((namedOf last.children).find? isIdentifier).map (receiver, ·)
    else if last.isIdentifier then some (receiver, last)
    else none
  | _ => none

def readNavigation? (source : List Char) (span : Span) (rows : List Reading) : Option Outline :=
  (navigationParts? rows).map fun (receiver, selector) =>
    .navigation span receiver.expression (selector.word source)

/-- An argument: its value is the last row, and with `=` the first identifier is its label. -/
def readArgument? (source : List Char) (r : Reading) : Option Outline :=
  (namedOf r.children).getLast?.map fun value =>
    let label :=
      if r.children.any (·.kind == "=") then
        ((namedOf r.children).find? isIdentifier).map fun w => (w.word source).text
      else none
    .argument r.span label value.expression

def readArguments (source : List Char) (r : Reading) : List Outline :=
  ((namedOf r.children).filter (·.kind == "value_argument")).filterMap (readArgument? source)

/-- The named rows of a call: those of a suffix stand for it, and comments do not count. -/
def callParts (rows : List Reading) : List Reading :=
  (namedOf rows).flatMap fun r =>
    if r.kind == "call_suffix" then namedOf r.children else if r.isComment then [] else [r]

def readCallee? (source : List Char) (span : Span) (head : Reading) (args : List Outline)
    (lambda : Option Outline) : Option Outline :=
  if head.isIdentifier then some (.call span none (head.word source) args lambda)
  else if head.kind == "navigation_expression" then
    (navigationParts? head.children).map fun (receiver, selector) =>
      .call span (some receiver.expression) (selector.word source) args lambda
  else none

/-- The call of a call row. `f(x) { }` is a row for `f(x)` inside a row with the lambda, and is read
as one call. -/
def readCall? (source : List Char) (span : Span) (rows : List Reading) : Option Outline :=
  match callParts rows with
  | [] => none
  | head :: rest =>
    let args := rest.find? (·.kind == "value_arguments")
    let lambda := (rest.find? fun r => lambdaKinds.contains r.kind).map outline
    if head.kind == "call_expression" && args.isNone && lambda.isSome then
      match head.call with
      | some (.call _ receiver callee inner none) => some (.call span receiver callee inner lambda)
      | _ => none
    else
      readCallee? source span head ((args.map (readArguments source)).getD []) lambda

/-- The two sides of an operation: the rows marked so, else the only two there are. -/
def operationSides? (rows : List Reading) : Option (Reading × Reading) :=
  match rows.find? (·.side == some .left), rows.find? (·.side == some .right) with
  | some l, some r => some (l, r)
  | _, _ =>
    match (namedOf rows).filter (!·.isComment) with
    | [l, r] => some (l, r)
    | _ => none

/-- A sum; other operations are no more than their operands. -/
def readSum? (source : List Char) (span : Span) (rows : List Reading) : Option Outline := do
  let sign ← rows.find? (!·.named)
  let op := Text.trim (pieceOf source sign.span)
  if op == ['+'] then
    let (l, r) ← operationSides? rows
    return .binary span (String.ofList op) l.expression r.expression
  else none

/-- The name of a supertype, from the text of its first type row, up to a blank. -/
def readSupertype (source : List Char) (r : Reading) : String :=
  let text := match r.descendant? "user_type" with
    | some t => pieceOf source t.span
    | none => pieceOf source r.span
  typeName (Text.firstWord text)

def readSupertypes (source : List Char) (rows : List Reading) : List String :=
  ((namedOf rows).flatMap fun r =>
    if r.kind == "delegation_specifiers" then
      ((namedOf r.children).filter
        fun c => Text.contains "delegation_specifier".toList c.kind.toList).map (readSupertype source)
    else if r.kind == "delegation_specifier" then [readSupertype source r]
    else []).filter (· != "")

def readClass (source : List Char) (kind : String) (span : Span) (rows : List Reading) : Outline :=
  let name := match (namedOf rows).find? isIdentifier with
    | some w => (w.word source).text
    | none => "<anonymous>"
  let body := ((namedOf rows).eraseP isIdentifier).filter (!delegationKinds.contains ·.kind)
  .classDecl span ⟨name, kind == "object_declaration", readSupertypes source rows⟩ (outlines body)

def rowsAfter? (kind : String) : List Reading → Option (List Reading)
  | [] => none
  | r :: rest => if r.kind == kind then some rest else rowsAfter? kind rest

def typeAfterColon? (source : List Char) (rows : List Reading) : Option String := do
  let rest ← rowsAfter? ":" rows
  let t ← rest.find? named
  return typeName (pieceOf source t.span)

def readTyped? (source : List Char) (rows : List Reading) : Option Typed :=
  (rows.find? isIdentifier).map fun w => ⟨(w.word source).text, typeAfterColon? source rows⟩

def readFunction (source : List Char) (span : Span) (rows : List Reading) : Outline :=
  let returns := (rowsAfter? "function_value_parameters" rows).bind (typeAfterColon? source)
  let decl := (rows.find? isIdentifier).map fun w => ⟨(w.word source).text, returns⟩
  .function span decl (outlines (namedOf (rows.eraseP isIdentifier)))

/-- The parts of a property: rows before its value, the value after `=`, and rows behind it. -/
structure PropertyParts where
  decl : Option Typed
  before : List Outline
  initializer : Option Outline
  after : List Outline

/-- Take the rows of a property in order; `sawSign` once `=` has been passed. -/
def propertyParts (source : List Char) : (sawSign : Bool) → PropertyParts → List Reading →
    PropertyParts
  | _, p, [] => p
  | sawSign, p, r :: rest =>
    if r.kind == "variable_declaration" then
      propertyParts source sawSign { p with decl := readTyped? source r.children } rest
    else if r.kind == "=" then propertyParts source true p rest
    else if !r.named then propertyParts source sawSign p rest
    else if sawSign && p.initializer.isNone then
      propertyParts source sawSign { p with initializer := some r.expression } rest
    else if p.initializer.isNone then
      propertyParts source sawSign { p with before := p.before ++ [r.outline] } rest
    else propertyParts source sawSign { p with after := p.after ++ [r.outline] } rest

def readProperty (source : List Char) (rows : List Reading) : Outline :=
  let p := propertyParts source false ⟨none, [], none, []⟩ rows
  .binding p.decl p.before p.initializer p.after

def readParameter (source : List Char) (rows : List Reading) : Outline :=
  .binding (readTyped? source rows) (outlines ((namedOf rows).eraseP isIdentifier)) none []

def readLambda (kind : String) (span : Span) (rows : List Reading) : Outline :=
  let literal := if kind == "annotated_lambda" then firstIn? "lambda_literal" rows else none
  match literal with
  | some r => r.outline
  | none => .lambda span (outlines (namedOf rows))

/-- What a row of a kind stands for, given its children and the call it makes up. -/
def readRow (source : List Char) (kind : String) (span : Span) (call : Option Outline)
    (rows : List Reading) : Outline :=
  let group : Outline := .group (outlines (namedOf rows))
  if identifierKinds.contains kind then .word ⟨String.ofList (pieceOf source span), span⟩
  else if typeKinds.contains kind || commentKinds.contains kind then .nothing
  else match kind with
    | "package_header" => .package (readPackage? source span rows)
    | "import" | "import_header" =>
      match Import.ofText? (pieceOf source span) (Text.position source span.start).line with
      | some i => .imported i
      | none => .nothing
    | "call_expression" => call.getD group
    | "navigation_expression" => (readNavigation? source span rows).getD group
    | "binary_expression" | "additive_expression" => (readSum? source span rows).getD group
    | "parenthesized_expression" =>
      match (namedOf rows).head? with
      | some inner => .parenthesized span inner.expression
      | none => .nothing
    | "lambda_literal" | "annotated_lambda" => readLambda kind span rows
    | "class_declaration" | "object_declaration" => readClass source kind span rows
    | "function_declaration" => readFunction source span rows
    | "property_declaration" => readProperty source rows
    | "parameter" | "class_parameter" => readParameter source rows
    | _ => group

mutual

def Row.read (source : List Char) : Row → Reading
  | .mk kind named span side children =>
    let rows := readAll source children
    let call := if kind == "call_expression" then readCall? source span rows else none
    .mk kind named span side call (readRow source kind span call rows) rows

def readAll (source : List Char) : List Row → List Reading
  | [] => []
  | r :: rest => r.read source :: readAll source rest

end

def outlineOf (source : List Char) (root : Row) : List Outline :=
  outlines (namedOf (readAll source root.children))

end CoroutineCheck.Kotlin
