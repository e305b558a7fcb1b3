import CoroutineCheck.Proofs.Kotlin.Operands
import Mathlib.Data.List.Basic
/-!
# What rows pass on

The outline of a row is made of the outlines of the rows that it passes on. Whatever is listed for items,
part by part, is then listed for the parts of a row's outline as for the rows passed on, one list after
the other. An annotated lambda has the outline of the literal in it.
-/
namespace CoroutineCheck.Kotlin

open Reading Outline

namespace Outline

/-- An item that is no more than its parts: neither a name, nor a scope, nor a variable. -/
def isPlain : Outline → Bool
  | word _ | lambda _ _ | classDecl _ _ _ | function _ _ _ | binding _ _ _ _ => false
  | _ => true

/-- What is listed for a plain item is listed for its parts, in order. -/
def Collects {α : Type} (f : Outline → List α) : Prop :=
  ∀ o : Outline, o.isPlain = true → f o = o.parts.flatMap f

namespace Collects

variable {α : Type} {f : Outline → List α} (hf : Collects f)

include hf

theorem single (o : Outline) (kind : String) (s : Span) : f (o.single kind s) = f o := by
  unfold Outline.single
  split
  · rfl
  · rw [hf _ rfl]
    simp [parts]

theorem expression (r : Reading) : f r.expression = f r.outline :=
  hf.single _ _ _

theorem call (s : Span) (receiver trailing : Option Outline) (callee : Word) (args : List Outline) :
    f (call s receiver callee args trailing) =
      receiver.toList.flatMap f ++ (f (word callee) ++ (args.flatMap f ++ trailing.toList.flatMap f)) := by
  rw [hf _ rfl]
  simp [parts]

theorem navigation (s : Span) (receiver : Outline) (selector : Word) :
    f (navigation s receiver selector) = f receiver ++ f (word selector) := by
  rw [hf _ rfl]
  simp [parts]

end Collects
end Outline

def Reading.Genuine (source : List Char) (r : Reading) : Prop := ∃ row : Row, row.read source = r

theorem genuine_read (source : List Char) (row : Row) :
    Throughout (Genuine source) (row.read source) :=
  Throughout.read (G := fun _ => True) (fun _ _ _ _ => trivial) (fun row _ _ => ⟨row, rfl⟩) trivial

theorem Reading.Genuine.outline {source : List Char} {r : Reading} (h : r.Genuine source) :
    r.outline = readRow source r.kind r.span r.call r.children := by
  obtain ⟨row, rfl⟩ := h
  simp only [Row.read_kind, Row.read_span, Row.read_children]
  exact Row.read_outline source row

theorem Reading.Genuine.call {source : List Char} {r : Reading} (h : r.Genuine source) : r.call =
    if r.kind == "call_expression" then readCall? source r.span r.children else none := by
  obtain ⟨row, rfl⟩ := h
  simp only [Row.read_kind, Row.read_span, Row.read_children]
  exact Row.read_call source row

theorem Reading.Genuine.outline_of_isIdentifier {source : List Char} {r : Reading}
    (h : r.Genuine source) (hid : r.isIdentifier = true) : r.outline = .word (r.word source) := by
  rw [h.outline, readRow_identifier hid]
  rfl

theorem Reading.Genuine.outline_literal {source : List Char} {r : Reading} (h : r.Genuine source)
    (hkind : r.kind = "lambda_literal") : r.outline = .lambda r.span (outlines (namedOf r.children)) := by
  rw [h.outline, hkind]
  rfl

def PropertyParts.items (p : PropertyParts) : List Outline :=
  p.before ++ p.initializer.toList ++ p.after

section Lists

variable {α : Type} {f : Outline → List α} {source : List Char} {rows : List Reading} {span : Span}

theorem flatMap_outlines (f : Outline → List α) (rs : List Reading) :
    (outlines rs).flatMap f = rs.flatMap fun r => f r.outline :=
  List.flatMap_map _ _ _

private theorem flatMap_trailingIn (f : Outline → List α) (rest : List Reading) :
    (trailingIn rest).toList.flatMap f =
      (rest.find? fun r => lambdaKinds.contains r.kind).toList.flatMap fun r => f r.outline := by
  unfold trailingIn
  cases rest.find? fun r => lambdaKinds.contains r.kind with
  | none => rfl
  | some r => rfl

theorem Outline.Collects.argumentsIn (hf : Collects f) (source : List Char) (rest : List Reading) :
    (argumentsIn source rest).flatMap f = (argumentValuesIn rest).flatMap fun v => f v.outline := by
  unfold Kotlin.argumentsIn argumentValuesIn
  cases rest.find? (·.kind == "value_arguments") with
  | none => rfl
  | some list =>
    have harg (a : Reading) : (readArgument? source a).toList.flatMap f =
        (namedOf a.children).getLast?.toList.flatMap fun v => f v.outline := by
      unfold readArgument?
      cases (namedOf a.children).getLast? with
      | none => rfl
      | some v =>
        simp only [Option.map_some, Option.toList_some, List.flatMap_singleton]
        rw [hf _ rfl]
        simp [parts, hf.expression]
    simp only [Option.map_some, Option.getD_some, readArguments, List.filterMap_eq_flatMap_toList,
      List.flatMap_assoc, harg]

private theorem CallReads.collects {o : Outline} (hr : CallReads source span rows o) (hf : Collects f)
    (h : ∀ r ∈ rows, Throughout (Genuine source) r) :
    f o = (callRows rows).flatMap fun r => f r.outline := by
  cases hr with
  | @merged head rest s receiver callee inner body hparts hkind hargs hcall hbody =>
    have hhead : head.outline = .call s receiver callee inner none := by
      rw [(throughout_callPart h (by simp [hparts])).here.outline, hkind, hcall]
      rfl
    have hnone : argumentValuesIn rest = [] := by
      rw [argumentValuesIn, hargs]
      rfl
    rw [callRows, hparts, List.flatMap_cons, hhead, hnone, List.nil_append, ← flatMap_trailingIn f, hbody,
      hf.call, hf.call]
    simp
  | @plain head rest hparts hid =>
    have hhead := (throughout_callPart h (by simp [hparts])).here.outline_of_isIdentifier hid
    rw [callRows, hparts, List.flatMap_cons, hhead, List.flatMap_append, ← hf.argumentsIn source,
      ← flatMap_trailingIn f, hf.call]
    rfl
  | @qualified head rest receiver selector hparts hkind hnav =>
    have hgenuine := throughout_callPart h (show head ∈ callParts rows by simp [hparts])
    have hhead : head.outline = .navigation head.span receiver.expression (selector.word source) := by
      rw [hgenuine.here.outline, hkind]
      change (readNavigation? source head.span head.children).getD _ = _
      rw [readNavigation?, hnav]
      rfl
    rw [callRows, hparts, List.flatMap_cons, hhead, hf.navigation, List.flatMap_append,
      ← hf.argumentsIn source, ← flatMap_trailingIn f, hf.call]
    simp

/-- The rows of a property are split in their order: nothing comes behind a value that is not there. -/
theorem Outline.Collects.propertyParts (hf : Collects f) (sawSign : Bool) (p : PropertyParts)
    (hp : p.initializer = none → p.after = []) :
    (propertyParts source sawSign p rows).items.flatMap f = p.items.flatMap f ++
      (rows.filter fun r => r.named && r.kind != "variable_declaration" && r.kind != "=").flatMap
        fun r => f r.outline := by
  induction rows generalizing sawSign p with
  | nil => simp [Kotlin.propertyParts]
  | cons r rest ih =>
    unfold Kotlin.propertyParts
    by_cases hdecl : r.kind = "variable_declaration"
    · rw [if_pos (by simpa using hdecl), ih sawSign { p with decl := readTyped? source r.children } hp,
        List.filter_cons_of_neg (by simp [hdecl])]
      rfl
    rw [if_neg (by simpa using hdecl)]
    by_cases hsign : r.kind = "="
    · rw [if_pos (by simpa using hsign), ih true p hp, List.filter_cons_of_neg (by simp [hsign])]
    rw [if_neg (by simpa using hsign)]
    by_cases hnamed : r.named = true
    · -- The row is added in one of three places.
      rw [if_neg (by simpa using hnamed), List.filter_cons_of_pos (by simp [hnamed, hdecl, hsign]),
        List.flatMap_cons]
      split
      case isTrue hfirst =>
        have hnone : p.initializer = none := by simp_all
        rw [ih sawSign _ (by simp)]
        simp [PropertyParts.items, hnone, hp hnone, hf.expression]
      case isFalse =>
        split
        case isTrue hbefore =>
          have hnone : p.initializer = none := by simpa using hbefore
          rw [ih sawSign { p with before := p.before ++ [r.outline] } hp]
          simp [PropertyParts.items, hnone, hp hnone]
        case isFalse hbehind =>
          rw [ih sawSign _ fun hnone => absurd hnone (by simpa using hbehind)]
          simp [PropertyParts.items]
    · rw [if_pos (by simpa using hnamed), ih sawSign p hp, List.filter_cons_of_neg (by simp [hnamed])]

/-- A row has the outline of the only row that it passes on, or the parts of its outline list what the rows
that it passes on list. -/
private theorem ReadsAs.collects {call : Option Outline} {kind : String} {o : Outline}
    {passed : List Reading} (hr : ReadsAs source span call rows kind o passed) (hf : Collects f)
    (hcall : ∀ q ∈ call, q.parts.flatMap f = (callRows rows).flatMap fun r => f r.outline)
    (h : ∀ r ∈ rows, Throughout (Genuine source) r) :
    (∃ found, firstIn? "lambda_literal" rows = some found ∧ o = found.outline ∧ passed = [found]) ∨
      o.parts.flatMap f = passed.flatMap fun r => f r.outline := by
  cases hr with
  | @annotated found hfound => exact .inl ⟨found, hfound, rfl, rfl⟩
  | call hc => exact .inr (hcall o hc)
  | @navigation receiver selector hn =>
    obtain ⟨_, hselector⟩ := throughout_navigation h hn
    obtain ⟨_, _, hid, _⟩ := navigationParts?_spec hn
    right
    simp [parts, hf.expression, hselector.here.outline_of_isIdentifier hid]
  | property =>
    right
    exact hf.propertyParts false ⟨none, [], none, []⟩ fun _ => rfl
  | classDecl | function | group | lambda =>
    right
    rw [← flatMap_outlines]
    rfl
  | parameter =>
    right
    rw [← flatMap_outlines]
    simp [readParameter, parts]
  | word | nothing | package | imported | sum | parenthesized =>
    right
    simp [parts, Outline.nothing, hf.expression]

end Lists

def Reading.passes (source : List Char) (r : Reading) : List Reading :=
  passedOn source r.kind r.call r.children

/-- The parts of a row's outline list what the rows that it passes on list, unless it has the outline of
the only row that it passes on, a literal in an annotated lambda. -/
theorem outline_collects {α : Type} {f : Outline → List α} (hf : Collects f) {source : List Char}
    {r : Reading} (h : Throughout (Genuine source) r) :
    (∃ found, firstIn? "lambda_literal" r.children = some found ∧ r.outline = found.outline ∧
      r.passes source = [found]) ∨
    r.outline.parts.flatMap f = (r.passes source).flatMap fun c => f c.outline := by
  rw [h.here.outline]
  refine (readRow_readsAs _ _ _ _ _).collects hf ?_ h.inside
  intro q hq
  rw [h.here.call] at hq
  split at hq
  · have hreads := callReads_of_readCall? hq
    rw [← hreads.collects hf h.inside]
    have hplain : q.isPlain = true := by cases hreads <;> rfl
    exact (hf q hplain).symm
  · cases hq

end CoroutineCheck.Kotlin
