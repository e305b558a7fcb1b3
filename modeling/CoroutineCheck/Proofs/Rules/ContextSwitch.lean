import CoroutineCheck.Proofs.Rules.Bodies
/-!
# The text of a rewritten builder call

A builder call is rewritten if nothing but an argument list stands between the callee and its body.
Everything from the head of the call to the end of that list is exchanged for the new call; the blanks
before the body, the body and the rest of the source stay as they are.
-/
namespace CoroutineCheck

/-- The context that the arguments of a call pass: the first value with the label `context`, else the
value of the first argument if it has no label, else the context of the caller. -/
inductive Tree.PassesContext (t : Tree) (args : List Nat) : List Char → Prop where
  | labelled {front back : List Nat} {arg value : Nat} : args = front ++ arg :: back →
      t.shape arg = .argument (some "context") value →
      (∀ a ∈ front, ∀ v, t.shape a ≠ .argument (some "context") v) → PassesContext t args (t.text value)
  | first {rest : List Nat} {arg value : Nat} : args = arg :: rest →
      t.shape arg = .argument none value →
      (∀ a ∈ args, ∀ v, t.shape a ≠ .argument (some "context") v) → PassesContext t args (t.text value)
  | current : (∀ a ∈ args, ∀ v, t.shape a ≠ .argument (some "context") v) →
      (∀ a ∈ args.head?, ∀ v, t.shape a ≠ .argument none v) →
      PassesContext t args "coroutineContext".toList

namespace SourceFile

variable {f : SourceFile}

private theorem isContextArgument_iff {arg : Nat} :
    f.isContextArgument arg = true ↔ ∃ v, f.tree.shape arg = .argument (some "context") v := by
  unfold isContextArgument
  split
  case h_1 label value hshape => simp [hshape]
  case h_2 hother =>
    simp only [Bool.false_eq_true, false_iff, not_exists]
    exact fun v => hother "context" v

private theorem isPositional_iff {arg : Nat} :
    f.isPositional arg = true ↔ ∃ v, f.tree.shape arg = .argument none v := by
  unfold isPositional
  split
  case h_1 value hshape => simp [hshape]
  case h_2 hother =>
    simp only [Bool.false_eq_true, false_iff, not_exists]
    exact hother

private theorem argumentValue_of_shape {arg value : Nat} {label : Option String}
    (h : f.tree.shape arg = .argument label value) : f.tree.argumentValue arg = value := by
  rw [Tree.argumentValue, h]

end SourceFile

namespace JobInBuilderUsage

variable {f : SourceFile} {call callee : Nat} {receiver trailing : Option Nat} {args : List Nat}

private theorem passesContext_contextText (hshape : f.tree.shape call = .call receiver callee args trailing) :
    f.tree.PassesContext args (contextText f call) := by
  have hnone (h : args.find? f.isContextArgument = none) :
      ∀ a ∈ args, ∀ v, f.tree.shape a ≠ .argument (some "context") v := by
    intro a ha v hv
    exact List.find?_eq_none.mp h a ha (SourceFile.isContextArgument_iff.mpr ⟨v, hv⟩)
  unfold contextText SourceFile.contextArgument?
  rw [hshape]
  simp only
  cases hlabelled : args.find? f.isContextArgument with
  | some arg =>
    obtain ⟨harg, front, back, hargs, hfront⟩ := List.find?_eq_some_iff_append.mp hlabelled
    obtain ⟨value, hvalue⟩ := SourceFile.isContextArgument_iff.mp harg
    simp only [Option.some_or, Option.map_some, SourceFile.argumentValue_of_shape hvalue]
    refine .labelled hargs hvalue fun a ha v hv => ?_
    have hother := hfront a ha
    rw [SourceFile.isContextArgument_iff.mpr ⟨v, hv⟩] at hother
    cases hother
  | none =>
    rw [Option.none_or]
    cases hfirst : args.head?.filter f.isPositional with
    | some arg =>
      obtain ⟨hhead, harg⟩ := Option.filter_eq_some_iff.mp hfirst
      obtain ⟨rest, hargs⟩ := List.head?_eq_some_iff.mp hhead
      obtain ⟨value, hvalue⟩ := SourceFile.isPositional_iff.mp harg
      simp only [Option.map_some, SourceFile.argumentValue_of_shape hvalue]
      exact .first hargs hvalue (hnone hlabelled)
    | none =>
      refine .current (hnone hlabelled) fun a ha v hv => ?_
      have hpositional := SourceFile.isPositional_iff.mpr ⟨v, hv⟩
      exact Option.filter_eq_none_iff.mp hfirst a ha hpositional

/-- The text between a callee and the body of its call: an argument list or nothing, then blanks. -/
inductive ArgumentGap : (list space : List Char) → Prop where
  | bare {space : List Char} : (∀ c ∈ space, Text.isBlank c = true) → ArgumentGap [] space
  | list {lead inner space : List Char} : (∀ c ∈ lead, Text.isBlank c = true) →
      (∀ c ∈ space, Text.isBlank c = true) → ArgumentGap (lead ++ '(' :: (inner ++ [')'])) space

namespace ArgumentGap

variable {list space : List Char}

theorem blank_space (h : ArgumentGap list space) : ∀ c ∈ space, Text.isBlank c = true := by
  cases h with
  | bare hspace => exact hspace
  | list _ hspace => exact hspace

private theorem list_cases (h : ArgumentGap list space) : list = [] ∨ list.getLast? = some ')' := by
  cases h with
  | bare => exact .inl rfl
  | list => exact .inr (by simp [List.getLast?_cons])

private theorem trim_cases (h : ArgumentGap list space) : (∀ c ∈ list ++ space, Text.isBlank c = true) ∨
    ∃ inner, Text.trim (list ++ space) = '(' :: (inner ++ [')']) := by
  cases h with
  | bare hspace => exact .inl hspace
  | @list lead inner _ hlead hspace =>
    refine .inr ⟨inner, ?_⟩
    rw [Text.trim_append_of_blank hlead hspace]
    have hparens : Text.isBlank '(' = false ∧ Text.isBlank ')' = false := by decide
    exact Text.trim_eq_self (by simp [hparens.1]) (by simp [List.getLast?_cons, hparens.2])

private theorem argumentListEnd?_eq (h : ArgumentGap list space) :
    argumentListEnd? (list ++ space) = some (Text.byteLength list) := by
  unfold argumentListEnd?
  simp only
  cases h with
  | bare hspace =>
    rw [List.nil_append, Text.trim_eq_nil_iff.mpr hspace]
    rfl
  | @list lead inner _ hlead hspace =>
    have hgap : ArgumentGap (lead ++ '(' :: (inner ++ [')'])) space := .list hlead hspace
    have hcut : Text.cutLast? ')' (lead ++ '(' :: (inner ++ [')']) ++ space) =
        some (lead ++ '(' :: inner, space) := by
      rw [Text.cutLast?_eq_some_iff]
      exact ⟨by simp, fun hm => absurd (hspace _ hm) (by decide)⟩
    obtain hblank | ⟨inner', htrim⟩ := hgap.trim_cases
    · exact absurd (hblank '(' (by simp)) (by decide)
    · rw [htrim, hcut, if_neg (by simp), if_pos (by simp [List.getLast?_cons])]
      simp only [Option.map_some, Text.byteLength_append, Text.byteLength]
      rfl

end ArgumentGap

private theorem exists_argumentGap {gap : List Char} (h : (∀ c ∈ gap, Text.isBlank c = true) ∨
    ∃ inner, Text.trim gap = '(' :: (inner ++ [')'])) :
    ∃ list space, ArgumentGap list space ∧ gap = list ++ space := by
  obtain hblank | ⟨inner, htrim⟩ := h
  · exact ⟨[], gap, .bare hblank, rfl⟩
  · obtain ⟨lead, back, hgap, hlead, hback⟩ := Text.trim_spec gap
    rw [htrim] at hgap
    exact ⟨_, back, .list hlead hback, hgap⟩

private theorem isSome_argumentListEnd?_iff {gap : List Char} :
    (argumentListEnd? gap).isSome = true ↔ (∀ c ∈ gap, Text.isBlank c = true) ∨
      ∃ inner, Text.trim gap = '(' :: (inner ++ [')']) := by
  constructor
  · intro h
    unfold argumentListEnd? at h
    simp only at h
    split at h
    case isTrue hempty => exact .inl (Text.trim_eq_nil_iff.mp (List.isEmpty_iff.mp hempty))
    case isFalse =>
      split at h
      case isTrue hparens =>
        rw [Bool.and_eq_true, beq_iff_eq, beq_iff_eq] at hparens
        obtain ⟨rest, htrim⟩ := List.head?_eq_some_iff.mp hparens.1
        obtain ⟨front, hfront⟩ := List.getLast?_eq_some_iff.mp hparens.2
        -- The two parentheses are different characters, so there are two of them.
        cases front with
        | nil => rw [htrim] at hfront; cases hfront
        | cons c inner =>
          rw [htrim] at hfront
          obtain ⟨_, hrest⟩ := List.cons.inj hfront
          exact .inr ⟨inner, by rw [htrim, hrest]; rfl⟩
      case isFalse => cases h
  · intro h
    obtain ⟨list, space, hgap, rfl⟩ := exists_argumentGap h
    rw [hgap.argumentListEnd?_eq]
    rfl

private theorem contextSwitch?_eq {gap : List Char}
    (hshape : f.tree.shape call = .call receiver callee args trailing)
    (hgap : Text.slice? f.content (f.tree.span callee).stop (bodyStart f call trailing) = some gap) :
    contextSwitch? f call = (argumentListEnd? gap).map fun n =>
      Fix.replace "Replace launch/async call by withContext"
        ⟨(f.tree.span (receiver.getD callee)).start, (f.tree.span callee).stop + n⟩
        (String.ofList (switchText f call)) := by
  unfold contextSwitch?
  rw [hshape]
  rw [Option.map_eq_bind]
  cases trailing with
  | none =>
    rw [bodyStart] at hgap
    simp only [hgap, Option.bind_eq_bind, Option.bind_some]
    rfl
  | some l =>
    rw [bodyStart] at hgap
    simp only [hgap, Option.bind_eq_bind, Option.bind_some]
    rfl

private theorem callee_le_bodyStart (hs : f.tree.Spaced)
    (hshape : f.tree.shape call = .call receiver callee args trailing)
    (horder : (f.tree.shape call).fromCallee.Pairwise fun a b =>
      (f.tree.span a).stop ≤ (f.tree.span b).start) :
    (f.tree.span callee).stop ≤ bodyStart f call trailing ∧
      Text.isBoundary f.content (bodyStart f call trailing) = true := by
  cases trailing with
  | none =>
    have hunder : f.tree.Under call callee :=
      Tree.under_of_mem_parts (by simp [hshape, Shape.parts])
    exact ⟨(Span.contains_iff.mp (hs.nested.contains_under hunder)).2, (hs.on_source call).stop_boundary⟩
  | some l =>
    rw [hshape, Shape.fromCallee] at horder
    exact ⟨List.rel_of_pairwise_cons horder (by simp), (hs.on_source l).start_boundary⟩

/-- The source of a file around a call: what stands before the call, its head up to the end of the
callee, the gap before the body, and the rest. -/
private theorem exists_gap (hs : f.tree.Spaced)
    (hshape : f.tree.shape call = .call receiver callee args trailing)
    (horder : (f.tree.shape call).fromCallee.Pairwise fun a b =>
      (f.tree.span a).stop ≤ (f.tree.span b).start) :
    ∃ before head gap after, f.content = before ++ (head ++ (gap ++ after)) ∧
      Text.byteLength before = (f.tree.span (receiver.getD callee)).start ∧
      Text.byteLength (before ++ head) = (f.tree.span callee).stop ∧
      Text.byteLength (before ++ head ++ gap) = bodyStart f call trailing := by
  have hcallee := hs.on_source callee
  obtain ⟨hle, hbody⟩ := callee_le_bodyStart hs hshape horder
  obtain ⟨gap, hgap⟩ := Text.slice?_isSome hle hcallee.stop_boundary hbody
  obtain ⟨upTo, after, hcontent, hupTo, hstop⟩ := Text.slice?_eq_some_iff.mp hgap
  obtain ⟨before, rest, hbefore, hstart⟩ :=
    Text.isBoundary_iff.mp (hs.on_source (receiver.getD callee)).start_boundary
  have hhead := hs.head_le_callee hshape
  obtain ⟨head, rfl, _⟩ := Text.front_of_le (hbefore.symm.trans hcontent) (by omega)
  refine ⟨before, head, gap, after, ?_, hstart, hupTo, ?_⟩
  · rw [SourceFile.content, hcontent, List.append_assoc]
  · rw [Text.byteLength_append, hupTo, hstop]

/-- Rewriting a builder call, said of the text. With the source cut at the head of the call, behind the
callee and before the body, a call has a rewriting exactly when the gap before the body is blank or an
argument list. The rewriting puts the new call with the context that the arguments pass in the place of
everything from the head to the end of the argument list; of the gap only the blanks before the body are
kept, and all text outside is unchanged. -/
theorem contextSwitch_text (hs : f.tree.Spaced)
    (hshape : f.tree.shape call = .call receiver callee args trailing)
    (horder : (f.tree.shape call).fromCallee.Pairwise fun a b =>
      (f.tree.span a).stop ≤ (f.tree.span b).start) :
    ∃ before head gap after, f.content = before ++ (head ++ (gap ++ after)) ∧
      Text.byteLength before = (f.tree.span (receiver.getD callee)).start ∧
      Text.byteLength (before ++ head) = (f.tree.span callee).stop ∧
      Text.byteLength (before ++ head ++ gap) = bodyStart f call trailing ∧
      ((contextSwitch? f call).isSome = true ↔ (∀ c ∈ gap, Text.isBlank c = true) ∨
        ∃ inner, Text.trim gap = '(' :: (inner ++ [')'])) ∧
      ∀ fix, contextSwitch? f call = some fix → ∃ context list space,
        f.tree.PassesContext args context ∧ gap = list ++ space ∧
          (∀ c ∈ space, Text.isBlank c = true) ∧ (list = [] ∨ list.getLast? = some ')') ∧
          fix.apply f.tree.source = .ok (String.ofList
            (before ++ ("withContext(".toList ++ context ++ [')']) ++ (space ++ after))) := by
  obtain ⟨before, head, gap, after, hcontent, hbefore, hhead, hgap⟩ := exists_gap hs hshape horder
  have hslice : Text.slice? f.content (f.tree.span callee).stop (bodyStart f call trailing) =
      some gap := by
    refine Text.slice?_eq_some_iff.mpr ⟨before ++ head, after, by simp [hcontent], hhead, ?_⟩
    rw [← hgap, Text.byteLength_append _ gap, hhead]
  have hswitch := contextSwitch?_eq hshape hslice
  refine ⟨before, head, gap, after, hcontent, hbefore, hhead, hgap, ?_, ?_⟩
  · rw [hswitch, Option.isSome_map, isSome_argumentListEnd?_iff]
  · intro fix hfix
    rw [hswitch] at hfix
    obtain ⟨n, hn, rfl⟩ := Option.map_eq_some_iff.mp hfix
    obtain ⟨list, space, hlist, rfl⟩ :=
      exists_argumentGap (isSome_argumentListEnd?_iff.mp (Option.isSome_of_eq_some hn))
    obtain rfl : Text.byteLength list = n := Option.some.inj (hlist.argumentListEnd?_eq.symm.trans hn)
    refine ⟨contextText f call, list, space, passesContext_contextText hshape, rfl,
      hlist.blank_space, hlist.list_cases, ?_⟩
    -- The edit takes out the head and the argument list.
    have hsource : f.tree.source.toList = before ++ (head ++ list ++ (space ++ after)) := by
      rw [← SourceFile.content, hcontent]
      simp only [List.append_assoc]
    have hcut : (f.tree.span (receiver.getD callee)).start + Text.byteLength (head ++ list) =
        (f.tree.span callee).stop + Text.byteLength list := by
      rw [← hbefore, ← hhead, Text.byteLength_append, Text.byteLength_append, Nat.add_assoc]
    have hnew : (String.ofList (switchText f call)).toList =
        "withContext(".toList ++ contextText f call ++ [')'] := String.toList_ofList
    rw [Fix.apply_replace hsource, hnew]
    · exact hbefore
    · exact hcut

/-- A call with a receiver of two bytes and two labelled arguments, and its body on the next line. -/
def labelledLaunch : String := "é.launch(start = s, context = c)\n\x7b\x7d"

def labelledLaunchRows : Kotlin.Row :=
  .over "source_file" 0 36 [.over "call_expression" 0 36 [
    .over "navigation_expression" 0 9 [.over "identifier" 0 2 [], .over "identifier" 3 9 []],
    .over "value_arguments" 9 33 [
      .over "value_argument" 10 19 [.over "identifier" 10 15 [], .token "=" 16 17,
        .over "identifier" 18 19 []],
      .over "value_argument" 21 32 [.over "identifier" 21 28 [], .token "=" 29 30,
        .over "identifier" 31 32 []]],
    .over "annotated_lambda" 34 36 [.over "lambda_literal" 34 36 []]]]

def labelledLaunchFile : SourceFile :=
  ⟨⟨"labelled.kt"⟩, (Kotlin.layout labelledLaunch labelledLaunchRows).tree, Rules.launchResolver, []⟩

theorem contextSwitch_text_labelledLaunch :
    labelledLaunchFile.tree.Spaced ∧
    labelledLaunchFile.tree.shape 7 = .call (some 0) 1 [3, 5] (some 6) ∧
    (labelledLaunchFile.tree.shape 7).fromCallee.Pairwise (fun a b =>
      (labelledLaunchFile.tree.span a).stop ≤ (labelledLaunchFile.tree.span b).start) ∧
    (contextSwitch? labelledLaunchFile 7).isSome = true ∧
    ∃ before head gap after, labelledLaunch.toList = before ++ (head ++ (gap ++ after)) ∧
      Text.byteLength before = 0 ∧ Text.byteLength (before ++ head) = 9 ∧
      Text.byteLength (before ++ head ++ gap) = 34 ∧
      ∀ fix, contextSwitch? labelledLaunchFile 7 = some fix → ∃ context list space,
        labelledLaunchFile.tree.PassesContext [3, 5] context ∧ gap = list ++ space ∧
          fix.apply labelledLaunch = .ok (String.ofList
            (before ++ ("withContext(".toList ++ context ++ [')']) ++ (space ++ after))) := by
  have hplaced : labelledLaunchRows.WellPlaced labelledLaunch.toList := by decide +kernel
  have hspaced := Kotlin.layout_spaced hplaced
  have hshape : labelledLaunchFile.tree.shape 7 = .call (some 0) 1 [3, 5] (some 6) := by
    decide +kernel
  have horder : (labelledLaunchFile.tree.shape 7).fromCallee.Pairwise (fun a b =>
      (labelledLaunchFile.tree.span a).stop ≤ (labelledLaunchFile.tree.span b).start) := by
    decide +kernel
  have hspans : labelledLaunchFile.tree.span 0 = ⟨0, 2⟩ ∧ labelledLaunchFile.tree.span 1 = ⟨3, 9⟩ ∧
      labelledLaunchFile.tree.span 6 = ⟨34, 36⟩ := by decide +kernel
  obtain ⟨before, head, gap, after, hcontent, hbefore, hhead, hgap, _, hfix⟩ :=
    contextSwitch_text hspaced hshape horder
  rw [Option.getD_some, hspans.1] at hbefore
  rw [hspans.2.1] at hhead
  rw [bodyStart, hspans.2.2] at hgap
  refine ⟨hspaced, hshape, horder, by decide +kernel, before, head, gap, after, hcontent, hbefore,
    hhead, hgap, fun fix h => ?_⟩
  obtain ⟨context, list, space, hcontext, hlist, _, _, happly⟩ := hfix fix h
  exact ⟨context, list, space, hcontext, hlist, happly⟩

example : (contextSwitch? labelledLaunchFile 7).map (fun fix => (fix.apply labelledLaunch).toOption) =
    some (some "withContext(c)\n\x7b\x7d") := by
  decide +kernel

end JobInBuilderUsage
end CoroutineCheck
