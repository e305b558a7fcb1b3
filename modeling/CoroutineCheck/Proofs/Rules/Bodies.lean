import CoroutineCheck.Proofs.Rules.Extent
/-!
# Bodies of rewritten builder calls

Turning a builder call into a `withContext` call replaces everything from the receiver to the end of
the argument list by the context alone. A trailing lambda stands behind the edit and is kept, and a
lambda that is passed as the context is written again. Any other lambda among the arguments is part
of what is cut out.
-/
namespace CoroutineCheck

namespace Shape

def fromCallee : Shape → List Nat
  | call _ c args l => c :: (args ++ l.toList)
  | _ => []

def trailing? : Shape → Option Nat
  | call _ _ _ l => l
  | _ => none

end Shape

namespace Tree

/-- Spans nest, the parts of a call follow one another, and lambdas stand in braces. -/
structure WellFormed (t : Tree) : Prop extends t.Spaced where
  calls_in_order : ∀ id, (t.shape id).fromCallee.Pairwise fun a b => (t.span a).stop ≤ (t.span b).start
  lambdas_braced : ∀ id, t.kind id = .lambda →
    (t.text id).head? = some '{' ∧ (t.text id).getLast? = some '}'

/-- A lambda that belongs to a call: the trailing one, or the value of an argument. -/
def IsBody (t : Tree) (call l : Nat) : Prop :=
  (t.shape call).trailing? = some l ∨
    t.kind l = .lambda ∧ ∃ r c args t', t.shape call = .call r c args t' ∧
      ∃ arg ∈ args, t.argumentValue arg = l

theorem WellFormed.of_lt {t : Tree} (hs : t.Spaced)
    (horder : ∀ id < t.size,
      (t.shape id).fromCallee.Pairwise fun a b => (t.span a).stop ≤ (t.span b).start)
    (hbraced : ∀ id < t.size, t.kind id = .lambda →
      (t.text id).head? = some '{' ∧ (t.text id).getLast? = some '}') : t.WellFormed := by
  have hother {id : Nat} (hid : ¬ id < t.size) : t.shape id = .other "" := by
    rw [shape, node, Arena.node_of_size_le (Nat.not_lt.mp hid)]
  refine ⟨hs, fun id => ?_, fun id hkind => ?_⟩
  · by_cases hid : id < t.size
    · exact horder id hid
    · rw [hother hid]
      exact .nil
  · by_cases hid : id < t.size
    · exact hbraced id hid hkind
    · rw [kind, hother hid] at hkind
      cases hkind

theorem slice?_text {t : Tree} (h : t.Spaced) (id : Nat) :
    Text.slice? t.source.toList (t.span id).start (t.span id).stop = some (t.text id) := by
  have hid := h.on_source id
  obtain ⟨mid, hmid⟩ := Text.slice?_isSome hid.ordered hid.start_boundary hid.stop_boundary
  rw [text, hmid, Option.getD_some]

end Tree

theorem Fix.apply_replace {source name text : String} {before cut after : List Char} {s : Span}
    (hsource : source.toList = before ++ (cut ++ after)) (hstart : Text.byteLength before = s.start)
    (hstop : s.start + Text.byteLength cut = s.stop) :
    (Fix.replace name s text).apply source =
      .ok (String.ofList (before ++ text.toList ++ after)) := by
  have hs : s.OnSource source.toList := by
    refine ⟨by omega, Text.isBoundary_iff.mpr ⟨before, cut ++ after, hsource, hstart⟩,
      Text.isBoundary_iff.mpr ⟨before ++ cut, after, by simp [hsource], ?_⟩⟩
    rw [Text.byteLength_append]
    omega
  have hvalid : (Fix.replace name s text).rejection? source.toList = none :=
    Fix.rejection?_eq_none_iff.mpr ⟨by simpa [Fix.replace] using hs, List.pairwise_singleton _ _⟩
  have hkept : Text.slice? source.toList 0 s.start = some before :=
    Text.slice?_eq_some_iff.mpr ⟨[], cut ++ after, hsource, rfl, by omega⟩
  have htail : Text.dropBytes? source.toList s.stop = some after := by
    refine Text.dropBytes?_eq_some_iff.mpr ⟨before ++ cut, by simp [hsource], ?_⟩
    rw [Text.byteLength_append]
    omega
  have hsplice : Edit.splice? source.toList [⟨s, text⟩] = some (before ++ text.toList ++ after) := by
    simp [Edit.splice?, Edit.sort, Edit.spliceFrom?, hkept, htail]
  rw [Fix.apply, hvalid]
  simp only [Fix.replace, hsplice, Option.getD_some]

namespace JobInBuilderUsage

def switchText (f : SourceFile) (call : Nat) : List Char :=
  "withContext(".toList ++ contextText f call ++ [')']

private theorem stop_le_trailing {f : SourceFile} {call callee l : Nat} {front rest : List Char}
    (hgap : Text.slice? f.content (f.tree.span callee).stop (bodyStart f call (some l)) =
      some (front ++ rest)) :
    (f.tree.span callee).stop + Text.byteLength front ≤ (f.tree.span l).start := by
  obtain ⟨_, _, _, _, hstop⟩ := Text.slice?_eq_some_iff.mp hgap
  rw [Text.byteLength_append, bodyStart] at hstop
  omega

private theorem argument_inside {f : SourceFile} (hs : f.tree.WellFormed) {call callee arg l : Nat}
    {receiver trailing : Option Nat} {args : List Nat} {front rest : List Char}
    (hshape : f.tree.shape call = .call receiver callee args trailing)
    (hgap : Text.slice? f.content (f.tree.span callee).stop (bodyStart f call trailing) =
      some (front ++ rest)) (hrest : ∀ c ∈ rest, Text.isBlank c = true)
    (harg : arg ∈ args) (hvalue : f.tree.argumentValue arg = l) (hl : f.tree.kind l = .lambda) :
    (f.tree.span callee).stop ≤ (f.tree.span l).start ∧
      (f.tree.span l).stop ≤ (f.tree.span callee).stop + Text.byteLength front := by
  have horder := hs.calls_in_order call
  rw [hshape, Shape.fromCallee] at horder
  have hinside : (f.tree.span arg).contains (f.tree.span l) = true :=
    hs.nested.contains_under (hvalue ▸ Tree.under_argumentValue f.tree arg)
  rw [Span.contains_iff] at hinside
  have hcallee : (f.tree.span callee).stop ≤ (f.tree.span arg).start :=
    List.rel_of_pairwise_cons horder (by simp [harg])
  have hbody : (f.tree.span arg).stop ≤ bodyStart f call trailing := by
    cases trailing with
    | none =>
      have hunder : f.tree.Under call arg :=
        Tree.under_of_mem_parts (by simp [hshape, Shape.parts, harg])
      exact (Span.contains_iff.mp (hs.nested.contains_under hunder)).2
    | some t => exact (List.pairwise_append.mp horder.of_cons).2.2 arg harg t (by simp)
  refine ⟨by omega, ?_⟩
  refine Text.stop_le_of_getLast?_not_mem (Tree.slice?_text hs.toSpaced l) hgap
    (hs.lambdas_braced l hl).2 ?_ (by omega)
  intro hm
  exact absurd (hrest _ hm) (by decide)

/-- What rewriting a builder call keeps of the lambdas that belong to it. The fix can always be
applied. It exchanges one piece of the source for the new call; the trailing lambda stands behind that
piece, a lambda passed as the context is written again, and every other lambda is cut out with it. -/
theorem contextSwitch_bodies {f : SourceFile} (hs : f.tree.WellFormed) {call : Nat} {fix : Fix}
    (hfix : contextSwitch? f call = some fix) :
    ∃ e before cut after fixed, fix.edits = [e] ∧ f.content = before ++ (cut ++ after) ∧
      Text.byteLength before = e.span.start ∧ e.span.start + Text.byteLength cut = e.span.stop ∧
      fix.apply f.tree.source = .ok fixed ∧ fixed.toList = before ++ switchText f call ++ after ∧
      ∀ l, f.tree.IsBody call l →
        ((f.tree.shape call).trailing? = some l ∨ f.contextArgument? call = some l →
          f.tree.text l <:+: fixed.toList) ∧
        ((f.tree.shape call).trailing? = some l → e.span.stop ≤ (f.tree.span l).start) ∧
        ((f.tree.shape call).trailing? ≠ some l →
          e.span.contains (f.tree.span l) = true ∧ f.tree.text l <:+: cut) := by
  obtain ⟨receiver, callee, args, trailing, front, rest, hshape, hgap, hrest, rfl⟩ :=
    contextSwitch?_spec hfix
  have hvalid := Fix.validate_eq_ok_iff.mp (contextSwitch?_staysIn hs.toSpaced hfix).1
  have hon := (Fix.rejection?_eq_none_iff.mp hvalid).1 _ (List.mem_singleton_self _)
  obtain ⟨cut, hcut⟩ := Text.slice?_isSome hon.ordered hon.start_boundary hon.stop_boundary
  obtain ⟨before, after, hsource, hstart, hstop⟩ := Text.slice?_eq_some_iff.mp hcut
  dsimp only at hstart hstop
  refine ⟨_, before, cut, after, _, rfl, hsource, hstart, hstop,
    Fix.apply_replace hsource hstart hstop, by simp only [String.toList_ofList]; rfl, ?_⟩
  intro l hl
  have htext := Tree.slice?_text hs.toSpaced l
  have hbehind : (f.tree.shape call).trailing? = some l →
      (f.tree.span callee).stop + Text.byteLength front ≤ (f.tree.span l).start := by
    intro ht
    rw [hshape, Shape.trailing?] at ht
    rw [ht] at hgap
    exact stop_le_trailing hgap
  refine ⟨?_, hbehind, ?_⟩
  · rw [String.toList_ofList]
    rintro (ht | hctx)
    · have hafter : f.tree.text l <:+: after := by
        have hend := Text.isBoundary_le (hs.on_source l).stop_boundary
        have hstart' := hbehind ht
        rw [show f.tree.source.toList = (before ++ cut) ++ (after ++ []) by
          rw [List.append_nil, List.append_assoc]; exact hsource] at htext hend
        simp only [Text.byteLength_append, Text.byteLength_nil] at hend
        refine Text.infix_of_slice? htext ?_ ?_ <;> rw [Text.byteLength_append] <;> omega
      exact hafter.trans (List.suffix_append _ _).isInfix
    · have hcontext : contextText f call = f.tree.text l := by
        rw [contextText, hctx]
      rw [String.toList_ofList, hcontext]
      exact ⟨before ++ "withContext(".toList, [')'] ++ after, by simp⟩
  · intro ht
    rcases hl with hl | ⟨hkind, r, c, as, t, hshape', arg, harg, hvalue⟩
    · exact absurd hl ht
    · rw [hshape] at hshape'
      cases hshape'
      have hin := argument_inside hs hshape hgap hrest harg hvalue hkind
      have hhead := hs.head_le_callee hshape
      refine ⟨Span.contains_iff.mpr ⟨?_, hin.2⟩, ?_⟩
      · exact Nat.le_trans hhead hin.1
      · have hsource' : f.tree.source.toList = before ++ (cut ++ after) := hsource
        rw [hsource'] at htext
        refine Text.infix_of_slice? htext ?_ ?_
        · exact hstart ▸ Nat.le_trans hhead hin.1
        · rw [hstart, hstop]
          exact hin.2

theorem contextSwitch_bodies_nestedLaunch :
    Rules.nestedLaunchFile.tree.WellFormed ∧
    contextSwitch? Rules.nestedLaunchFile 8 =
      some (Fix.replace "Replace launch/async call by withContext" ⟨25, 37⟩ "withContext(x)") ∧
    Rules.nestedLaunchFile.tree.IsBody 8 7 ∧
    ∃ fixed, (Fix.replace "Replace launch/async call by withContext" ⟨25, 37⟩ "withContext(x)").apply
        Rules.nestedLaunch = .ok fixed ∧ Rules.nestedLaunchFile.tree.text 7 <:+: fixed.toList := by
  have hplaced : Rules.nestedLaunchRows.WellPlaced Rules.nestedLaunch.toList := by decide +kernel
  have hspaced := Kotlin.layout_spaced hplaced
  have hwell : Rules.nestedLaunchFile.tree.WellFormed :=
    .of_lt hspaced (by decide +kernel) (by decide +kernel)
  have hfix : contextSwitch? Rules.nestedLaunchFile 8 =
      some (Fix.replace "Replace launch/async call by withContext" ⟨25, 37⟩ "withContext(x)") := by
    decide +kernel
  have htrailing : (Rules.nestedLaunchFile.tree.shape 8).trailing? = some 7 := by decide +kernel
  obtain ⟨_, _, _, _, fixed, _, _, _, _, happly, _, hbodies⟩ := contextSwitch_bodies hwell hfix
  exact ⟨hwell, hfix, .inl htrailing, fixed, happly, (hbodies 7 (.inl htrailing)).1 (.inl htrailing)⟩

def blockLaunch : String := "launch(NonCancellable) \x7b launch(block = \x7b work() \x7d) \x7d"

def blockLaunchRows : Kotlin.Row :=
  .over "source_file" 0 53 [.over "call_expression" 0 53 [.over "identifier" 0 6 [],
    .over "value_arguments" 6 22 [.over "value_argument" 7 21 [.over "identifier" 7 21 []]],
    .over "annotated_lambda" 23 53 [.over "lambda_literal" 23 53 [.over "call_expression" 25 51 [
      .over "identifier" 25 31 [],
      .over "value_arguments" 31 51 [.over "value_argument" 32 50 [.over "identifier" 32 37 [],
        .token "=" 38 39,
        .over "lambda_literal" 40 50 [.over "call_expression" 42 48 [.over "identifier" 42 46 [],
          .over "value_arguments" 46 48 []]]]]]]]]]

def blockLaunchFile : SourceFile :=
  ⟨⟨"block.kt"⟩, (Kotlin.layout blockLaunch blockLaunchRows).tree, Rules.launchResolver, []⟩

def blockLaunchFix : Fix :=
  Fix.replace "Replace launch/async call by withContext" ⟨25, 51⟩ "withContext(coroutineContext)"

/-- A body that is no trailing lambda is lost: the fix that is reported for the nested builder leaves
no trace of it. -/
theorem contextSwitch_drops_block :
    blockLaunchFile.tree.WellFormed ∧
    ⟨issue, blockLaunchFile.tree.span 8, nonCancellableMessage, some blockLaunchFix⟩ ∈
      nonCancellableFindings blockLaunchFile 10 ∧
    blockLaunchFile.tree.IsBody 8 6 ∧ blockLaunchFile.tree.text 6 = "\x7b work() \x7d".toList ∧
    blockLaunchFix.apply blockLaunch =
      .ok "launch(NonCancellable) \x7b withContext(coroutineContext) \x7d" ∧
    ¬ blockLaunchFile.tree.text 6 <:+:
      "launch(NonCancellable) \x7b withContext(coroutineContext) \x7d".toList := by
  have hplaced : blockLaunchRows.WellPlaced blockLaunch.toList := by decide +kernel
  have hshape : blockLaunchFile.tree.shape 8 = .call none 3 [7] none := by decide +kernel
  have htext : blockLaunchFile.tree.text 6 = "\x7b work() \x7d".toList := by decide +kernel
  have hspaced := Kotlin.layout_spaced hplaced
  have hbody : blockLaunchFile.tree.IsBody 8 6 :=
    .inr ⟨by decide +kernel, none, 3, [7], none, hshape, 7, by simp, by decide +kernel⟩
  refine ⟨.of_lt hspaced (by decide +kernel) (by decide +kernel), by decide +kernel, hbody, htext,
    ?_, ?_⟩
  · have happly : blockLaunchFix.apply blockLaunch = _ :=
      Fix.apply_replace (show blockLaunch.toList = "launch(NonCancellable) \x7b ".toList ++
        ("launch(block = \x7b work() \x7d)".toList ++ " \x7d".toList) by decide +kernel)
        (by decide +kernel) (by decide +kernel)
    rw [happly]
    exact congrArg Except.ok (by decide +kernel)
  · rw [htext]
    decide +kernel

end JobInBuilderUsage
end CoroutineCheck
