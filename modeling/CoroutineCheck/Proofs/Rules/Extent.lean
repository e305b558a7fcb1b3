import CoroutineCheck.Proofs.Kotlin.Nesting
import CoroutineCheck.Proofs.Text.Search
import CoroutineCheck.Rules.Registry
/-!
# The extent of findings

Whatever a rule looks at below a node is reached by going down the tree. So in a file whose spans
nest, a finding lies in the node that was visited, and so do the edits of its fix, which can all be
performed.
-/
namespace CoroutineCheck

namespace Tree

variable {t : Tree}

theorem under_of_mem_parts {id c : Nat} (h : c ∈ (t.shape id).parts) : t.Under id c :=
  .single (Arena.parts_subset h)

theorem Spaced.head_le_callee (hs : t.Spaced) {id c : Nat} {r l : Option Nat} {args : List Nat}
    (hshape : t.shape id = .call r c args l) : (t.span (r.getD c)).start ≤ (t.span c).stop := by
  have hcallee := (hs.on_source c).ordered
  cases r with
  | none => exact hcallee
  | some r =>
    have hfirst := hs.receiver_first id r c args l hshape
    have hreceiver := (hs.on_source r).ordered
    rw [Option.getD_some]
    omega

theorem under_argumentValue (t : Tree) (id : Nat) : t.Under id (t.argumentValue id) := by
  unfold argumentValue
  split
  case h_1 h => exact under_of_mem_parts (by simp [h, Shape.parts])
  case h_2 => exact .refl

private theorem under_stripParens (t : Tree) (id : Nat) : t.Under id (t.stripParens id) := by
  fun_induction stripParens t id with
  | case1 id inner h ih => exact (under_of_mem_parts (by simp [h, Shape.parts])).trans ih
  | case2 => exact .refl

end Tree

namespace SourceFile

variable {f : SourceFile}

theorem under_of_mem_nodesWithRole {start n : Nat} {kinds : List Kind} {role : Role}
    (h : n ∈ f.nodesWithRole start kinds role) : f.tree.Under start n :=
  Tree.under_of_mem_walkPruned (List.mem_filter.mp h).1

theorem under_of_mem_nestedBuilders {call n : Nat} (h : n ∈ f.nestedBuilders call) :
    f.tree.Under call n := by
  unfold nestedBuilders at h
  split at h
  case h_1 body hshape =>
    have hbody : f.tree.Under call body := Tree.under_of_mem_parts (by simp [hshape, Shape.parts])
    exact hbody.trans (Tree.under_of_mem_walkPruned (List.mem_filter.mp h).1)
  case h_2 => simp at h

private theorem contextArgument?_spec {call v : Nat} (h : f.contextArgument? call = some v) :
    ∃ r c args l, f.tree.shape call = .call r c args l ∧ ∃ arg ∈ args, f.tree.argumentValue arg = v := by
  unfold contextArgument? at h
  split at h
  case h_1 r c args l hshape =>
    obtain ⟨arg, harg, hv⟩ := Option.map_eq_some_iff.mp h
    refine ⟨r, c, args, l, hshape, arg, ?_, hv⟩
    rcases Option.or_eq_some_iff.mp harg with hfind | ⟨_, hhead⟩
    · exact List.mem_of_find?_eq_some hfind
    · exact List.mem_of_head? (Option.filter_eq_some_iff.mp hhead).1
  case h_2 => cases h

private theorem under_of_contextArgument? {call v : Nat} (h : f.contextArgument? call = some v) :
    f.tree.Under call v := by
  obtain ⟨r, c, args, l, hshape, arg, harg, rfl⟩ := contextArgument?_spec h
  have hunder : f.tree.Under call arg := Tree.under_of_mem_parts (by simp [hshape, Shape.parts, harg])
  exact hunder.trans (Tree.under_argumentValue f.tree arg)

theorem under_of_mem_argumentValues {call v : Nat} (h : v ∈ f.argumentValues call) :
    f.tree.Under call v := by
  unfold argumentValues at h
  split at h
  case h_1 r c args l hshape =>
    obtain ⟨arg, harg, rfl⟩ := List.mem_map.mp h
    have hunder : f.tree.Under call arg :=
      Tree.under_of_mem_parts (by simp [hshape, Shape.parts, harg])
    exact hunder.trans (Tree.under_argumentValue f.tree arg)
  case h_2 => simp at h

end SourceFile

def Fix.StaysIn (source : String) (span : Span) (fix : Fix) : Prop :=
  fix.validate source = .ok () ∧ ∀ e ∈ fix.edits, span.contains e.span = true

private theorem Fix.replace_staysIn {source : String} {span s : Span} (hs : s.OnSource source.toList)
    (hin : span.contains s = true) (name text : String) :
    (Fix.replace name s text).StaysIn source span := by
  refine ⟨Fix.validate_eq_ok_iff.mpr (Fix.rejection?_eq_none_iff.mpr ⟨?_, ?_⟩), ?_⟩
  · simpa [Fix.replace] using hs
  · exact List.pairwise_singleton _ _
  · simpa [Fix.replace] using hin

def Finding.StaysIn (source : String) (span : Span) (d : Finding) : Prop :=
  span.contains d.span = true ∧ ∀ fix ∈ d.fix, fix.StaysIn source span

private theorem GlobalScopeUsage.findings_stayIn {f : SourceFile} (h : f.tree.Spaced)
    (policy : SupertypePolicy) (id : Nat) :
    ∀ d ∈ findings policy f id, d.StaysIn f.tree.source (f.tree.span id) := by
  intro d hd
  unfold findings at hd
  split at hd
  · cases List.mem_singleton.mp hd
    refine ⟨Span.contains_self _, ?_⟩
    intro fix hfix
    obtain ⟨o, _, rfl⟩ := Option.map_eq_some_iff.mp hfix
    exact Fix.replace_staysIn (h.on_source id) (Span.contains_self _) _ _
  · simp at hd

namespace JobInBuilderUsage

/-- The argument list takes in all of the text before the body, up to blanks. -/
theorem argumentListEnd?_spec {gap : List Char} {n : Nat} (h : argumentListEnd? gap = some n) :
    ∃ front rest, gap = front ++ rest ∧ Text.byteLength front = n ∧
      ∀ c ∈ rest, Text.isBlank c = true := by
  obtain ⟨lead, back, hgap, hlead, hback⟩ := Text.trim_spec gap
  unfold argumentListEnd? at h
  simp only at h
  split at h
  case isTrue hempty =>
    cases h
    refine ⟨[], gap, rfl, rfl, ?_⟩
    rw [List.isEmpty_iff.mp hempty, List.append_nil] at hgap
    rw [hgap]
    exact List.forall_mem_append.mpr ⟨hlead, hback⟩
  case isFalse =>
    split at h
    case isTrue hparens =>
      rw [Bool.and_eq_true, beq_iff_eq, beq_iff_eq] at hparens
      obtain ⟨inner, hinner⟩ := List.getLast?_eq_some_iff.mp hparens.2
      -- The last parenthesis of the gap is the last of the trimmed text: blanks are none.
      have hcut : Text.cutLast? ')' gap = some (lead ++ inner, back) := by
        rw [Text.cutLast?_eq_some_iff]
        refine ⟨?_, fun hm => absurd (hback _ hm) (by decide)⟩
        rw [hinner] at hgap
        simpa using hgap
      rw [hcut] at h
      cases h
      refine ⟨lead ++ inner ++ [')'], back, ?_, ?_, hback⟩
      · rw [hinner] at hgap
        simpa using hgap
      · rw [Text.byteLength_append]
        rfl
    case isFalse => cases h

def bodyStart (f : SourceFile) (call : Nat) : Option Nat → Nat
  | some l => (f.tree.span l).start
  | none => (f.tree.span call).stop

def contextText (f : SourceFile) (call : Nat) : List Char :=
  match f.contextArgument? call with
  | some v => f.tree.text v
  | none => "coroutineContext".toList

theorem contextSwitch?_spec {f : SourceFile} {call : Nat} {fix : Fix}
    (h : contextSwitch? f call = some fix) :
    ∃ receiver callee args lambda front rest,
      f.tree.shape call = .call receiver callee args lambda ∧
      Text.slice? f.content (f.tree.span callee).stop (bodyStart f call lambda) =
        some (front ++ rest) ∧ (∀ c ∈ rest, Text.isBlank c = true) ∧
      fix = Fix.replace "Replace launch/async call by withContext"
        ⟨(f.tree.span (receiver.getD callee)).start,
          (f.tree.span callee).stop + Text.byteLength front⟩
        (String.ofList ("withContext(".toList ++ contextText f call ++ [')'])) := by
  unfold contextSwitch? at h
  split at h
  case h_1 receiver callee args lambda hshape =>
    simp only [bind, Option.bind_eq_some_iff] at h
    obtain ⟨gap, hgap, n, hn, hfix⟩ := h
    cases hfix
    obtain ⟨front, rest, rfl, rfl, hrest⟩ := argumentListEnd?_spec hn
    exact ⟨receiver, callee, args, lambda, front, rest, hshape, hgap, hrest, rfl⟩
  case h_2 => cases h

theorem contextSwitch?_staysIn {f : SourceFile} (hs : f.tree.Spaced) {call : Nat} {fix : Fix}
    (h : contextSwitch? f call = some fix) : fix.StaysIn f.tree.source (f.tree.span call) := by
  obtain ⟨receiver, callee, args, lambda, front, rest, hshape, hgap, _, rfl⟩ := contextSwitch?_spec h
  obtain ⟨a, b, hcontent, ha, hstop⟩ := Text.slice?_eq_some_iff.mp hgap
  rw [Text.byteLength_append] at hstop
  have hin {n : Nat} (hn : n ∈ (f.tree.shape call).parts) :
      (f.tree.span call).start ≤ (f.tree.span n).start ∧
        (f.tree.span n).stop ≤ (f.tree.span call).stop :=
    Span.contains_iff.mp (hs.nested.contains_under (Tree.under_of_mem_parts hn))
  have hhead := hs.head_le_callee hshape
  have hbody : bodyStart f call lambda ≤ (f.tree.span call).stop := by
    cases lambda with
    | none => exact Nat.le_refl _
    | some l =>
      have hl := hin (n := l) (by simp [hshape, Shape.parts])
      have := (hs.on_source l).ordered
      rw [bodyStart]
      omega
  refine Fix.replace_staysIn ⟨?_, ?_, ?_⟩ ?_ _ _
  · exact Nat.le_add_right_of_le hhead
  · exact (hs.on_source (receiver.getD callee)).start_boundary
  · refine Text.isBoundary_iff.mpr ⟨a ++ front, rest ++ b, ?_, ?_⟩
    · rw [SourceFile.content] at hcontent
      simp [hcontent]
    · rw [Text.byteLength_append, ha]
  · refine Span.contains_iff.mpr ⟨(hin ?_).1, ?_⟩
    · cases receiver <;> simp [hshape, Shape.parts]
    · change (f.tree.span callee).stop + Text.byteLength front ≤ (f.tree.span call).stop
      omega

private theorem operandRemoval?_staysIn {f : SourceFile} (hs : f.tree.Spaced) {context operand : Nat}
    {fix : Fix} (h : operandRemoval? f context operand = some fix) :
    fix.StaysIn f.tree.source (f.tree.span context) := by
  simp only [operandRemoval?, bind, Option.bind_eq_some_iff] at h
  obtain ⟨chain, hchain, rest, _, hfix⟩ := h
  cases hfix
  have hspan : chain.span = f.tree.span (f.tree.stripParens context) := by
    unfold Tree.chain? at hchain
    split at hchain
    · split at hchain
      · cases hchain
        rfl
      · cases hchain
    · cases hchain
  rw [hspan]
  exact Fix.replace_staysIn (hs.on_source _)
    (hs.nested.contains_under (Tree.under_stripParens f.tree context)) _ _

theorem under_of_receiverAndContext? {f : SourceFile} {call receiver context : Nat}
    (h : receiverAndContext? f call = some (receiver, context)) : f.tree.Under call context := by
  unfold receiverAndContext? at h
  split at h
  · obtain ⟨v, hv, heq⟩ := Option.map_eq_some_iff.mp h
    cases heq
    exact SourceFile.under_of_contextArgument? hv
  · cases h

private theorem findings_stayIn {f : SourceFile} (hs : f.tree.Spaced) (policy : SupertypePolicy) (id : Nat) :
    ∀ d ∈ findings policy f id, d.StaysIn f.tree.source (f.tree.span id) := by
  have hwiden {n : Nat} (hn : f.tree.Under id n) {fix : Fix}
      (h : fix.StaysIn f.tree.source (f.tree.span n)) :
      fix.StaysIn f.tree.source (f.tree.span id) :=
    ⟨h.1, fun e he => Span.contains_trans (hs.nested.contains_under hn) (h.2 e he)⟩
  intro d hd
  unfold findings at hd
  split at hd
  · rw [List.mem_append, List.mem_append] at hd
    rcases hd with (hd | hd) | hd
    · unfold nonCancellableFindings at hd
      split at hd
      · simp at hd
      · obtain ⟨n, hn, rfl⟩ := List.mem_map.mp hd
        have hunder := SourceFile.under_of_mem_nestedBuilders hn
        exact ⟨hs.nested.contains_under hunder,
          fun fix hfix => hwiden hunder (contextSwitch?_staysIn hs hfix)⟩
    · unfold supervisorFindings at hd
      split at hd
      case h_1 receiver context hcontext =>
        have hunder := under_of_receiverAndContext? hcontext
        split at hd
        · obtain ⟨n, hn, rfl⟩ := List.mem_map.mp hd
          exact ⟨hs.nested.contains_under
              (hunder.trans (SourceFile.under_of_mem_nodesWithRole hn)),
            fun fix hfix => hwiden hunder (operandRemoval?_staysIn hs hfix)⟩
        · simp at hd
      case h_2 => simp at hd
    · obtain ⟨n, hn, rfl⟩ := List.mem_map.mp hd
      have hunder := SourceFile.under_of_mem_argumentValues (List.mem_filter.mp hn).1
      exact ⟨hs.nested.contains_under hunder, by simp⟩
  · simp at hd

end JobInBuilderUsage

/-- In a file whose rows are placed as a parser places them, every finding of every rule lies in the
node that was visited; its fix is accepted for the source, and all its edits lie in that node. -/
theorem Rules.findings_within_visited {source : String} {root : Kotlin.Row}
    (hroot : root.WellPlaced source.toList) {f : SourceFile}
    (hf : f.tree = (Kotlin.layout source root).tree) (policy : SupertypePolicy) (id : Nat) :
    ∀ r ∈ Rules.all, ∀ d ∈ (r.detector policy).findings f id,
      (f.tree.span id).contains d.span = true ∧
        ∀ fix ∈ d.fix, fix.validate source = .ok () ∧
          ∀ e ∈ fix.edits, (f.tree.span id).contains e.span = true := by
  have hs : f.tree.Spaced := hf ▸ Kotlin.layout_spaced hroot
  have hsource : f.tree.source = source := by
    rw [hf]
    rfl
  intro r hr d hd
  have hstay : d.StaysIn f.tree.source (f.tree.span id) := by
    simp only [Rules.all, List.mem_cons, List.not_mem_nil, or_false] at hr
    rcases hr with rfl | rfl
    · exact GlobalScopeUsage.findings_stayIn hs policy id d hd
    · exact JobInBuilderUsage.findings_stayIn hs policy id d hd
  rwa [hsource] at hstay

namespace Rules

def nestedLaunch : String := "launch(NonCancellable) \x7b é.launch(x) \x7b\x7d \x7d"

def nestedLaunchRows : Kotlin.Row :=
  .over "source_file" 0 42 [.over "call_expression" 0 42 [.over "identifier" 0 6 [],
    .over "value_arguments" 6 22 [.over "value_argument" 7 21 [.over "identifier" 7 21 []]],
    .over "annotated_lambda" 23 42 [.over "lambda_literal" 23 42 [.over "call_expression" 25 40 [
      .over "navigation_expression" 25 34 [.over "identifier" 25 27 [], .over "identifier" 28 34 []],
      .over "value_arguments" 34 37 [.over "value_argument" 35 36 [.over "identifier" 35 36 []]],
      .over "annotated_lambda" 38 40 [.over "lambda_literal" 38 40 []]]]]]]

def launchResolver : Resolver where
  resolve t id := match t.shape id with
    | .call _ callee _ _ =>
      if t.identifier? callee = some "launch" then
        some (.mk "kotlinx.coroutines.launch" .function "kotlinx.coroutines" [])
      else none
    | .identifier "NonCancellable" =>
      some (.mk "kotlinx.coroutines.NonCancellable" .objectType "kotlinx.coroutines" [])
    | _ => none
  typeOf _ _ := none

def nestedLaunchFile : SourceFile :=
  ⟨⟨"nested.kt"⟩, (Kotlin.layout nestedLaunch nestedLaunchRows).tree, launchResolver, []⟩

def nestedLaunchFinding : Finding :=
  ⟨JobInBuilderUsage.issue, ⟨25, 40⟩, JobInBuilderUsage.nonCancellableMessage,
    some (Fix.replace "Replace launch/async call by withContext" ⟨25, 37⟩ "withContext(x)")⟩

theorem findings_within_visited_nestedLaunch :
    nestedLaunchRows.WellPlaced nestedLaunch.toList ∧
    nestedLaunchFile.tree = (Kotlin.layout nestedLaunch nestedLaunchRows).tree ∧
    nestedLaunchFinding ∈
      (JobInBuilderUsage.detector .direct).findings nestedLaunchFile 10 ∧
    (nestedLaunchFile.tree.span 10).contains nestedLaunchFinding.span = true ∧
    ∀ fix ∈ nestedLaunchFinding.fix, fix.validate nestedLaunch = .ok () ∧
      ∀ e ∈ fix.edits, (nestedLaunchFile.tree.span 10).contains e.span = true := by
  have hplaced : nestedLaunchRows.WellPlaced nestedLaunch.toList := by decide +kernel
  have hfound : nestedLaunchFinding ∈
      (JobInBuilderUsage.detector .direct).findings nestedLaunchFile 10 := by decide +kernel
  exact ⟨hplaced, rfl, hfound, findings_within_visited hplaced rfl .direct 10
    ⟨JobInBuilderUsage.issue, JobInBuilderUsage.detector⟩ (by simp [all]) _ hfound⟩

end Rules

end CoroutineCheck
