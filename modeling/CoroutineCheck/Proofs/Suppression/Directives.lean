import CoroutineCheck.Proofs.Path.Components
import CoroutineCheck.Proofs.Text.Search
import CoroutineCheck.Suppression.Directive
/-!
# Allow directives behind code

A directive is written with a list of names and at most one reason, and may stand behind code. It is
read back with these names and this reason, however the list is spaced, if its slashes are the first
of the line. Slashes further in front, even in a string literal, hide it.
-/
namespace CoroutineCheck

structure IsListable (name : List Char) : Prop where
  ne_nil : name ≠ []
  no_comma : ',' ∉ name
  no_paren : ')' ∉ name
  visible_head : name.head?.any Text.isBlank = false
  visible_last : name.getLast?.any Text.isBlank = false

instance (name : List Char) : Decidable (IsListable name) :=
  decidable_of_iff
    (name ≠ [] ∧ ',' ∉ name ∧ ')' ∉ name ∧ name.head?.any Text.isBlank = false ∧
      name.getLast?.any Text.isBlank = false)
    ⟨fun h => ⟨h.1, h.2.1, h.2.2.1, h.2.2.2.1, h.2.2.2.2⟩,
      fun h => ⟨h.ne_nil, h.no_comma, h.no_paren, h.visible_head, h.visible_last⟩⟩

/-- The texts that list names: commas between them and blanks around them. -/
inductive ListsNames : (names : List (List Char)) → (text : List Char) → Prop where
  | one {name lead back : List Char} : (∀ c ∈ lead, Text.isBlank c = true) →
      (∀ c ∈ back, Text.isBlank c = true) → ListsNames [name] (lead ++ name ++ back)
  | more {name lead back text : List Char} {names : List (List Char)} :
      (∀ c ∈ lead, Text.isBlank c = true) → (∀ c ∈ back, Text.isBlank c = true) →
      ListsNames names text → ListsNames (name :: names) (lead ++ name ++ back ++ ',' :: text)

theorem IsListable.trim_eq {name lead back : List Char} (h : IsListable name)
    (hlead : ∀ c ∈ lead, Text.isBlank c = true) (hback : ∀ c ∈ back, Text.isBlank c = true) :
    Text.trim (lead ++ name ++ back) = name := by
  rw [Text.trim_append_of_blank hlead hback, Text.trim_eq_self h.visible_head h.visible_last]

private theorem not_mem_padded {c : Char} {name lead back : List Char} (hc : Text.isBlank c = false)
    (hname : c ∉ name) (hlead : ∀ c ∈ lead, Text.isBlank c = true)
    (hback : ∀ c ∈ back, Text.isBlank c = true) : c ∉ lead ++ name ++ back := by
  intro hm
  rcases List.mem_append.mp hm with hm | hm
  · rcases List.mem_append.mp hm with hm | hm
    · exact absurd (hlead c hm) (by simp [hc])
    · exact hname hm
  · exact absurd (hback c hm) (by simp [hc])

namespace ListsNames

variable {names : List (List Char)} {text : List Char}

private theorem names_ne_nil (h : ListsNames names text) : names ≠ [] := by
  cases h <;> simp

private theorem map_trim_pieces (h : ListsNames names text) (hnames : ∀ name ∈ names, IsListable name) :
    (Text.pieces ',' text).map Text.trim = names := by
  have hcomma : Text.isBlank ',' = false := by decide
  induction h with
  | one hlead hback =>
    have hname := hnames _ (List.mem_singleton.mpr rfl)
    rw [Text.pieces_of_not_mem (not_mem_padded hcomma hname.no_comma hlead hback)]
    rw [List.map_singleton, hname.trim_eq hlead hback]
  | more hlead hback _ ih =>
    have hname := hnames _ List.mem_cons_self
    rw [Text.pieces_append_sep, List.map_append, ih fun n hn => hnames n (List.mem_cons_of_mem _ hn)]
    rw [Text.pieces_of_not_mem (not_mem_padded hcomma hname.no_comma hlead hback)]
    rw [List.map_singleton, hname.trim_eq hlead hback, List.singleton_append]

private theorem paren_not_mem (h : ListsNames names text) (hnames : ∀ name ∈ names, IsListable name) :
    ')' ∉ text := by
  have hparen : Text.isBlank ')' = false := by decide
  induction h with
  | one hlead hback =>
    exact not_mem_padded hparen (hnames _ (List.mem_singleton.mpr rfl)).no_paren hlead hback
  | more hlead hback _ ih =>
    have hfirst := not_mem_padded hparen (hnames _ List.mem_cons_self).no_paren hlead hback
    have hrest := ih fun n hn => hnames n (List.mem_cons_of_mem _ hn)
    rw [List.mem_append, List.mem_cons, not_or, not_or]
    exact ⟨hfirst, by decide, hrest⟩

private theorem exists_lead (h : ListsNames names text) (hnames : ∀ name ∈ names, IsListable name) :
    ∃ lead rest, text = lead ++ rest ∧ (∀ c ∈ lead, Text.isBlank c = true) ∧
      ListsNames names rest ∧ rest ≠ [] ∧ rest.head?.any Text.isBlank = false := by
  cases h with
  | @one name lead back hlead hback =>
    have hname := hnames _ (List.mem_singleton.mpr rfl)
    have hlist : ListsNames [name] ([] ++ name ++ back) := .one (List.forall_mem_nil _) hback
    refine ⟨lead, name ++ back, List.append_assoc .., hlead, hlist, ?_, ?_⟩
    · exact List.append_ne_nil_of_left_ne_nil hname.ne_nil _
    · rw [List.head?_append_of_ne_nil _ hname.ne_nil]
      exact hname.visible_head
  | @more name lead back text names hlead hback hrest =>
    have hname := hnames _ List.mem_cons_self
    have hlist : ListsNames (name :: names) ([] ++ name ++ back ++ ',' :: text) :=
      .more (List.forall_mem_nil _) hback hrest
    refine ⟨lead, name ++ back ++ ',' :: text, by simp, hlead, hlist, by simp, ?_⟩
    rw [List.append_assoc, List.head?_append_of_ne_nil _ hname.ne_nil]
    exact hname.visible_head

end ListsNames

namespace Directive

def reasonText : Option (List Char) → List Char
  | none => []
  | some reason => ' ' :: ("reason=".toList ++ '"' :: (reason ++ ['"']))

def commentText (list : List Char) (reason : Option (List Char)) : List Char :=
  "coro-lint:".toList ++ ' ' :: ("allow(".toList ++ (list ++ ')' :: reasonText reason))

def text (list : List Char) (reason : Option (List Char)) : List Char :=
  "//".toList ++ ' ' :: commentText list reason

example : text "A, B".toList (some "old".toList) =
    "// coro-lint: allow(A, B) reason=\"old\"".toList := by
  decide +kernel

variable {names : List (List Char)} {list code : List Char} {reason : Option (List Char)}

theorem blank_space : ∀ c ∈ [' '], Text.isBlank c = true :=
  List.forall_mem_singleton.mpr (by decide)

private theorem visible_quote (cs : List Char) : (cs ++ ['"']).getLast?.any Text.isBlank = false := by
  have hquote : Text.isBlank '"' = false := by decide
  simpa using hquote

private theorem visible_last (cs : List Char) (reason : Option (List Char)) :
    (cs ++ ')' :: reasonText reason).getLast?.any Text.isBlank = false := by
  cases reason with
  | none =>
    have hparen : Text.isBlank ')' = false := by decide
    simpa [reasonText] using hparen
  | some r =>
    have hend := visible_quote (cs ++ ')' :: ' ' :: ("reason=".toList ++ '"' :: r))
    simpa only [reasonText, List.append_assoc, List.cons_append] using hend

private theorem readReason?_reasonText (hreason : ∀ r ∈ reason, '"' ∉ r) :
    readReason? (Text.trim (reasonText reason)) = reason := by
  cases reason with
  | none => decide
  | some r =>
    have hreasonTrim : Text.trim ([' '] ++ ("reason=".toList ++ '"' :: (r ++ ['"']))) =
        "reason=".toList ++ '"' :: (r ++ ['"']) := by
      refine Text.trim_of_visible blank_space ?_ ?_
      · rw [List.head?_append_of_ne_nil _ (by decide)]
        decide
      · simpa only [List.append_assoc, List.cons_append] using
          visible_quote ("reason=".toList ++ '"' :: r)
    have hquotedTrim : Text.trim ('"' :: (r ++ ['"'])) = '"' :: (r ++ ['"']) := by
      refine Text.trim_eq_self ?_ (visible_quote ('"' :: r))
      simpa using (by decide : Text.isBlank '"' = false)
    have hvalue : Text.after? "reason=".toList ("reason=".toList ++ '"' :: (r ++ ['"'])) =
        some ('"' :: (r ++ ['"'])) := Text.after?_eq_some_iff.mpr rfl
    have hquoted : Text.after? ['"'] ('"' :: (r ++ ['"'])) = some (r ++ ['"']) :=
      Text.after?_eq_some_iff.mpr rfl
    have hcut : Text.cut? ['"'] (r ++ ['"']) = some (r, []) :=
      Text.cut?_singleton_eq_some_iff.mpr ⟨rfl, hreason r rfl⟩
    rw [reasonText, ← List.singleton_append, hreasonTrim]
    simp only [readReason?, hvalue, hquotedTrim, hquoted, hcut, Option.bind_eq_bind,
      Option.bind_some, Option.pure_def]

private theorem ofComment?_commentText (hlist : ListsNames names list)
    (hnames : ∀ name ∈ names, IsListable name) (hreason : ∀ r ∈ reason, '"' ∉ r) :
    ofComment? (commentText list reason) = some ⟨names, reason⟩ := by
  obtain ⟨lead, rest, rfl, hlead, hrest, hne, hhead⟩ := hlist.exists_lead hnames
  have hdirective : Text.after? "coro-lint:".toList (commentText (lead ++ rest) reason) =
      some ([' '] ++ ("allow(".toList ++ (lead ++ rest ++ ')' :: reasonText reason))) :=
    Text.after?_eq_some_iff.mpr rfl
  have hdirectiveTrim :
      Text.trim ([' '] ++ ("allow(".toList ++ (lead ++ rest ++ ')' :: reasonText reason))) =
        "allow(".toList ++ (lead ++ rest ++ ')' :: reasonText reason) := by
    refine Text.trim_of_visible blank_space ?_ ?_
    · rw [List.head?_append_of_ne_nil _ (by decide)]
      decide
    · rw [← List.append_assoc]
      exact visible_last _ reason
  have hcontent : Text.after? "allow(".toList
      ("allow(".toList ++ (lead ++ rest ++ ')' :: reasonText reason)) =
      some (lead ++ rest ++ ')' :: reasonText reason) := Text.after?_eq_some_iff.mpr rfl
  have hcontentTrim : Text.trim (lead ++ rest ++ ')' :: reasonText reason) =
      rest ++ ')' :: reasonText reason := by
    rw [List.append_assoc]
    refine Text.trim_of_visible hlead ?_ (visible_last rest reason)
    rw [List.head?_append_of_ne_nil _ hne]
    exact hhead
  have hcut : Text.cut? [')'] (rest ++ ')' :: reasonText reason) = some (rest, reasonText reason) :=
    Text.cut?_singleton_eq_some_iff.mpr ⟨rfl, hrest.paren_not_mem hnames⟩
  have hall : names.filter (!·.isEmpty) = names := by
    refine List.filter_eq_self.mpr fun name hname => ?_
    simpa using (hnames name hname).ne_nil
  have hnone : names.isEmpty = false := by simpa using hrest.names_ne_nil
  simp only [ofComment?, hdirective, hdirectiveTrim, hcontent, hcontentTrim, hcut, Option.bind_eq_bind,
    Option.bind_some, hrest.map_trim_pieces hnames, hall, hnone, readReason?_reasonText hreason,
    Option.pure_def, Bool.false_eq_true, ↓reduceIte]

private theorem ofLine?_eq {front : List Char} (back : List Char) (h : ¬ "//".toList <:+: front ++ ['/']) :
    ofLine? (front ++ ("//".toList ++ back)) =
      ofComment? (Text.trim (back.dropWhile (· == '/'))) := by
  have hcut : Text.cut? "//".toList (front ++ ("//".toList ++ back)) = some (front, back) :=
    Text.cut?_of_not_infix back (by decide) h
  simp only [ofLine?, hcut, Option.bind_eq_bind, Option.bind_some]

/-- A directive behind code without two slashes in a row is found. If the code ends in a slash, the
comment begins with that one. -/
theorem ofLine?_append_text (hcode : ¬ "//".toList <:+: code) :
    ofLine? (code ++ text list reason) = ofComment? (commentText list reason) := by
  have htrim : Text.trim (' ' :: commentText list reason) = commentText list reason := by
    rw [← List.singleton_append]
    refine Text.trim_of_visible blank_space ?_ ?_
    · unfold commentText
      rw [List.head?_append_of_ne_nil _ (by decide)]
      decide
    · have hend : commentText list reason =
          ("coro-lint:".toList ++ ' ' :: ("allow(".toList ++ list)) ++ ')' :: reasonText reason := by
        unfold commentText
        rw [List.append_assoc, List.cons_append, List.append_assoc]
      rw [hend]
      exact visible_last _ reason
  by_cases hlast : code.getLast? = some '/'
  · obtain ⟨front, rfl⟩ := List.getLast?_eq_some_iff.mp hlast
    have hline : front ++ ['/'] ++ text list reason =
        front ++ ("//".toList ++ '/' :: ' ' :: commentText list reason) := by
      simp [text]
    rw [hline, ofLine?_eq _ hcode]
    exact congrArg ofComment? htrim
  · have hfront : ¬ "//".toList <:+: code ++ ['/'] := by
      rw [List.infix_concat_iff, not_or]
      refine ⟨?_, hcode⟩
      rintro ⟨front, hfront⟩
      have hslash : code = front ++ ['/'] := by
        have hends : front ++ ['/'] ++ ['/'] = code ++ ['/'] := by
          rw [← hfront, List.append_assoc]
          rfl
        exact (List.append_cancel_right hends).symm
      exact hlast (by simp [hslash])
    rw [text, ofLine?_eq _ hfront]
    exact congrArg ofComment? htrim

theorem onLine?_eq {lines : List (List Char)} {n : Nat} {line : List Char}
    (h : lines[n]? = some line) (issue : String) :
    onLine? lines (n + 1) issue = (ofLine? line).bind fun d =>
      if d.covers issue then some (.allowed (d.reason.map String.ofList)) else none := by
  simp [onLine?, h]

private theorem covers_of_mem {name : List Char} {issue : String} (hname : name ∈ names)
    (hissue : Text.sameIgnoringCase name issue.toList = true) :
    covers ⟨names, reason⟩ issue = true :=
  List.any_eq_true.mpr ⟨name, hname, by simp [coversIssue, hissue]⟩

end Directive

private theorem allowanceAt_succ (content : List Char) (n : Nat) (issue : String) :
    allowanceAt content (n + 1) issue =
      ((Directive.onLine? (Text.lines content) n issue).or
        (Directive.onLine? (Text.lines content) (n + 1) issue)).getD .denied := by
  unfold allowanceAt
  simp only [Nat.add_sub_cancel]
  cases Directive.onLine? (Text.lines content) n issue with
  | none => rfl
  | some a => rfl

/-- What a directive behind code allows. If the code has no two slashes in a row, every listed name is
allowed, with the reason, on the next line and, unless the line before already answers, on this line. If
it has, and what follows the first ones is not itself a directive, the line allows nothing: this line and
the next are answered by the other lines next to them. -/
theorem allowanceAt_behind_code {content code list : List Char} {names : List (List Char)}
    {reason : Option (List Char)} {n : Nat}
    (hline : (Text.lines content)[n]? = some (code ++ Directive.text list reason))
    (hlist : ListsNames names list) (hnames : ∀ name ∈ names, IsListable name)
    (hreason : ∀ r ∈ reason, '"' ∉ r) :
    (¬ "//".toList <:+: code → ∀ name ∈ names, ∀ issue : String,
      Text.sameIgnoringCase name issue.toList = true →
        allowanceAt content (n + 2) issue = .allowed (reason.map String.ofList) ∧
        (Directive.onLine? (Text.lines content) n issue = none →
          allowanceAt content (n + 1) issue = .allowed (reason.map String.ofList))) ∧
    ∀ front back, code = front ++ ("//".toList ++ back) → ¬ "//".toList <:+: front ++ ['/'] →
      Directive.ofComment? (Text.trim ((back ++ Directive.text list reason).dropWhile (· == '/'))) = none →
      ∀ issue,
      allowanceAt content (n + 2) issue =
          (Directive.onLine? (Text.lines content) (n + 2) issue).getD .denied ∧
        allowanceAt content (n + 1) issue =
          (Directive.onLine? (Text.lines content) n issue).getD .denied := by
  constructor
  · intro hcode name hname issue hissue
    have hthis : Directive.onLine? (Text.lines content) (n + 1) issue =
        some (.allowed (reason.map String.ofList)) := by
      rw [Directive.onLine?_eq hline, Directive.ofLine?_append_text hcode,
        Directive.ofComment?_commentText hlist hnames hreason, Option.bind_some,
        if_pos (Directive.covers_of_mem hname hissue)]
    refine ⟨?_, fun hbefore => ?_⟩
    · rw [allowanceAt_succ, hthis]
      rfl
    · rw [allowanceAt_succ, hbefore, hthis]
      rfl
  · rintro front back rfl hfirst hother issue
    have hthis : Directive.onLine? (Text.lines content) (n + 1) issue = none := by
      rw [Directive.onLine?_eq hline, List.append_assoc, List.append_assoc,
        Directive.ofLine?_eq _ hfirst, hother]
      rfl
    refine ⟨?_, ?_⟩
    · rw [allowanceAt_succ, hthis, Option.none_or]
    · rw [allowanceAt_succ, hthis, Option.or_none]

def spacedDirective : String :=
  "run()\nval q = n / 2 // coro-lint: allow( Any ,GlobalScopeUsage ) reason=\"old\"\nrun()\n"

theorem allowanceAt_behind_code_spacedDirective :
    (Text.lines spacedDirective.toList)[1]? = some ("val q = n / 2 ".toList ++
      Directive.text " Any ,GlobalScopeUsage ".toList (some "old".toList)) ∧
    ListsNames ["Any".toList, "GlobalScopeUsage".toList] " Any ,GlobalScopeUsage ".toList ∧
    (∀ name ∈ ["Any".toList, "GlobalScopeUsage".toList], IsListable name) ∧
    (∀ r ∈ some "old".toList, '"' ∉ r) ∧
    allowanceAt spacedDirective.toList 3 "globalScopeUsage" = .allowed (some "old") ∧
    allowanceAt spacedDirective.toList 2 "globalScopeUsage" = .allowed (some "old") := by
  have hline : (Text.lines spacedDirective.toList)[1]? = some ("val q = n / 2 ".toList ++
      Directive.text " Any ,GlobalScopeUsage ".toList (some "old".toList)) := by decide +kernel
  have hlist : ListsNames ["Any".toList, "GlobalScopeUsage".toList]
      " Any ,GlobalScopeUsage ".toList := by
    have hspaced : " Any ,GlobalScopeUsage ".toList =
        [' '] ++ "Any".toList ++ [' '] ++ ',' :: ([] ++ "GlobalScopeUsage".toList ++ [' ']) := by
      decide +kernel
    rw [hspaced]
    exact .more Directive.blank_space Directive.blank_space
      (.one (List.forall_mem_nil _) Directive.blank_space)
  have hnames : ∀ name ∈ ["Any".toList, "GlobalScopeUsage".toList], IsListable name := by
    decide +kernel
  have hreason : ∀ r ∈ some "old".toList, '"' ∉ r := by decide +kernel
  have hbefore : Directive.onLine? (Text.lines spacedDirective.toList) 1 "globalScopeUsage" = none := by
    decide +kernel
  obtain ⟨hnext, hthis⟩ := (allowanceAt_behind_code hline hlist hnames hreason).1 (by decide +kernel)
    "GlobalScopeUsage".toList (by simp) "globalScopeUsage" (by decide +kernel)
  rw [Option.map_some, String.ofList_toList] at hnext hthis
  exact ⟨hline, hlist, hnames, hreason, hnext, hthis hbefore⟩

/-- Whether two slashes in a row stand only in string literals and all of these are closed. -/
def slashesQuoted : (quoted : Bool) → List Char → Bool
  | quoted, [] => !quoted
  | quoted, '"' :: cs => slashesQuoted (!quoted) cs
  | false, '/' :: '/' :: _ => false
  | quoted, _ :: cs => slashesQuoted quoted cs

def linkedDirective : String :=
  "val u = \"http://x\" // coro-lint: allow(GlobalScopeUsage)\n"

/-- Slashes in a literal hide the directive behind it from its own line and from the next. -/
theorem allowanceAt_hidden_by_literal :
    (Text.lines linkedDirective.toList)[0]? = some ("val u = \"http://x\" ".toList ++
      Directive.text "GlobalScopeUsage".toList none) ∧
    slashesQuoted false "val u = \"http://x\" ".toList = true ∧
    ListsNames ["GlobalScopeUsage".toList] "GlobalScopeUsage".toList ∧
    IsListable "GlobalScopeUsage".toList ∧
    allowanceAt linkedDirective.toList 1 "GlobalScopeUsage" = .denied ∧
    allowanceAt linkedDirective.toList 2 "GlobalScopeUsage" = .denied := by
  have hlist : ListsNames ["GlobalScopeUsage".toList] ([] ++ "GlobalScopeUsage".toList ++ []) :=
    .one (List.forall_mem_nil _) (List.forall_mem_nil _)
  rw [List.nil_append, List.append_nil] at hlist
  exact ⟨by decide +kernel, by decide +kernel, hlist, by decide +kernel, by decide +kernel,
    by decide +kernel⟩

end CoroutineCheck
