import CoroutineCheck.Proofs.Kotlin.Hierarchy
/-!
# How look-ups end

Look-ups of names, types and expressions ask each other, and classes and initializers may refer to
each other in circles. A depth is counted up from 0 along the questions: some kinds of question raise
it, and some are answered with nothing once it is above the greatest depth. Each question asks only
questions of smaller rank, so a bounded number of nested questions settles every answer, and the
symbol of an answer is of bounded height.
-/
namespace CoroutineCheck

/-! ## The height of a symbol -/

namespace Symbol

mutual

/-- The number of steps on the longest way up from a symbol. -/
def height : Symbol → Nat
  | mk _ _ _ above => heightAbove above

def heightAbove : List Symbol → Nat
  | [] => 0
  | s :: rest => max (height s + 1) (heightAbove rest)

end

private theorem heightAbove_le_iff {ss : List Symbol} {n : Nat} :
    heightAbove ss ≤ n ↔ ∀ s ∈ ss, s.height < n := by
  induction ss with
  | nil => simp [heightAbove]
  | cons s rest ih => rw [heightAbove, Nat.max_le, ih, Nat.succ_le_iff, List.forall_mem_cons]

private theorem height_le_iff {s : Symbol} {n : Nat} : s.height ≤ n ↔ ∀ u ∈ s.supertypes, u.height < n := by
  cases s
  rw [height]
  exact heightAbove_le_iff

end Symbol

namespace Kotlin

def Within (n : Nat) (answer : Option Symbol) : Prop := ∀ s, answer = some s → s.height ≤ n

namespace Within

theorem none {n : Nat} : Within n none := by
  intro s hs
  cases hs

theorem some {n : Nat} {s : Symbol} (h : s.height ≤ n) : Within n (some s) := by
  intro u hu
  cases hu
  exact h

theorem mono {m n : Nat} {answer : Option Symbol} (h : Within m answer) (hmn : m ≤ n) :
    Within n answer :=
  fun s hs => Nat.le_trans (h s hs) hmn

theorem bind {n : Nat} {α : Type} {o : Option α} {f : α → Option Symbol}
    (h : ∀ a, o = .some a → Within n (f a)) : Within n (o.bind f) := by
  intro s hs
  obtain ⟨a, ha, hs⟩ := Option.bind_eq_some_iff.mp hs
  exact h a ha s hs

end Within

private theorem guess_height (q : String) (usage : Usage) : (guess q usage).height = 0 := rfl

namespace Library

private theorem entry_height_le {e : Entry} (he : e ∈ entries) :
    e.symbol.height ≤ 3 ∧ ∀ s ∈ e.valueType, s.height ≤ 3 := by
  have h : ∀ e ∈ entries, e.symbol.height ≤ 3 ∧ ∀ s ∈ e.valueType, s.height ≤ 3 := by decide +kernel
  exact h e he

private theorem mem_entries_of_mem_named {e : Entry} {name : String} (he : e ∈ named name) : e ∈ entries :=
  (List.mem_filter.mp he).1

private theorem within_valueSymbol? {e : Entry} (he : e ∈ entries) : Within 3 e.valueSymbol? := by
  rw [Entry.valueSymbol?]
  split
  · exact .some (entry_height_le he).1
  · exact (entry_height_le he).2

end Library

private theorem libraryEntry?_height_le {q : String} {usage : Usage} {e : Library.Entry}
    (h : libraryEntry? q usage = some e) : e.symbol.height ≤ 3 := by
  have hnamed : e ∈ Library.named q := by
    cases usage with
    | called =>
      rcases Option.or_eq_some_iff.mp h with h | ⟨_, h⟩
      · exact List.mem_of_find?_eq_some h
      · exact List.mem_of_find?_eq_some h
    | value => exact List.mem_of_find?_eq_some h
    | type => exact List.mem_of_find?_eq_some h
  exact (Library.entry_height_le (Library.mem_entries_of_mem_named hnamed)).1

namespace Declarations

variable (d : Declarations) (t : Tree)

private theorem classSymbol_height_le {above : String → Option Symbol} {n : Nat} (h : ∀ s, Within n (above s))
    (c : ClassInfo) : (d.classSymbol above c).height ≤ n + 1 := by
  apply Symbol.height_le_iff.mpr
  intro u hu
  obtain ⟨text, _, rfl⟩ := List.mem_map.mp hu
  cases habove : above text with
  | none => simp [guess_height]
  | some s => exact Nat.lt_succ_of_le (h text s habove)

private theorem within_qualified? {above : String → Option Symbol} {n : Nat}
    (h : ∀ s, Within (n + 2) (above s))
    (q : String) (usage : Usage) : Within (n + 3) (d.qualified? above q usage) := by
  rw [qualified?]
  split
  · next e he => exact .some (Nat.le_trans (libraryEntry?_height_le he) (by omega))
  · intro s hs
    obtain ⟨c, _, rfl⟩ := Option.map_eq_some_iff.mp hs
    exact d.classSymbol_height_le h c.2

private theorem within_simple? {above : String → Option Symbol} {n : Nat} (h : ∀ s, Within (n + 2) (above s))
    (name : String) (usage : Usage) : Within (n + 3) (d.simple? above name usage) := by
  rw [simple?]
  split
  · next i _ =>
    apply Within.some
    cases hq : d.qualified? above i.path usage with
    | none => simp [guess_height]
    | some s => exact d.within_qualified? h i.path usage s hq
  split
  · next c _ => exact .some (d.classSymbol_height_le h c)
  split
  · exact .some (Nat.zero_le _)
  · intro s hs
    obtain ⟨i, _, hs⟩ := List.exists_of_findSome?_eq_some hs
    exact d.within_qualified? h _ usage s hs

/-- Each level adds one step to the three of the library. -/
theorem within_type? (n : Nat) (name : String) : Within (n + 2) (d.type? n name) := by
  induction n generalizing name with
  | zero => exact .none
  | succ n ih =>
    rw [type?]
    split
    · exact d.within_qualified? ih name .type
    · exact d.within_simple? ih name .type

private theorem within_qualifiedOn? (n : Nat) (q : String) (usage : Usage) :
    Within (n + 3) (d.qualifiedOn? (n + 1) q usage) :=
  d.within_qualified? (d.within_type? n) q usage

private theorem within_simpleOn? (n : Nat) (name : String) (usage : Usage) :
    Within (n + 3) (d.simpleOn? (n + 1) name usage) :=
  d.within_simple? (d.within_type? n) name usage

private theorem within_call? (n id : Nat) : Within (n + 3) (d.call? (n + 1) t id) := by
  rw [call?]
  split
  · apply Within.bind
    intro name _
    dsimp only
    split
    · next s hs =>
      obtain ⟨p, _, hs⟩ := Option.bind_eq_some_iff.mp hs
      exact .some (d.within_qualifiedOn? n _ _ s hs)
    · exact d.within_simpleOn? n name .called
  · exact .none

private theorem within_navigation? (n id : Nat) : Within (n + 3) (d.navigation? t (n + 1) id) := by
  have hmember (owner : Option Symbol) (name : String) : Within (n + 3) (owner.bind fun o =>
      if o.isType then d.qualifiedOn? (n + 1) (o.qualifiedName ++ "." ++ name) .value else none) := by
    apply Within.bind
    intro o _
    split
    · exact d.within_qualifiedOn? n _ .value
    · exact .none
  rw [navigation?]
  split
  · apply Within.bind
    intro name _
    dsimp only
    split
    · next s hs =>
      obtain ⟨p, _, hs⟩ := Option.bind_eq_some_iff.mp hs
      exact .some (d.within_qualifiedOn? n _ _ s hs)
    · split
      · exact hmember _ name
      · exact hmember _ name
      · exact hmember _ name
  · exact .none

private theorem within_valueType? {n : Nat} {s : Symbol} (hs : s.height ≤ n + 3) :
    Within (n + 3) (d.valueType? n s) := by
  rw [valueType?]
  split
  · exact .some hs
  split
  · next e he =>
    have he := Library.mem_entries_of_mem_named (List.mem_of_find?_eq_some he)
    exact (Library.within_valueSymbol? he).mono (by omega)
  split
  · apply Within.bind
    intro returns _
    apply Within.bind
    intro name _
    exact (d.within_type? n name).mono (by omega)
  · exact .none

def variableType? (n : Nat) (v : VariableInfo) : Option Symbol :=
  match v.type with
  | some name => d.type? n name
  | none => v.initializer.bind (d.typeOf? t n)

private theorem within_typeOf? (n id : Nat) : Within (n + 2) (d.typeOf? t n id) := by
  induction n generalizing id with
  | zero => exact .none
  | succ n ih =>
    have hvariable (v : VariableInfo) : Within (n + 3) (d.variableType? t n v) := by
      rw [variableType?]
      split
      · exact (d.within_type? n _).mono (by omega)
      · exact .bind fun id _ => (ih id).mono (by omega)
    rw [typeOf?]
    dsimp only
    split
    · split
      · exact hvariable _
      · exact .bind fun s hs => d.within_valueType? (d.within_simpleOn? n _ _ s hs)
    · exact .bind fun s hs => d.within_valueType? (d.within_call? t n _ s hs)
    · split
      · next s hs => exact d.within_valueType? (d.within_navigation? t n _ s hs)
      · exact .bind fun name _ => .bind fun v _ => hvariable v
    · split
      · exact .some (Nat.zero_le _)
      · exact .none
    · exact .none

private theorem within_resolve? (id : Nat) : Within (maxDepth + 3) (d.resolve? t id) := by
  have hname (name : String) := d.within_simpleOn? maxDepth name .value
  rw [resolve?]
  split
  · split
    · split
      · exact d.within_navigation? t maxDepth _
      · exact hname _
    · split
      · exact d.within_call? t maxDepth _
      · exact hname _
    · exact hname _
  · exact d.within_call? t maxDepth id
  · exact d.within_navigation? t maxDepth id
  · intro s hs
    obtain ⟨c, _, rfl⟩ := Option.map_eq_some_iff.mp hs
    exact d.classSymbol_height_le (d.within_type? maxDepth) c
  · exact .none

end Declarations

/-! ## Questions -/

/-- A question that look-ups ask each other, with the depth at which it is asked. -/
inductive Query where
  | type (depth : Nat) (text : String)
  | name (depth : Nat) (text : String) (usage : Usage)
  | qualified (depth : Nat) (text : String) (usage : Usage)
  | call (depth : Nat) (id : Nat)
  | navigation (depth : Nat) (id : Nat)
  | valueType (depth : Nat) (s : Symbol)
  | variableType (depth : Nat) (v : VariableInfo)
  | typeOf (depth : Nat) (id : Nat)
  | node (id : Nat)

namespace Query

open Declarations (maxDepth)

variable (d : Declarations) (t : Tree)

/-- How a question is answered if `ask` answers the questions it asks in turn. -/
def answer (ask : Query → Option Symbol) : Query → Option Symbol
  | type k text =>
    if maxDepth < k then none
    else if text.toList.contains '.' then ask (qualified k text .type)
    else ask (name k text .type)
  | name k text usage =>
    if maxDepth < k then none else d.simple? (fun u => ask (type (k + 1) u)) text usage
  | qualified k text usage => d.qualified? (fun u => ask (type (k + 1) u)) text usage
  | call k id =>
    match t.shape id with
    | .call receiver callee _ _ => do
      let s ← t.identifier? callee
      match (receiver.bind (dottedPath? t)).bind fun p => ask (qualified k (p ++ "." ++ s) .called) with
      | some u => return u
      | none => ask (name k s .called)
    | _ => none
  | navigation k id =>
    if maxDepth < k then none
    else
      match t.shape id with
      | .navigation receiver selector => do
        let s ← t.identifier? selector
        match (dottedPath? t id).bind fun p => ask (qualified k p .value) with
        | some u => return u
        | none =>
          let owner ← match t.shape receiver with
            | .identifier r => ask (name (k + 1) r .value)
            | .navigation _ _ => ask (navigation (k + 1) receiver)
            | _ => none
          if owner.isType then ask (qualified k (owner.qualifiedName ++ "." ++ s) .value) else none
      | _ => none
  | valueType k s =>
    if s.isType then some s
    else
      match (Library.named s.qualifiedName).find? (·.symbol.kind == s.kind) with
      | some e => e.valueSymbol?
      | none =>
        if s.kind == .function && s.qualifiedName == d.qualify s.simpleName then do
          let returns ← d.functions.lookup s.simpleName
          ask (type (k + 1) (← returns))
        else none
  | variableType k v =>
    match v.type with
    | some u => ask (type (k + 1) u)
    | none => v.initializer.bind fun id => ask (typeOf (k + 1) id)
  | typeOf k id =>
    if maxDepth < k then none
    else
      let node := t.stripParens (t.argumentValue id)
      match t.shape node with
      | .identifier s =>
        match d.variableAt? s (t.span node).start with
        | some v => ask (variableType k v)
        | none => (ask (name k s .value)).bind fun u => ask (valueType k u)
      | .call _ _ _ _ => (ask (call k node)).bind fun u => ask (valueType k u)
      | .navigation _ selector =>
        match ask (navigation k node) with
        | some u => ask (valueType k u)
        | none => do
          let s ← t.identifier? selector
          let v ← d.variableAt? s (t.span node).start
          ask (variableType k v)
      | .binary op _ _ => if op == "+" then some Library.context else none
      | _ => none
  | node id =>
    match t.shape id with
    | .identifier s =>
      match (t.parent? id).map fun p => (p, t.shape p) with
      | some (p, .navigation _ selector) =>
        if selector == id then ask (navigation 0 p) else ask (name 0 s .value)
      | some (p, .call _ callee _ _) =>
        if callee == id then ask (call 0 p) else ask (name 0 s .value)
      | _ => ask (name 0 s .value)
    | .call _ _ _ _ => ask (call 0 id)
    | .navigation _ _ => ask (navigation 0 id)
    | .classDecl _ => (d.classAt? id).map (d.classSymbol fun u => ask (type 1 u))
    | _ => none

/-- The levels left count first, and on a level the kind of question. A question that its depth alone
answers comes before all others. -/
def rank : Query → Nat
  | type k _ => if maxDepth < k then 0 else 4 * (maxLevels - k) + 2
  | name k _ _ => if maxDepth < k then 0 else 4 * (maxLevels - k) + 1
  | qualified k _ _ => 4 * (maxLevels - k) + 1
  | call k _ => 4 * (maxLevels - k) + 2
  | navigation k _ => if maxDepth < k then 0 else 4 * (maxLevels - k) + 2
  | valueType k _ => 4 * (maxLevels - k) + 1
  | variableType k _ => 4 * (maxLevels - k) + 1
  | typeOf k _ => if maxDepth < k then 0 else 4 * (maxLevels - k) + 3
  | node _ => 4 * maxLevels + 4

/-- The questions that a question asks in turn, and the depths they are asked at. -/
inductive Asks : Query → Query → Prop where
  | typeQualified {k text} : k ≤ maxDepth → Asks (type k text) (qualified k text .type)
  | typeName {k text} : k ≤ maxDepth → Asks (type k text) (name k text .type)
  | nameType {k text usage u} : k ≤ maxDepth → Asks (name k text usage) (type (k + 1) u)
  | qualifiedType {k text usage u} : Asks (qualified k text usage) (type (k + 1) u)
  | callQualified {k id text} : Asks (call k id) (qualified k text .called)
  | callName {k id text} : Asks (call k id) (name k text .called)
  | navigationQualified {k id text} : k ≤ maxDepth →
      Asks (navigation k id) (qualified k text .value)
  | navigationName {k id text} : k ≤ maxDepth → Asks (navigation k id) (name (k + 1) text .value)
  | navigationReceiver {k id receiver} : k ≤ maxDepth →
      Asks (navigation k id) (navigation (k + 1) receiver)
  | valueTypeType {k s u} : Asks (valueType k s) (type (k + 1) u)
  | variableTypeType {k v u} : Asks (variableType k v) (type (k + 1) u)
  | variableTypeTypeOf {k v id} : Asks (variableType k v) (typeOf (k + 1) id)
  | typeOfVariable {k id v} : k ≤ maxDepth → Asks (typeOf k id) (variableType k v)
  | typeOfName {k id text} : k ≤ maxDepth → Asks (typeOf k id) (name k text .value)
  | typeOfCall {k id node} : k ≤ maxDepth → Asks (typeOf k id) (call k node)
  | typeOfNavigation {k id node} : k ≤ maxDepth → Asks (typeOf k id) (navigation k node)
  | typeOfValue {k id s} : k ≤ maxDepth → Asks (typeOf k id) (valueType k s)
  | nodeName {id text} : Asks (node id) (name 0 text .value)
  | nodeCall {id call} : Asks (node id) (.call 0 call)
  | nodeNavigation {id navigation} : Asks (node id) (.navigation 0 navigation)
  | nodeType {id u} : Asks (node id) (type 1 u)

private theorem rank_lt_of_asks {q q' : Query} (h : q.Asks q') : q'.rank < q.rank := by
  cases h <;> grind [rank, maxDepth, maxLevels]

variable {d t}

/-- An answer rests on the answers to the questions asked and on nothing else. -/
private theorem answer_congr {ask ask' : Query → Option Symbol} {q : Query}
    (h : ∀ q', q.Asks q' → ask q' = ask' q') : q.answer d t ask = q.answer d t ask' := by
  cases q with
  | type k text =>
    by_cases hk : maxDepth < k
    · simp only [answer, if_pos hk]
    have hk := Nat.le_of_not_lt hk
    simp only [answer, h _ (.typeQualified hk), h _ (.typeName hk)]
  | name k text usage =>
    by_cases hk : maxDepth < k
    · simp only [answer, if_pos hk]
    have htype (u : String) := h _ (.nameType (u := u) (Nat.le_of_not_lt hk))
    simp only [answer, htype]
  | qualified k text usage =>
    have htype (u : String) := h _ (.qualifiedType (u := u))
    simp only [answer, htype]
  | call k id =>
    have hqualified (s : String) := h _ (@Asks.callQualified k id s)
    have hname (s : String) := h _ (@Asks.callName k id s)
    simp only [answer, hqualified, hname]
  | navigation k id =>
    by_cases hk : maxDepth < k
    · simp only [answer, if_pos hk]
    have hk := Nat.le_of_not_lt hk
    have hqualified (s : String) := h _ (@Asks.navigationQualified k id s hk)
    have hname (s : String) := h _ (@Asks.navigationName k id s hk)
    have hreceiver (r : Nat) := h _ (@Asks.navigationReceiver k id r hk)
    simp only [answer, hqualified, hname, hreceiver]
  | valueType k s =>
    have htype (u : String) := h _ (@Asks.valueTypeType k s u)
    simp only [answer, htype]
  | variableType k v =>
    have htype (u : String) := h _ (@Asks.variableTypeType k v u)
    have htypeOf (id : Nat) := h _ (@Asks.variableTypeTypeOf k v id)
    simp only [answer, htype, htypeOf]
  | typeOf k id =>
    by_cases hk : maxDepth < k
    · simp only [answer, if_pos hk]
    have hk := Nat.le_of_not_lt hk
    have hvariable (v : VariableInfo) := h _ (@Asks.typeOfVariable k id v hk)
    have hname (s : String) := h _ (@Asks.typeOfName k id s hk)
    have hcall (node : Nat) := h _ (@Asks.typeOfCall k id node hk)
    have hnavigation (node : Nat) := h _ (@Asks.typeOfNavigation k id node hk)
    have hvalue (s : Symbol) := h _ (@Asks.typeOfValue k id s hk)
    simp only [answer, hvariable, hname, hcall, hnavigation, hvalue]
  | node id =>
    have hname (s : String) := h _ (@Asks.nodeName id s)
    have hcall (c : Nat) := h _ (@Asks.nodeCall id c)
    have hnavigation (n : Nat) := h _ (@Asks.nodeNavigation id n)
    have htype (u : String) := h _ (@Asks.nodeType id u)
    simp only [answer, hname, hcall, hnavigation, htype]

variable (d t)

/-- The answers found by following questions `n` deep, with `beyond` for those asked further down. -/
def followed (beyond : Query → Option Symbol) : Nat → Query → Option Symbol
  | 0, q => beyond q
  | n + 1, q => q.answer d t (followed beyond n)

/-- What the resolver answers: the levels that it counts down are the depths still left. -/
def reply : Query → Option Symbol
  | type k text => d.type? (maxLevels - k) text
  | name k text usage => d.simpleOn? (maxLevels - k) text usage
  | qualified k text usage => d.qualifiedOn? (maxLevels - k) text usage
  | call k id => d.call? (maxLevels - k) t id
  | navigation k id => d.navigation? t (maxLevels - k) id
  | valueType k s => d.valueType? (maxLevels - (k + 1)) s
  | variableType k v => d.variableType? t (maxLevels - (k + 1)) v
  | typeOf k id => d.typeOf? t (maxLevels - k) id
  | node id => d.resolve? t id

private theorem levels_eq_zero {k : Nat} (hk : maxDepth < k) : maxLevels - k = 0 := by
  rw [maxDepth] at hk
  omega

private theorem levels_eq_succ {k : Nat} (hk : ¬ maxDepth < k) :
    maxLevels - k = maxLevels - (k + 1) + 1 := by
  have hpos : 0 < maxLevels := by decide
  rw [maxDepth] at hk
  omega

private theorem reply_eq_answer (q : Query) : q.reply d t = q.answer d t (reply d t) := by
  -- Where the depth is compared, no levels are left just if it is above the greatest depth.
  cases q with
  | type k text =>
    by_cases hk : maxDepth < k
    · simp only [reply, answer, if_pos hk, levels_eq_zero hk, Declarations.type?]
    · simp only [reply, answer, if_neg hk, levels_eq_succ hk]
      rfl
  | name k text usage =>
    by_cases hk : maxDepth < k
    · simp only [reply, answer, if_pos hk, levels_eq_zero hk, Declarations.simpleOn?]
    · simp only [reply, answer, if_neg hk, levels_eq_succ hk]
      rfl
  | qualified k text usage => rfl
  | call k id => rfl
  | navigation k id =>
    by_cases hk : maxDepth < k
    · simp only [reply, answer, if_pos hk, levels_eq_zero hk, Declarations.navigation?]
    · simp only [reply, answer, if_neg hk, levels_eq_succ hk]
      rfl
  | valueType k s => rfl
  | variableType k v => rfl
  | typeOf k id =>
    by_cases hk : maxDepth < k
    · simp only [reply, answer, if_pos hk, levels_eq_zero hk, Declarations.typeOf?]
    · simp only [reply, answer, if_neg hk, levels_eq_succ hk]
      rfl
  | node id => rfl

/-- Following questions further than their rank finds the resolver's answers, whatever is beyond. -/
theorem followed_eq_reply (beyond : Query → Option Symbol) {n : Nat} {q : Query} (hn : q.rank < n) :
    followed d t beyond n q = q.reply d t := by
  induction n generalizing q with
  | zero => exact absurd hn (Nat.not_lt_zero _)
  | succ n ih =>
    have hasked (q' : Query) (h : q.Asks q') : followed d t beyond n q' = q'.reply d t := by
      apply ih
      have := rank_lt_of_asks h
      omega
    calc
      followed d t beyond (n + 1) q = q.answer d t (followed d t beyond n) := rfl
      _ = q.answer d t (reply d t) := answer_congr hasked
      _ = q.reply d t := (reply_eq_answer d t q).symm

def maxNesting : Nat := 4 * maxLevels + 5

end Query

namespace Declarations

open Query (followed maxNesting)

/-- The look-ups end, also where classes or initializers refer to each other in circles: with questions
followed `maxNesting` deep, what would be answered further down has no influence on the answers. A symbol
in an answer is at most as high as the depths that are resolved, with the library's types on top. -/
theorem resolver_ends_with_bounded_height (d : Declarations) (t : Tree) (id : Nat) :
    (∀ beyond n, maxNesting ≤ n →
      followed d t beyond n (.node id) = d.resolver.resolve t id ∧
      followed d t beyond n (.typeOf 0 id) = d.resolver.typeOf t id) ∧
    ∀ s, d.resolver.resolve t id = some s ∨ d.resolver.typeOf t id = some s →
      s.height ≤ maxDepth + 3 := by
  constructor
  · intro beyond n hn
    have hnode : (Query.node id).rank < maxNesting := Nat.lt_succ_self _
    have htype : (Query.typeOf 0 id).rank < maxNesting := by simp [Query.rank, maxNesting, maxDepth]
    exact ⟨Query.followed_eq_reply d t beyond (Nat.lt_of_lt_of_le hnode hn),
      Query.followed_eq_reply d t beyond (Nat.lt_of_lt_of_le htype hn)⟩
  · rintro s (hs | hs)
    · exact d.within_resolve? t id s hs
    · exact d.within_typeOf? t maxLevels id s hs

-- Eight classes in a row with an object of the library on top reach the bound.
example :
    let above := ["B", "C", "D", "E", "F", "G", "H", "kotlinx.coroutines.NonCancellable"]
    let d : Declarations := { empty with
      classes := (("A" :: above).zip above).zipIdx.map fun c => (c.2, ⟨c.1.1, false, [c.1.2]⟩) }
    (d.classSymbol (d.type? maxDepth) ⟨"A", false, ["B"]⟩).height = maxDepth + 3 := by
  decide +kernel

def circles : String := "class A : B()\nclass B : A()\nclass C : C()\nval a = b\nval b = a\n"

def circlesRows : Row :=
  .over "source_file" 0 62 [
    .over "class_declaration" 0 13 [.over "identifier" 6 7 [],
      .over "delegation_specifiers" 10 13 [.over "delegation_specifier" 10 13 [
        .over "constructor_invocation" 10 13 [.over "user_type" 10 11 []]]]],
    .over "class_declaration" 14 27 [.over "identifier" 20 21 [],
      .over "delegation_specifiers" 24 27 [.over "delegation_specifier" 24 27 [
        .over "constructor_invocation" 24 27 [.over "user_type" 24 25 []]]]],
    .over "class_declaration" 28 41 [.over "identifier" 34 35 [],
      .over "delegation_specifiers" 38 41 [.over "delegation_specifier" 38 41 [
        .over "constructor_invocation" 38 41 [.over "user_type" 38 39 []]]]],
    .over "property_declaration" 42 51 [
      .over "variable_declaration" 46 47 [.over "identifier" 46 47 []],
      .token "=" 48 49,
      .over "identifier" 50 51 []],
    .over "property_declaration" 52 61 [
      .over "variable_declaration" 56 57 [.over "identifier" 56 57 []],
      .token "=" 58 59,
      .over "identifier" 60 61 []]]

def circlesLayout : Layout := layout circles circlesRows

theorem resolver_ends_with_bounded_height_circles :
    circlesLayout.tree.shape 2 = .classDecl "C" ∧ circlesLayout.tree.shape 3 = .identifier "b" ∧
    (∀ beyond, followed circlesLayout.declarations circlesLayout.tree beyond maxNesting (.typeOf 0 3) =
      none) ∧
    ∃ s, circlesLayout.declarations.resolver.resolve circlesLayout.tree 2 = some s ∧
      s.height = 9 ∧ s.height ≤ maxDepth + 3 := by
  have htypeOf : circlesLayout.declarations.resolver.typeOf circlesLayout.tree 3 = none := by
    apply Option.isNone_iff_eq_none.mp
    decide +kernel
  have hclass : (circlesLayout.declarations.resolver.resolve circlesLayout.tree 2).map Symbol.height =
      some 9 := by
    decide +kernel
  obtain ⟨s, hs, hheight⟩ := Option.map_eq_some_iff.mp hclass
  obtain ⟨hends, _⟩ := resolver_ends_with_bounded_height circlesLayout.declarations circlesLayout.tree 3
  obtain ⟨_, hbound⟩ := resolver_ends_with_bounded_height circlesLayout.declarations circlesLayout.tree 2
  refine ⟨by decide +kernel, by decide +kernel, fun beyond => ?_, s, hs, hheight, hbound s (.inl hs)⟩
  exact (hends beyond maxNesting (Nat.le_refl _)).2.trans htypeOf

end Declarations
end Kotlin
end CoroutineCheck
