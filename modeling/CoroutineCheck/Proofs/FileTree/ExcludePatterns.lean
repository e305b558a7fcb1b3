import CoroutineCheck.FileTree.ExcludePattern
import CoroutineCheck.Proofs.Path.Components
/-!
# Matching of exclude patterns

A pattern matches a text if its tokens, one behind the other, span it. A pattern `**/name/**` matches
the texts in which a separator follows the name as a piece of its own.
-/
namespace CoroutineCheck

private theorem Text.mem_dropLast_pieces_iff {sep : Char} {name text : List Char} (h : sep ∉ name) :
    name ∈ (pieces sep text).dropLast ↔ ∃ front back, text = front ++ name ++ sep :: back ∧
      (front = [] ∨ front.getLast? = some sep) := by
  constructor
  · induction hn : text.length using Nat.strongRecOn generalizing text with
    | ind n ih =>
      intro hmem
      by_cases hsep : sep ∈ text
      · obtain ⟨first, rest, rfl, hfirst⟩ := List.eq_append_cons_of_mem hsep
        rw [pieces_append_sep, pieces_of_not_mem hfirst,
          List.dropLast_append_of_ne_nil (pieces_ne_nil rest), List.singleton_append,
          List.mem_cons] at hmem
        rcases hmem with rfl | hmem
        · exact ⟨[], rest, by simp, .inl rfl⟩
        · have hlt : rest.length < n := by
            rw [← hn, List.length_append, List.length_cons]
            omega
          obtain ⟨front, back, rfl, hfront⟩ := ih rest.length hlt rfl hmem
          refine ⟨first ++ sep :: front, back, by simp, .inr ?_⟩
          rcases hfront with rfl | hfront
          · simp
          · simp [List.getLast?_cons, hfront]
      · rw [pieces_of_not_mem hsep] at hmem
        cases hmem
  · rintro ⟨front, back, rfl, hfront⟩
    have hname : name ∈ (pieces sep (name ++ sep :: back)).dropLast := by
      rw [pieces_append_sep, pieces_of_not_mem h, List.dropLast_append_of_ne_nil (pieces_ne_nil back)]
      exact List.mem_append_left _ (List.mem_singleton_self name)
    rcases hfront with rfl | hfront
    · exact hname
    · obtain ⟨front, rfl⟩ := List.getLast?_eq_some_iff.mp hfront
      rw [List.append_assoc, List.append_assoc, List.singleton_append, pieces_append_sep,
        List.dropLast_append_of_ne_nil (pieces_ne_nil _)]
      exact List.mem_append_right _ hname

namespace Text.Places

variable {α : Type} {test : α → Bool} {text : List α} {places : Places} {j : Nat}

private theorem getElem?_step : (places.step test text)[j]? = some true ↔
    ∃ i, places[i]? = some true ∧ j = i + 1 ∧ ∃ c, text[i]? = some c ∧ test c = true := by
  cases j with
  | zero => simp [step]
  | succ i =>
    simp only [step, List.getElem?_cons_succ, List.getElem?_zipWith]
    cases hc : text[i]? <;> cases hp : places[i]? <;> simp [hc, hp]

private theorem exists_le_succ_iff {here : Bool} :
    (∃ i ≤ j + 1, (here :: places)[i]? = some true) ↔
      here = true ∨ ∃ i ≤ j, places[i]? = some true := by
  constructor
  · rintro ⟨i, hi, hplace⟩
    cases i with
    | zero => exact .inl (by simpa using hplace)
    | succ i => exact .inr ⟨i, by omega, hplace⟩
  · rintro (rfl | ⟨i, hi, hplace⟩)
    · exact ⟨0, by omega, rfl⟩
    · exact ⟨i + 1, by omega, hplace⟩

private theorem getElem?_spreadFrom {reached : Bool} (h : places.length = text.length + 1) :
    (spreadFrom (fun _ => true) reached text places)[j]? = some true ↔
      j ≤ text.length ∧ (reached = true ∨ ∃ i ≤ j, places[i]? = some true) := by
  induction text generalizing places reached j with
  | nil =>
    obtain ⟨here, rfl⟩ := List.length_eq_one_iff.mp h
    cases j with
    | zero => simp [spreadFrom]
    | succ j => simp [spreadFrom]
  | cons c text ih =>
    cases places with
    | nil => simp at h
    | cons here places =>
      rw [spreadFrom]
      cases j with
      | zero => simp
      | succ j =>
        rw [List.getElem?_cons_succ, ih (by simpa using h), exists_le_succ_iff]
        simp [or_assoc]

private theorem getElem?_behindFrom {reached : Bool} (h : places.length = text.length + 1) :
    (behindFrom test reached text places)[j]? = some true ↔
      (∃ c, text[j]? = some c ∧ test c = true) ∧
        (reached = true ∨ ∃ i ≤ j, places[i]? = some true) := by
  induction text generalizing places reached j with
  | nil => simp [behindFrom]
  | cons c text ih =>
    cases places with
    | nil => simp at h
    | cons here places =>
      rw [behindFrom]
      cases j with
      | zero => simp [and_comm]
      | succ j =>
        rw [List.getElem?_cons_succ, ih (by simpa using h), exists_le_succ_iff]
        simp [or_assoc]

private theorem getElem?_behind (h : places.length = text.length + 1) :
    (places.behind test text)[j]? = some true ↔ ∃ i, places[i]? = some true ∧
      ∃ k, j = k + 1 ∧ i ≤ k ∧ ∃ c, text[k]? = some c ∧ test c = true := by
  cases j with
  | zero => simp [behind]
  | succ k =>
    rw [behind, List.getElem?_cons_succ, getElem?_behindFrom h]
    constructor
    · rintro ⟨hc, hreached | ⟨i, hi, hplace⟩⟩
      · cases hreached
      · exact ⟨i, hplace, k, rfl, hi, hc⟩
    · rintro ⟨i, hplace, k', hk, hi, hc⟩
      obtain rfl : k = k' := Nat.succ.inj hk
      exact ⟨hc, .inr ⟨i, hi, hplace⟩⟩

private theorem length_behindFrom {reached : Bool} (h : places.length = text.length + 1) :
    (behindFrom test reached text places).length = text.length := by
  induction text generalizing places reached with
  | nil => rfl
  | cons c text ih =>
    cases places with
    | nil => simp at h
    | cons here places => rw [behindFrom, List.length_cons, ih (by simpa using h), List.length_cons]

private theorem length_spreadFrom {reached : Bool} (h : places.length = text.length + 1) :
    (spreadFrom test reached text places).length = text.length + 1 := by
  induction text generalizing places reached with
  | nil =>
    obtain ⟨here, rfl⟩ := List.length_eq_one_iff.mp h
    rfl
  | cons c text ih =>
    cases places with
    | nil => simp at h
    | cons here places => rw [spreadFrom, List.length_cons, ih (by simpa using h), List.length_cons]

private theorem getElem?_atLast :
    (places.atLast text)[j]? = some true ↔ ∃ i : Nat, places[i]? = some true ∧ j = text.length := by
  have hany : places.any id = true ↔ ∃ i : Nat, places[i]? = some true := by
    simp only [List.any_eq_true, id, exists_eq_right, List.mem_iff_getElem?]
  unfold atLast
  by_cases hj : j < text.length
  · rw [List.getElem?_append_left (by simpa using hj)]
    simp [Nat.ne_of_lt hj, hj]
  · rw [List.getElem?_append_right (by simpa using hj), List.length_map]
    by_cases hlast : j = text.length
    · simp [hlast, hany]
    · have hpos : j - text.length ≠ 0 := by omega
      obtain ⟨k, hk⟩ := Nat.exists_eq_succ_of_ne_zero hpos
      simp [hk, hlast]

private theorem getElem?_union {others : Places} (h : places.length = others.length) :
    (places.union others)[j]? = some true ↔ places[j]? = some true ∨ others[j]? = some true := by
  rw [union, List.getElem?_zipWith]
  by_cases hj : j < places.length
  · rw [List.getElem?_eq_getElem hj, List.getElem?_eq_getElem (h ▸ hj)]
    simp
  · rw [List.getElem?_eq_none (by omega), List.getElem?_eq_none (by omega)]
    simp

end Text.Places

namespace ExcludePattern

open Text

/-- Whether a token can stand for the part of a text between two places. -/
def Token.Spans (text : List Char) (i j : Nat) : Token → Prop
  | star => i ≤ j ∧ j ≤ text.length
  | deep => j = i ∨ (∃ k, j = k + 1 ∧ i ≤ k ∧ text[k]? = some '/') ∨ j = text.length
  | t => j = i + 1 ∧ ∃ c, text[i]? = some c ∧ t.accepts c = true

def Spans (text : List Char) : Nat → Nat → List Token → Prop
  | i, j, [] => i = j
  | i, j, t :: ts => ∃ k, t.Spans text i k ∧ Spans text k j ts

variable {text : List Char} {places : Places}

private theorem Token.length_move (h : places.length = text.length + 1) (t : Token) :
    (t.move text places).length = text.length + 1 := by
  cases t with
  | star => exact Places.length_spreadFrom h
  | deep => simp [move, Places.union, Places.behind, Places.atLast, Places.length_behindFrom h, h]
  | _ => simp [move, Places.step, h]

private theorem Token.getElem?_move (h : places.length = text.length + 1) (t : Token) {j : Nat} :
    (t.move text places)[j]? = some true ↔ ∃ i, places[i]? = some true ∧ t.Spans text i j := by
  cases t with
  | star =>
    rw [move, Places.spread, Places.getElem?_spreadFrom h]
    simp only [Spans, Bool.false_eq_true, false_or]
    constructor
    · rintro ⟨hj, i, hi, hplace⟩
      exact ⟨i, hplace, hi, hj⟩
    · rintro ⟨i, hplace, hi, hj⟩
      exact ⟨hj, i, hi, hplace⟩
  | deep =>
    have hbehind : (places.behind (· == '/') text).length = places.length := by
      rw [Places.behind, List.length_cons, Places.length_behindFrom h, h]
    have hunion : (places.union (places.behind (· == '/') text)).length =
        (places.atLast text).length := by
      simp [Places.union, Places.atLast, hbehind, h]
    rw [move, Places.getElem?_union hunion, Places.getElem?_union hbehind.symm,
      Places.getElem?_behind h, Places.getElem?_atLast]
    simp only [Spans, and_or_left, exists_or, exists_eq_right', or_assoc, beq_iff_eq, exists_eq_right]
  | char c => exact Places.getElem?_step
  | any => exact Places.getElem?_step
  | oneOf negated ranges => exact Places.getElem?_step

private theorem hasEnd_foldl_move (h : places.length = text.length + 1) (ts : List Token) :
    (ts.foldl (Token.move text) places).hasEnd = true ↔
      ∃ i, places[i]? = some true ∧ Spans text i text.length ts := by
  induction ts generalizing places with
  | nil =>
    rw [List.foldl_nil, Places.hasEnd, beq_iff_eq, List.getLast?_eq_getElem?, h]
    simp [Spans]
  | cons t ts ih =>
    rw [List.foldl_cons, ih (t.length_move h)]
    simp only [t.getElem?_move h, Spans]
    constructor
    · rintro ⟨k, ⟨i, hi, ht⟩, hts⟩
      exact ⟨i, hi, k, ht, hts⟩
    · rintro ⟨i, hi, k, ht, hts⟩
      exact ⟨k, ⟨i, hi, ht⟩, hts⟩

private theorem isMatch_iff (p : ExcludePattern) (text : String) :
    p.isMatch text = true ↔ Spans text.toList 0 text.toList.length p.tokens := by
  have hstart : ∀ i, (Places.start text.toList)[i]? = some true ↔ i = 0 := by
    intro i
    cases i with
    | zero => simp [Places.start]
    | succ i => simp [Places.start, List.getElem?_replicate]
  rw [isMatch, hasEnd_foldl_move (by simp [Places.start])]
  simp only [hstart, exists_eq_left]

private theorem spans_chars_iff {i j : Nat} (name : List Char) (ts : List Token) :
    Spans text i j (name.map .char ++ ts) ↔
      name <+: text.drop i ∧ Spans text (i + name.length) j ts := by
  induction name generalizing i with
  | nil => simp
  | cons c name ih =>
    rw [List.map_cons, List.cons_append, Spans]
    constructor
    · rintro ⟨k, ⟨rfl, d, hd, hcd⟩, hrest⟩
      obtain ⟨hname, hts⟩ := ih.mp hrest
      obtain ⟨hi, rfl⟩ := List.getElem?_eq_some_iff.mp hd
      rw [List.drop_eq_getElem_cons hi, List.cons_prefix_cons]
      refine ⟨⟨beq_iff_eq.mp hcd, hname⟩, ?_⟩
      rwa [List.length_cons, Nat.add_comm name.length, ← Nat.add_assoc]
    · rintro ⟨hname, hts⟩
      have hi : i < text.length := by
        by_contra hi
        rw [List.drop_eq_nil_of_le (by omega)] at hname
        simp at hname
      rw [List.drop_eq_getElem_cons hi, List.cons_prefix_cons] at hname
      refine ⟨i + 1, ⟨rfl, text[i], List.getElem?_eq_getElem hi, beq_iff_eq.mpr hname.1⟩,
        ih.mpr ⟨hname.2, ?_⟩⟩
      rwa [List.length_cons, Nat.add_comm name.length, ← Nat.add_assoc] at hts

def below (name : List Char) : ExcludePattern :=
  ⟨.deep :: ((name ++ ['/']).map .char ++ [.deep])⟩

private theorem spans_below_iff {name : List Char} : Spans text 0 text.length (below name).tokens ↔
    ∃ front back, text = front ++ name ++ '/' :: back ∧ (front = [] ∨ front.getLast? = some '/') := by
  simp only [below, Spans, Token.Spans, spans_chars_iff]
  constructor
  · rintro ⟨k, hk, ⟨back, hback⟩, -⟩
    have htext : text = text.take k ++ name ++ '/' :: back := by
      rw [List.append_assoc, ← List.singleton_append (l := back), ← List.append_assoc name, hback,
        List.take_append_drop]
    refine ⟨text.take k, back, htext, ?_⟩
    rcases hk with rfl | ⟨m, rfl, -, hm⟩ | rfl
    · exact .inl List.take_zero
    · exact .inr (by simp [List.take_add_one, hm])
    · simp at hback
  · rintro ⟨front, back, rfl, hfront⟩
    refine ⟨front.length, ?_, ⟨back, by simp⟩, _, .inr (.inr rfl), rfl⟩
    rcases hfront with rfl | hfront
    · exact .inl rfl
    · obtain ⟨front, rfl⟩ := List.getLast?_eq_some_iff.mp hfront
      exact .inr (.inl ⟨front.length, by simp, by simp, by simp⟩)

/-- The pattern for what is below a name matches the texts in which a separator follows the name as a piece
of its own. -/
theorem isMatch_below_iff {name : List Char} (h : '/' ∉ name) (text : String) :
    (below name).isMatch text = true ↔ name ∈ (Text.pieces '/' text.toList).dropLast := by
  rw [isMatch_iff, spans_below_iff, Text.mem_dropLast_pieces_iff h]

end ExcludePattern

end CoroutineCheck
