import CoroutineCheck.Proofs.Path.Components
import CoroutineCheck.Proofs.Text.Cuts
import CoroutineCheck.Proofs.Text.Search
import CoroutineCheck.Text.Lines
/-!
# Offsets, positions and lines

An offset stands in one of the pieces between line feeds. The number of that piece and the distance from
its start are the position, so positions come in the order of offsets and an offset can be found again
from its position. Unless it points into the end of a line, the offset stands in the line of that number.
-/
namespace CoroutineCheck.Text

def bytes (cs : List Char) : List UInt8 := cs.flatMap String.utf8EncodeChar

@[simp] private theorem length_bytes (cs : List Char) : (bytes cs).length = byteLength cs := by
  induction cs with
  | nil => rfl
  | cons c cs ih =>
    rw [bytes, List.flatMap_cons, List.length_append, String.length_utf8EncodeChar]
    exact congrArg _ ih

private theorem bytes_append (cs ds : List Char) : bytes (cs ++ ds) = bytes cs ++ bytes ds :=
  List.flatMap_append

private theorem getElem?_bytes_append (front rest : List Char) (n : Nat) :
    (bytes (front ++ rest))[byteLength front + n]? = (bytes rest)[n]? := by
  rw [bytes_append, List.getElem?_append_right (by rw [length_bytes]; omega), length_bytes,
    Nat.add_sub_cancel_left]

private theorem getElem?_bytes_of_lt {front : List Char} (rest : List Char) {n : Nat}
    (h : n < byteLength front) : (bytes (front ++ rest))[n]? = (bytes front)[n]? := by
  rw [bytes_append, List.getElem?_append_left (by rwa [length_bytes])]

/-- A byte of a text points into the end of a line: it is a line feed, or a carriage return with a line
feed behind it. -/
def InLineEnd (text : List Char) (offset : Nat) : Prop :=
  (bytes text)[offset]? = some 10 ∨
    ((bytes text)[offset]? = some 13 ∧ (bytes text)[offset + 1]? = some 10)

instance (text : List Char) (offset : Nat) : Decidable (InLineEnd text offset) :=
  inferInstanceAs (Decidable (_ ∨ _))

structure IsLine (text front line back : List Char) : Prop where
  text_eq : text = front ++ (line ++ back)
  starts : front = [] ∨ ∃ before, front = before ++ ['\n']
  unbroken : '\n' ∉ line
  ends : back = [] ∨ (∃ rest, back = '\r' :: '\n' :: rest) ∨
    (∃ rest, back = '\n' :: rest) ∧ ∀ before, line ≠ before ++ ['\r']

def Position.Before (p q : Position) : Prop :=
  p.line < q.line ∨ (p.line = q.line ∧ p.column < q.column)

/-! ## Pieces between line feeds -/

/-- The offset at which a piece begins, with a line feed behind each piece in front of it. -/
def pieceStart : List (List Char) → Nat → Nat
  | p :: ps, n + 1 => byteLength p + 1 + pieceStart ps n
  | _, _ => 0

def Position.offset (text : List Char) (p : Position) : Nat :=
  pieceStart (pieces '\n' text) (p.line - 1) + (p.column - 1)

section Pieces

variable {ps : List (List Char)} {p : List Char} {k n : Nat}

private theorem pieceStart_zero (ps : List (List Char)) : pieceStart ps 0 = 0 := by
  cases ps <;> rfl

private theorem pieceStart_succ (h : ps[k]? = some p) :
    pieceStart ps (k + 1) = pieceStart ps k + byteLength p + 1 := by
  induction ps generalizing k with
  | nil => cases h
  | cons q ps ih =>
    cases k with
    | zero =>
      cases h
      rw [pieceStart, pieceStart_zero, pieceStart_zero]
      omega
    | succ k =>
      rw [pieceStart, pieceStart, ih h]
      omega

private theorem pieceStart_lt {m : Nat} {q : List Char} (hk : ps[k]? = some p) (hm : ps[m]? = some q)
    (hkm : k < m) : pieceStart ps k + byteLength p < pieceStart ps m := by
  induction m generalizing q with
  | zero => omega
  | succ m ih =>
    have hlt : m < ps.length := by
      have := (List.getElem?_eq_some_iff.mp hm).1
      omega
    have hq := List.getElem?_eq_getElem hlt
    rw [pieceStart_succ hq]
    rcases Nat.lt_succ_iff_lt_or_eq.mp hkm with hkm | rfl
    · have := ih hq hkm
      omega
    · rw [hq] at hk
      cases hk
      omega

private theorem intercalate_split (hk : ps[k]? = some p) :
    ∃ front back, ['\n'].intercalate ps = front ++ (p ++ back) ∧ byteLength front = pieceStart ps k ∧
      (front = [] ∨ ∃ before, front = before ++ ['\n']) ∧
      (k + 1 = ps.length ∧ back = [] ∨ k + 1 < ps.length ∧ ∃ rest, back = '\n' :: rest) := by
  induction ps generalizing k with
  | nil => cases hk
  | cons q ps ih =>
    cases k with
    | zero =>
      cases hk
      cases ps with
      | nil => exact ⟨[], [], by simp, rfl, .inl rfl, .inl ⟨rfl, rfl⟩⟩
      | cons r ps =>
        refine ⟨[], '\n' :: ['\n'].intercalate (r :: ps), ?_, rfl, .inl rfl, .inr ⟨by simp, _, rfl⟩⟩
        rw [List.intercalate_cons_cons, List.nil_append, List.append_assoc]
        rfl
    | succ k =>
      cases ps with
      | nil => cases hk
      | cons r ps =>
        obtain ⟨front, back, heq, hlen, hfront, hback⟩ := ih hk
        refine ⟨q ++ '\n' :: front, back, ?_, ?_, .inr ?_, ?_⟩
        · rw [List.intercalate_cons_cons, heq]
          simp
        · rw [byteLength_append, byteLength_cons, hlen, pieceStart]
          change byteLength q + (1 + _) = _
          omega
        · rcases hfront with rfl | ⟨before, rfl⟩
          · exact ⟨q, rfl⟩
          · exact ⟨q ++ '\n' :: before, by simp⟩
        · rw [List.length_cons]
          rcases hback with ⟨hk, hback⟩ | ⟨hk, hback⟩
          · exact .inl ⟨by omega, hback⟩
          · exact .inr ⟨by omega, hback⟩

private theorem exists_piece (hps : ps ≠ []) (h : n ≤ byteLength (['\n'].intercalate ps)) :
    ∃ k p j, ps[k]? = some p ∧ j ≤ byteLength p ∧ n = pieceStart ps k + j := by
  induction ps generalizing n with
  | nil => exact absurd rfl hps
  | cons q ps ih =>
    by_cases hn : n ≤ byteLength q
    · exact ⟨0, q, n, rfl, hn, by rw [pieceStart_zero]; omega⟩
    · cases ps with
      | nil =>
        rw [List.intercalate_singleton] at h
        exact absurd h hn
      | cons r ps =>
        rw [List.intercalate_cons_cons, byteLength_append, byteLength_append] at h
        change n ≤ byteLength q + 1 + _ at h
        obtain ⟨k, p, j, hk, hj, hsum⟩ := @ih (n - (byteLength q + 1)) (List.cons_ne_nil r ps) (by omega)
        exact ⟨k + 1, p, j, hk, hj, by rw [pieceStart]; omega⟩

/-! ## Positions -/

private theorem advance_within {q : List Char} (h : '\n' ∉ q) (rest : List Char) {j : Nat}
    (hj : j ≤ byteLength q) (pos : Position) :
    advance (q ++ rest) j pos = ⟨pos.line, pos.column + j⟩ := by
  induction q generalizing j pos with
  | nil =>
    rw [Nat.le_zero.mp hj, advance]
    rfl
  | cons c q ih =>
    rw [List.mem_cons, not_or] at h
    cases j with
    | zero => rw [advance]; rfl
    | succ j =>
      rw [byteLength_cons] at hj
      rw [List.cons_append, advance]
      split
      · rfl
      · rw [if_neg (Ne.symm h.1), ih h.2 (by omega), Nat.add_assoc]
        congr 2
        omega

private theorem advance_past {q : List Char} (h : '\n' ∉ q) (rest : List Char) (n : Nat) (pos : Position) :
    advance (q ++ '\n' :: rest) (byteLength q + 1 + n) pos = advance rest n ⟨pos.line + 1, 1⟩ := by
  induction q generalizing pos with
  | nil =>
    rw [List.nil_append, byteLength_nil, show 0 + 1 + n = n + 1 by omega, advance, if_neg, if_pos rfl]
    · exact congrArg (advance rest · _) (Nat.add_sub_cancel n 1)
    · exact Nat.not_lt.mpr (Nat.le_add_left 1 n)
  | cons c q ih =>
    rw [List.mem_cons, not_or] at h
    have hc := c.utf8Size_pos
    obtain ⟨m, hm⟩ : ∃ m, byteLength (c :: q) + 1 + n = m + 1 := ⟨byteLength (c :: q) + n, by omega⟩
    have hrest : m + 1 - c.utf8Size = byteLength q + 1 + n := by
      rw [byteLength_cons] at hm
      omega
    rw [hm, List.cons_append, advance, if_neg (by omega), if_neg (Ne.symm h.1), hrest, ih h.2]

private theorem advance_intercalate (h : ∀ q ∈ ps, '\n' ∉ q) (hk : ps[k]? = some p) {j : Nat}
    (hj : j ≤ byteLength p) (line : Nat) :
    advance (['\n'].intercalate ps) (pieceStart ps k + j) ⟨line, 1⟩ = ⟨line + k, 1 + j⟩ := by
  induction ps generalizing k line with
  | nil => cases hk
  | cons q ps ih =>
    obtain ⟨hq, hps⟩ := List.forall_mem_cons.mp h
    cases k with
    | zero =>
      cases hk
      rw [pieceStart_zero, Nat.zero_add]
      cases ps with
      | nil => simpa using advance_within hq [] hj ⟨line, 1⟩
      | cons r ps =>
        rw [List.intercalate_cons_cons, List.append_assoc]
        exact advance_within hq _ hj ⟨line, 1⟩
    | succ k =>
      cases ps with
      | nil => cases hk
      | cons r ps =>
        rw [List.intercalate_cons_cons, List.append_assoc, pieceStart, Nat.add_assoc]
        refine (advance_past hq (['\n'].intercalate (r :: ps)) _ ⟨line, 1⟩).trans ?_
        rw [ih hps hk, Nat.add_right_comm]
        rfl

private theorem line_le_advance (cs : List Char) (n : Nat) (pos : Position) :
    pos.line ≤ (advance cs n pos).line := by
  fun_induction advance cs n pos with
  | case1 | case2 | case3 => exact Nat.le_refl _
  | case4 _ _ _ _ ih => exact Nat.le_trans (Nat.le_succ _) ih
  | case5 _ _ _ _ _ _ ih => exact ih

theorem line_position_pos (text : List Char) (n : Nat) : 0 < (position text n).line :=
  line_le_advance text n ⟨1, 1⟩

/-! ## Lines -/

private theorem getElem?_endLines (hk : ps[k]? = some p) :
    (endLines ps)[k]? = if k + 1 = ps.length then (if p.isEmpty then none else some p)
      else some ((before? ['\r'] p).getD p) := by
  fun_induction endLines ps generalizing k with
  | case1 => cases hk
  | case2 last hlast =>
    cases k with
    | zero =>
      cases hk
      simp [hlast]
    | succ k => cases hk
  | case3 last hlast =>
    cases k with
    | zero =>
      cases hk
      simp [hlast]
    | succ k => cases hk
  | case4 line rest hrest ih =>
    cases k with
    | zero =>
      cases hk
      have hne : rest ≠ [] := fun hnil => hrest hnil
      rw [if_neg]
      · rfl
      · rw [List.length_cons]
        have := List.length_pos_iff.mpr hne
        omega
    | succ k =>
      rw [List.getElem?_cons_succ, ih hk, List.length_cons]
      simp

end Pieces

/-- An offset of a text by the piece that it stands in, and its distance from the start of the piece. -/
structure StandsIn (text : List Char) (offset k : Nat) (p : List Char) (j : Nat) : Prop where
  piece : (pieces '\n' text)[k]? = some p
  within : j ≤ byteLength p
  offset_eq : offset = pieceStart (pieces '\n' text) k + j

section Offsets

variable {text p : List Char} {a b k j : Nat}

private theorem exists_standsIn (h : a ≤ byteLength text) : ∃ k p j, StandsIn text a k p j := by
  have hpieces : ['\n'].intercalate (pieces '\n' text) = text := intercalate_pieces text
  rw [← hpieces] at h
  obtain ⟨k, p, j, hk, hj, ha⟩ := exists_piece (pieces_ne_nil text) h
  exact ⟨k, p, j, hk, hj, ha⟩

private theorem StandsIn.position_eq (h : StandsIn text a k p j) : position text a = ⟨k + 1, j + 1⟩ := by
  have hpos := advance_intercalate (sep_not_mem_pieces text) h.piece h.within 1
  rw [intercalate_pieces, ← h.offset_eq] at hpos
  rw [position, hpos, Nat.add_comm 1 k, Nat.add_comm 1 j]

theorem position_before (hab : a < b) (hb : b ≤ byteLength text) :
    (position text a).Before (position text b) := by
  obtain ⟨k, p, i, ha⟩ := exists_standsIn (Nat.le_trans (Nat.le_of_lt hab) hb)
  obtain ⟨m, q, j, hb⟩ := exists_standsIn hb
  have hai := ha.offset_eq
  have hbj := hb.offset_eq
  have hj := hb.within
  rw [ha.position_eq, hb.position_eq]
  rcases Nat.lt_trichotomy k m with hkm | rfl | hmk
  · exact .inl (Nat.succ_lt_succ hkm)
  · exact .inr ⟨rfl, by simp only; omega⟩
  · have hlt := pieceStart_lt hb.piece ha.piece hmk
    omega

theorem offset_position (h : a ≤ byteLength text) : (position text a).offset text = a := by
  obtain ⟨k, p, j, ha⟩ := exists_standsIn h
  rw [ha.position_eq]
  exact ha.offset_eq.symm

private theorem inLineEnd_of_feed (front rest : List Char) :
    InLineEnd (front ++ '\n' :: rest) (byteLength front) := by
  have hbyte := getElem?_bytes_append front ('\n' :: rest) 0
  exact .inl hbyte

private theorem inLineEnd_of_return (front rest : List Char) :
    InLineEnd (front ++ '\r' :: '\n' :: rest) (byteLength front) := by
  have hbyte := getElem?_bytes_append front ('\r' :: '\n' :: rest) 0
  have hnext := getElem?_bytes_append front ('\r' :: '\n' :: rest) 1
  exact .inr ⟨hbyte, hnext⟩

/-- A byte that is not in the end of a line stands in the line that its position gives, at the column
that it gives. -/
theorem exists_line {byte : UInt8} (hbyte : (bytes text)[a]? = some byte) (hend : ¬ InLineEnd text a) :
    ∃ front line back, IsLine text front line back ∧
      (lines text)[(position text a).line - 1]? = some line ∧
      a = byteLength front + ((position text a).column - 1) ∧
      (bytes line)[(position text a).column - 1]? = some byte := by
  have hlt : a < byteLength text := by
    rw [← length_bytes]
    exact (List.getElem?_eq_some_iff.mp hbyte).1
  obtain ⟨k, p, j, ha⟩ := exists_standsIn (Nat.le_of_lt hlt)
  obtain ⟨front, back, htext, hfront, hstarts, hback⟩ := intercalate_split ha.piece
  rw [intercalate_pieces] at htext
  have hoffset : a = byteLength front + j := by rw [hfront]; exact ha.offset_eq
  have hunbroken := sep_not_mem_pieces text p (List.mem_of_getElem? ha.piece)
  have hwithin := ha.within
  have hplace : (bytes (p ++ back))[j]? = some byte := by
    rw [← getElem?_bytes_append front, ← htext, ← hoffset]
    exact hbyte
  rw [ha.position_eq]
  simp only [lines, Nat.add_sub_cancel, getElem?_endLines ha.piece]
  rcases hback with ⟨hlast, rfl⟩ | ⟨hmore, rest, rfl⟩
  · -- The last piece is a line, as it has a byte.
    have hne : p.isEmpty = false := by
      cases p with
      | nil => cases hplace
      | cons => rfl
    rw [List.append_nil] at hplace
    refine ⟨front, p, [], ⟨htext, hstarts, hunbroken, .inl rfl⟩, ?_, hoffset, hplace⟩
    rw [if_pos hlast, hne]
    rfl
  · rw [if_neg (Nat.ne_of_lt hmore)]
    have hfeed : a ≠ byteLength (front ++ p) := by
      rintro rfl
      exact hend (by rw [htext, ← List.append_assoc]; exact inLineEnd_of_feed _ _)
    rw [byteLength_append] at hfeed
    cases hcr : before? ['\r'] p with
    | none =>
      have hnone (before : List Char) : p ≠ before ++ ['\r'] := by
        intro hp
        rw [before?_eq_some_iff.mpr hp] at hcr
        cases hcr
      rw [getElem?_bytes_of_lt _ (by omega)] at hplace
      exact ⟨front, p, _, ⟨htext, hstarts, hunbroken, .inr (.inr ⟨⟨rest, rfl⟩, hnone⟩)⟩, rfl, hoffset,
        hplace⟩
    | some line =>
      obtain rfl := before?_eq_some_iff.mp hcr
      rw [List.append_assoc] at htext hplace
      have hreturn : a ≠ byteLength (front ++ line) := by
        rintro rfl
        exact hend (by rw [htext, ← List.append_assoc]; exact inLineEnd_of_return _ _)
      rw [byteLength_append] at hreturn hfeed hwithin
      change j ≤ byteLength line + 1 at hwithin
      change a ≠ byteLength front + (byteLength line + 1) at hfeed
      rw [getElem?_bytes_of_lt _ (by omega)] at hplace
      refine ⟨front, line, _, ⟨htext, hstarts, ?_, .inr (.inl ⟨rest, rfl⟩)⟩, rfl, hoffset, hplace⟩
      exact fun hmem => hunbroken (List.mem_append_left _ hmem)

end Offsets

end CoroutineCheck.Text
