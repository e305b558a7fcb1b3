import CoroutineCheck.Text.Bytes
/-!
# Cuts of a text

A byte offset is a boundary exactly when it is the length of a front part of the text, and a slice
is exactly a middle part between two boundaries. All later arguments about offsets go through these
decompositions.
-/
namespace CoroutineCheck.Text

@[simp] theorem byteLength_nil : byteLength [] = 0 := rfl

@[simp] theorem byteLength_cons (c : Char) (cs : List Char) :
    byteLength (c :: cs) = c.utf8Size + byteLength cs := rfl

theorem byteLength_eq_zero {cs : List Char} (h : byteLength cs = 0) : cs = [] := by
  cases cs with
  | nil => rfl
  | cons c cs =>
    have hc := c.utf8Size_pos
    rw [byteLength_cons] at h
    omega

theorem dropBytes?_append (front rest : List Char) :
    dropBytes? (front ++ rest) (byteLength front) = some rest := by
  induction front with
  | nil => exact dropBytes?_zero rest
  | cons c front ih =>
    have hc := c.utf8Size_pos
    obtain ⟨n, hn⟩ : ∃ n, byteLength (c :: front) = n + 1 :=
      ⟨c.utf8Size + byteLength front - 1, by rw [byteLength_cons]; omega⟩
    rw [byteLength_cons] at hn
    rw [byteLength_cons, hn, List.cons_append, dropBytes?, if_pos (by omega)]
    rw [show n + 1 - c.utf8Size = byteLength front by omega]
    exact ih

theorem takeBytes?_append (front rest : List Char) :
    takeBytes? (front ++ rest) (byteLength front) = some front := by
  induction front with
  | nil => exact takeBytes?_zero rest
  | cons c front ih =>
    have hc := c.utf8Size_pos
    obtain ⟨n, hn⟩ : ∃ n, byteLength (c :: front) = n + 1 :=
      ⟨c.utf8Size + byteLength front - 1, by rw [byteLength_cons]; omega⟩
    rw [byteLength_cons] at hn
    rw [byteLength_cons, hn, List.cons_append, takeBytes?, if_pos (by omega)]
    rw [show n + 1 - c.utf8Size = byteLength front by omega, ih]
    rfl

theorem dropBytes?_eq_some_iff {cs rest : List Char} {n : Nat} :
    dropBytes? cs n = some rest ↔ ∃ front, cs = front ++ rest ∧ byteLength front = n := by
  constructor
  · intro h
    fun_induction dropBytes? cs n with
    | case1 cs =>
      cases h
      exact ⟨[], rfl, rfl⟩
    | case2 => cases h
    | case3 c cs n hc ih =>
      obtain ⟨front, hcs, hn⟩ := ih h
      exact ⟨c :: front, by rw [hcs]; rfl, by rw [byteLength_cons]; omega⟩
    | case4 => cases h
  · rintro ⟨front, rfl, rfl⟩
    exact dropBytes?_append front rest

theorem takeBytes?_eq_some_iff {cs front : List Char} {n : Nat} :
    takeBytes? cs n = some front ↔ ∃ rest, cs = front ++ rest ∧ byteLength front = n := by
  constructor
  · intro h
    fun_induction takeBytes? cs n generalizing front with
    | case1 cs =>
      cases h
      exact ⟨cs, rfl, rfl⟩
    | case2 => cases h
    | case3 c cs n hc ih =>
      obtain ⟨kept, hk, rfl⟩ := Option.map_eq_some_iff.mp h
      obtain ⟨rest, hcs, hn⟩ := ih hk
      exact ⟨rest, by rw [hcs]; rfl, by rw [byteLength_cons]; omega⟩
    | case4 => cases h
  · rintro ⟨rest, rfl, rfl⟩
    exact takeBytes?_append front rest

theorem isBoundary_iff {cs : List Char} {n : Nat} :
    isBoundary cs n = true ↔ ∃ front rest, cs = front ++ rest ∧ byteLength front = n := by
  rw [isBoundary, Option.isSome_iff_exists]
  constructor
  · rintro ⟨rest, h⟩
    obtain ⟨front, hcs, hn⟩ := dropBytes?_eq_some_iff.mp h
    exact ⟨front, rest, hcs, hn⟩
  · rintro ⟨front, rest, hcs, hn⟩
    exact ⟨rest, dropBytes?_eq_some_iff.mpr ⟨front, hcs, hn⟩⟩

theorem isBoundary_le {cs : List Char} {n : Nat} (h : isBoundary cs n = true) :
    n ≤ byteLength cs := by
  obtain ⟨front, rest, rfl, rfl⟩ := isBoundary_iff.mp h
  rw [byteLength_append]
  omega

@[simp] theorem isBoundary_zero (cs : List Char) : isBoundary cs 0 = true := by
  simp [isBoundary]

@[simp] theorem isBoundary_byteLength (cs : List Char) : isBoundary cs (byteLength cs) = true :=
  isBoundary_iff.mpr ⟨cs, [], (List.append_nil cs).symm, rfl⟩

theorem byteLength_toList (s : String) : byteLength s.toList = s.utf8ByteSize := by
  have hlist (cs : List Char) : byteLength cs = (String.ofList cs).utf8ByteSize := by
    induction cs with
    | nil => rfl
    | cons c cs ih =>
      rw [byteLength_cons, ih, ← List.singleton_append, String.ofList_append,
        String.utf8ByteSize_append]
      simp
  rw [hlist, String.ofList_toList]

/-- A boundary is what the standard library calls a valid position. -/
theorem isBoundary_iff_isValid {s : String} {n : Nat} :
    isBoundary s.toList n = true ↔ String.Pos.Raw.IsValid s ⟨n⟩ := by
  rw [isBoundary_iff, String.Pos.Raw.isValid_iff_exists_append]
  constructor
  · rintro ⟨front, rest, hs, hn⟩
    refine ⟨String.ofList front, String.ofList rest, ?_, ?_⟩
    · rw [← String.ofList_append, ← hs, String.ofList_toList]
    · apply String.Pos.Raw.ext
      rw [String.byteIdx_rawEndPos, ← byteLength_toList, String.toList_ofList, hn]
  · rintro ⟨front, rest, rfl, hn⟩
    refine ⟨front.toList, rest.toList, String.toList_append, ?_⟩
    rw [byteLength_toList, ← String.byteIdx_rawEndPos, ← hn]

theorem front_of_le {a b c d : List Char} (h : a ++ b = c ++ d) (hle : byteLength a ≤ byteLength c) :
    ∃ mid, c = a ++ mid ∧ b = mid ++ d := by
  rcases List.append_eq_append_iff.mp h with ⟨mid, hc, hb⟩ | ⟨mid, ha, hd⟩
  · exact ⟨mid, hc, hb⟩
  · have hmid : mid = [] := by
      apply byteLength_eq_zero
      rw [ha, byteLength_append] at hle
      omega
    subst hmid
    exact ⟨[], by simpa using ha.symm, by simpa using hd.symm⟩

theorem slice?_eq_some_iff {cs mid : List Char} {i j : Nat} :
    slice? cs i j = some mid ↔
      ∃ front rest, cs = front ++ (mid ++ rest) ∧ byteLength front = i ∧ i + byteLength mid = j := by
  unfold slice?
  constructor
  · intro h
    split at h
    case isTrue hij =>
      obtain ⟨tail, hd, ht⟩ := Option.bind_eq_some_iff.mp h
      obtain ⟨front, rfl, hi⟩ := dropBytes?_eq_some_iff.mp hd
      obtain ⟨rest, rfl, hj⟩ := takeBytes?_eq_some_iff.mp ht
      exact ⟨front, rest, rfl, hi, by omega⟩
    case isFalse => cases h
  · rintro ⟨front, rest, rfl, rfl, rfl⟩
    rw [if_pos (by omega), dropBytes?_append, Option.bind_some,
      show byteLength front + byteLength mid - byteLength front = byteLength mid by omega]
    exact takeBytes?_append mid rest

theorem slice?_isSome {cs : List Char} {i j : Nat} (hij : i ≤ j) (hi : isBoundary cs i = true)
    (hj : isBoundary cs j = true) : ∃ mid, slice? cs i j = some mid := by
  obtain ⟨a, b, rfl, rfl⟩ := isBoundary_iff.mp hi
  obtain ⟨c, d, hcd, rfl⟩ := isBoundary_iff.mp hj
  obtain ⟨mid, rfl, rfl⟩ := front_of_le hcd hij
  exact ⟨mid, slice?_eq_some_iff.mpr ⟨a, d, rfl, rfl, by rw [byteLength_append]⟩⟩

theorem infix_of_slice? {x y z mid : List Char} {i j : Nat}
    (h : slice? (x ++ (y ++ z)) i j = some mid) (hi : byteLength x ≤ i)
    (hj : j ≤ byteLength x + byteLength y) : mid <:+: y := by
  obtain ⟨a, b, hcs, rfl, rfl⟩ := slice?_eq_some_iff.mp h
  obtain ⟨m, rfl, hyz⟩ := front_of_le hcs hi
  rw [← List.append_assoc] at hyz
  rw [byteLength_append] at hj
  obtain ⟨rest, rfl, _⟩ := front_of_le hyz.symm (by rw [byteLength_append]; omega)
  exact ⟨m, rest, rfl⟩

/-- A slice whose last character does not occur in the rest of another slice ends before that rest
begins. -/
theorem stop_le_of_getLast?_not_mem {cs mid front rest : List Char} {c : Char} {i j start stop : Nat}
    (hmid : slice? cs i j = some mid) (hgap : slice? cs start stop = some (front ++ rest))
    (hlast : mid.getLast? = some c) (hc : c ∉ rest) (hj : j ≤ stop) :
    j ≤ start + byteLength front := by
  obtain ⟨p, q, hp, rfl, rfl⟩ := slice?_eq_some_iff.mp hmid
  obtain ⟨a, b, ha, rfl, rfl⟩ := slice?_eq_some_iff.mp hgap
  rw [byteLength_append] at hj
  apply Nat.le_of_not_lt
  intro hlt
  have hboth : (a ++ front) ++ (rest ++ b) = (p ++ mid) ++ q := by
    rw [List.append_assoc, ← List.append_assoc front, ← ha, hp, List.append_assoc]
  obtain ⟨m, hm, hrest⟩ := front_of_le hboth (by simp only [byteLength_append]; omega)
  have hlen := congrArg byteLength hm
  simp only [byteLength_append] at hlen
  have hne : m ≠ [] := by
    rintro rfl
    rw [byteLength_nil] at hlen
    omega
  have hcm : c ∈ m := by
    have hend := congrArg List.getLast? hm
    rw [List.getLast?_append, hlast, List.getLast?_append, List.getLast?_eq_some_getLast hne] at hend
    exact Option.some.inj hend ▸ List.getLast_mem hne
  obtain ⟨m', rfl, _⟩ := front_of_le hrest.symm (by omega)
  exact hc (List.mem_append_left m' hcm)

end CoroutineCheck.Text
