import CoroutineCheck.Proofs.Lists.Lookup
import CoroutineCheck.Toml.Document
/-!
# Keys of tables

A document gives no key of a table twice, however the table is put together: by headers, by dotted keys,
in a list of tables or on one line. Each change of the tables under construction keeps this, so a whole
document does.
-/
namespace CoroutineCheck.Toml

inductive Value.Distinct : Value → Prop where
  | string {s : String} : Distinct (.string s)
  | integer {n : Int} : Distinct (.integer n)
  | float {x : Binary64} : Distinct (.float x)
  | boolean {b : Bool} : Distinct (.boolean b)
  | datetime {d : Datetime} : Distinct (.datetime d)
  | array {items : List Value} : (∀ v ∈ items, Distinct v) → Distinct (.array items)
  | table {entries : List (String × Value)} : (entries.map (·.1)).Nodup →
      (∀ e ∈ entries, Distinct e.2) → Distinct (.table entries)

inductive Item.Distinct : Item → Prop where
  | value {v : Value} : v.Distinct → Distinct (.value v)
  | table {origin : Origin} {entries : List (String × Item)} : (entries.map (·.1)).Nodup →
      (∀ e ∈ entries, Distinct e.2) → Distinct (.table origin entries)
  | tables {closed : List (List (String × Item))} {last : List (String × Item)} :
      (∀ es ∈ last :: closed, (es.map (·.1)).Nodup) →
      (∀ es ∈ last :: closed, ∀ e ∈ es, Distinct e.2) → Distinct (.tables closed last)

namespace Entries

/-- No key is there twice, nor in a table below. -/
structure Distinct (es : Entries) : Prop where
  keys : (es.map (·.1)).Nodup
  items : ∀ e ∈ es, e.2.Distinct

variable {es es' : Entries} {k : String} {i : Item} {v : Value}

private theorem distinct_nil : Distinct [] := ⟨List.nodup_nil, by simp⟩

private theorem not_mem_keys (h : es.find? k = none) : k ∉ es.map (·.1) := by
  intro hk
  obtain ⟨e, he, rfl⟩ := List.mem_map.mp hk
  simpa using List.lookup_eq_none_iff.mp h e he

theorem Distinct.find? (hes : es.Distinct) (h : es.find? k = some i) : i.Distinct :=
  hes.items _ (mem_of_lookup_eq_some h)

theorem Distinct.append (hes : es.Distinct) (hk : es.find? k = none) (hi : i.Distinct) :
    Distinct (es ++ [(k, i)]) := by
  refine ⟨?_, ?_⟩
  · rw [List.map_append, List.nodup_append_comm]
    exact List.nodup_cons.mpr ⟨not_mem_keys hk, hes.keys⟩
  · intro e he
    rcases List.mem_append.mp he with he | he
    · exact hes.items e he
    · rw [List.mem_singleton.mp he]
      exact hi

private theorem keys_replace (es : Entries) (k : String) (i : Item) :
    (es.replace k i).map (·.1) = es.map (·.1) := by
  unfold replace
  rw [List.map_map]
  refine List.map_congr_left fun e _ => ?_
  by_cases hk : e.1 = k
  · simp [hk]
  · simp [hk]

theorem Distinct.replace (hes : es.Distinct) (hi : i.Distinct) : Distinct (es.replace k i) := by
  refine ⟨by rw [keys_replace]; exact hes.keys, ?_⟩
  intro e he
  obtain ⟨old, hold, rfl⟩ := List.mem_map.mp he
  split
  · exact hi
  · exact hes.items old hold

/-- A change keeps keys distinct in the table that it is made in. -/
def Keeps (change : Origin → Entries → Option Entries) : Prop :=
  ∀ origin es es', Distinct es → change origin es = some es' → Distinct es'

private theorem keeps_edit {change : Origin → Entries → Option Entries} (hchange : Keeps change)
    (isKey : Bool) (path : List String) : Keeps (edit isKey change path) := by
  induction path with
  | nil => exact hchange
  | cons k path ih =>
    intro origin es es' hes h
    rw [edit] at h
    split at h
    case h_1 hnone =>
      obtain ⟨sub, hsub, heq⟩ := Option.bind_eq_some_iff.mp h
      cases heq
      have hdistinct := ih _ _ _ distinct_nil hsub
      exact hes.append hnone (.table hdistinct.keys hdistinct.items)
    case h_2 => cases h
    case h_3 sub hfound =>
      split at h
      · cases h
      · obtain ⟨sub', hsub, rfl⟩ := Option.map_eq_some_iff.mp h
        cases hes.find? hfound with
        | table hkeys hitems =>
          have hdistinct := ih _ _ _ ⟨hkeys, hitems⟩ hsub
          exact hes.replace (.table hdistinct.keys hdistinct.items)
    case h_4 closed last hfound =>
      obtain ⟨last', hlast, rfl⟩ := Option.map_eq_some_iff.mp h
      cases hes.find? hfound with
      | tables hkeys hitems =>
        obtain ⟨hkey, hkeys⟩ := List.forall_mem_cons.mp hkeys
        obtain ⟨hitem, hitems⟩ := List.forall_mem_cons.mp hitems
        have hdistinct := ih _ _ _ ⟨hkey, hitem⟩ hlast
        exact hes.replace (.tables (List.forall_mem_cons.mpr ⟨hdistinct.keys, hkeys⟩)
          (List.forall_mem_cons.mpr ⟨hdistinct.items, hitems⟩))

theorem Distinct.insert? {key : List String} (hes : es.Distinct) (hv : v.Distinct)
    (h : es.insert? key v = some es') : Distinct es' := by
  obtain ⟨⟨way, k⟩, _, hedit⟩ := Option.bind_eq_some_iff.mp h
  refine keeps_edit ?_ _ _ _ _ _ hes hedit
  intro origin sub sub' hsub hadd
  beta_reduce at hadd
  split at hadd
  · cases hadd
  case isFalse hnew =>
    cases hadd
    refine hsub.append ?_ (.value hv)
    simp only [Bool.or_eq_true, not_or, Bool.not_eq_true, Option.isSome_eq_false_iff,
      Option.isNone_iff_eq_none] at hnew
    exact hnew.2

theorem Distinct.openTable? {path : List String} (hes : es.Distinct)
    (h : es.openTable? path = some es') : Distinct es' := by
  obtain ⟨⟨way, k⟩, _, hedit⟩ := Option.bind_eq_some_iff.mp h
  refine keeps_edit ?_ _ _ _ _ _ hes hedit
  intro origin sub sub' hsub hopen
  beta_reduce at hopen
  split at hopen
  case h_1 hnew =>
    cases hopen
    exact hsub.append hnew (.table List.nodup_nil (by simp))
  case h_2 hfound =>
    cases hopen
    cases hsub.find? hfound with
    | table hkeys hitems => exact hsub.replace (.table hkeys hitems)
  · cases hopen

theorem Distinct.openListed? {path : List String} (hes : es.Distinct)
    (h : es.openListed? path = some es') : Distinct es' := by
  obtain ⟨⟨way, k⟩, _, hedit⟩ := Option.bind_eq_some_iff.mp h
  refine keeps_edit ?_ _ _ _ _ _ hes hedit
  intro origin sub sub' hsub hopen
  beta_reduce at hopen
  split at hopen
  case h_1 hnew =>
    cases hopen
    exact hsub.append hnew (.tables (by simp) (by simp))
  case h_2 closed last hfound =>
    cases hopen
    cases hsub.find? hfound with
    | tables hkeys hitems =>
      have hmem {es : Entries} (h : es ∈ closed ++ [last]) : es ∈ last :: closed := by
        simpa [or_comm] using h
      exact hsub.replace (.tables
        (List.forall_mem_cons.mpr ⟨List.nodup_nil, fun es h => hkeys es (hmem h)⟩)
        (List.forall_mem_cons.mpr ⟨by simp, fun es h => hitems es (hmem h)⟩))
  · cases hopen

theorem Distinct.insertUnder? {header key : List String} (hes : es.Distinct) (hv : v.Distinct)
    (h : es.insertUnder? header key v = some es') : Distinct es' :=
  keeps_edit (fun _ _ _ hes h => hes.insert? hv h) _ _ _ _ _ hes h

end Entries

/-! ## Values of items -/

namespace Item

private theorem entryValues_eq (es : List (String × Item)) :
    entryValues es = es.map fun e => (e.1, e.2.toValue) := by
  induction es with
  | nil => rfl
  | cons e es ih => rw [entryValues, ih, List.map_cons]

private theorem tableValues_eq (ess : List (List (String × Item))) :
    tableValues ess = ess.map fun es => .table (entryValues es) := by
  induction ess with
  | nil => rfl
  | cons es ess ih => rw [tableValues, ih, List.map_cons]

private theorem distinct_entryValues {es : List (String × Item)} (hkeys : (es.map (·.1)).Nodup)
    (hitems : ∀ e ∈ es, e.2.toValue.Distinct) : (Value.table (entryValues es)).Distinct := by
  rw [entryValues_eq]
  refine .table ?_ ?_
  · rw [List.map_map]
    exact hkeys
  · intro e he
    obtain ⟨old, hold, rfl⟩ := List.mem_map.mp he
    exact hitems old hold

theorem Distinct.toValue {i : Item} (h : i.Distinct) : i.toValue.Distinct := by
  induction h with
  | value hv => exact hv
  | table hkeys _ ih => exact distinct_entryValues hkeys ih
  | @tables closed last hkeys _ ih =>
    rw [Item.toValue, tableValues_eq]
    refine .array fun v hv => ?_
    have hall : ∀ es ∈ last :: closed, (Value.table (entryValues es)).Distinct :=
      fun es hes => distinct_entryValues (hkeys es hes) (ih es hes)
    rcases List.mem_append.mp hv with hv | hv
    · obtain ⟨es, hes, rfl⟩ := List.mem_map.mp hv
      exact hall es (List.mem_cons_of_mem last hes)
    · rw [List.mem_singleton.mp hv]
      exact hall last List.mem_cons_self

end Item

/-! ## Readers -/

def ReadsDistinct (value : Reader Value) : Prop :=
  ∀ cs v rest, value cs = some (v, rest) → v.Distinct

section Readers

variable {value : Reader Value} {cs rest : List Char}

private theorem distinct_scalar? {v : Value} (h : scalar? cs = some v) : v.Distinct := by
  unfold scalar? at h
  split at h
  · cases h
    exact .boolean
  split at h
  · cases h
    exact .boolean
  split at h
  · cases h
    exact .datetime
  · cases h
    exact .integer
  · obtain ⟨x, _, rfl⟩ := Option.map_eq_some_iff.mp h
    exact .float

private theorem readsDistinct_word? : ReadsDistinct word? := by
  intro cs v rest h
  rcases Option.or_eq_some_iff.mp h with hlong | ⟨_, hshort⟩
  · split at hlong
    · obtain ⟨d, _, heq⟩ := Option.map_eq_some_iff.mp hlong
      cases heq
      exact .datetime
    · cases hlong
  · obtain ⟨w, hw, heq⟩ := Option.map_eq_some_iff.mp hshort
    cases heq
    exact distinct_scalar? hw

private theorem distinct_items? (hvalue : ReadsDistinct value) {n : Nat} {vs : List Value}
    (h : items? value n cs = some (vs, rest)) : ∀ v ∈ vs, v.Distinct := by
  induction n generalizing cs vs with
  | zero => cases h
  | succ n ih =>
    rw [items?] at h
    split at h
    · cases h
      simp
    · obtain ⟨⟨v, more⟩, hv, h⟩ := Option.bind_eq_some_iff.mp h
      have hfirst := hvalue _ _ _ hv
      simp only at h
      split at h
      · obtain ⟨⟨vs', more'⟩, hvs, heq⟩ := Option.bind_eq_some_iff.mp h
        cases heq
        exact List.forall_mem_cons.mpr ⟨hfirst, ih hvs⟩
      · cases h
        exact List.forall_mem_singleton.mpr hfirst
      · cases h

private theorem distinct_pair? (hvalue : ReadsDistinct value) {key : List String} {v : Value}
    (h : pair? value cs = some ((key, v), rest)) : v.Distinct := by
  obtain ⟨⟨k, more⟩, _, h⟩ := Option.bind_eq_some_iff.mp h
  obtain ⟨after, _, h⟩ := Option.bind_eq_some_iff.mp h
  obtain ⟨⟨w, left⟩, hw, heq⟩ := Option.bind_eq_some_iff.mp h
  cases heq
  exact hvalue _ _ _ hw

private theorem distinct_pairs? (hvalue : ReadsDistinct value) {n : Nat} {es es' : Entries}
    (hes : es.Distinct) (h : pairs? value n es cs = some (es', rest)) : es'.Distinct := by
  induction n generalizing cs es with
  | zero => cases h
  | succ n ih =>
    rw [pairs?] at h
    obtain ⟨⟨⟨key, v⟩, more⟩, hpair, h⟩ := Option.bind_eq_some_iff.mp h
    obtain ⟨inserted, hinsert, h⟩ := Option.bind_eq_some_iff.mp h
    have hinserted := hes.insert? (distinct_pair? hvalue hpair) hinsert
    split at h
    · exact ih hinserted h
    · cases h
      exact hinserted
    · cases h

private theorem readsDistinct_valueOver? {inner : Option (Reader Value)}
    (h : ∀ value ∈ inner, ReadsDistinct value) :
    ReadsDistinct (valueOver? inner) := by
  intro cs v rest hv
  unfold valueOver? at hv
  split at hv
  case h_1 | h_2 =>
    obtain ⟨p, _, heq⟩ := Option.map_eq_some_iff.mp hv
    cases heq
    exact .string
  · obtain ⟨value, hvalue, hv⟩ := Option.bind_eq_some_iff.mp hv
    obtain ⟨⟨vs, more⟩, hvs, heq⟩ := Option.bind_eq_some_iff.mp hv
    cases heq
    exact .array (distinct_items? (h value hvalue) hvs)
  · obtain ⟨value, hvalue, hv⟩ := Option.bind_eq_some_iff.mp hv
    split at hv
    · cases hv
      exact .table List.nodup_nil (by simp)
    · obtain ⟨⟨es, more⟩, hes, heq⟩ := Option.bind_eq_some_iff.mp hv
      cases heq
      have hdistinct := distinct_pairs? (h value hvalue) Entries.distinct_nil hes
      exact Item.distinct_entryValues hdistinct.keys fun e he => (hdistinct.items e he).toValue
  · exact readsDistinct_word? _ _ _ hv

private theorem readsDistinct_value? (depth : Nat) : ReadsDistinct (value? depth) := by
  induction depth with
  | zero => exact readsDistinct_valueOver? (by simp)
  | succ depth ih => exact readsDistinct_valueOver? (by simpa using ih)

private theorem distinct_line? {p p' : Progress} (hp : p.entries.Distinct)
    (h : line? p cs = some (p', rest)) :
    p'.entries.Distinct := by
  unfold line? at h
  split at h
  · obtain ⟨⟨path, more⟩, _, h⟩ := Option.bind_eq_some_iff.mp h
    obtain ⟨es, hes, heq⟩ := Option.bind_eq_some_iff.mp h
    cases heq
    exact hp.openListed? hes
  · obtain ⟨⟨path, more⟩, _, h⟩ := Option.bind_eq_some_iff.mp h
    obtain ⟨es, hes, heq⟩ := Option.bind_eq_some_iff.mp h
    cases heq
    exact hp.openTable? hes
  · obtain ⟨⟨⟨key, v⟩, more⟩, hpair, h⟩ := Option.bind_eq_some_iff.mp h
    obtain ⟨es, hes, heq⟩ := Option.bind_eq_some_iff.mp h
    cases heq
    exact hp.insertUnder? (distinct_pair? (readsDistinct_value? _) hpair) hes

private theorem distinct_lines? {n : Nat} {p p' : Progress} (hp : p.entries.Distinct)
    (h : lines? n p cs = some p') : p'.entries.Distinct := by
  induction n generalizing p cs with
  | zero =>
    rw [lines?] at h
    split at h
    · cases h
      exact hp
    · cases h
  | succ n ih =>
    rw [lines?] at h
    split at h
    · cases h
      exact hp
    · obtain ⟨⟨next, more⟩, hline, h⟩ := Option.bind_eq_some_iff.mp h
      obtain ⟨after, _, h⟩ := Option.bind_eq_some_iff.mp h
      exact ih (distinct_line? hp hline) h

end Readers

theorem distinct_read? {text : String} {es : List (String × Value)} (h : read? text = some es) :
    (Value.table es).Distinct := by
  obtain ⟨p, hp, rfl⟩ := Option.map_eq_some_iff.mp h
  have hdistinct := distinct_lines? Entries.distinct_nil hp
  exact Item.distinct_entryValues hdistinct.keys fun e he => (hdistinct.items e he).toValue

end CoroutineCheck.Toml
