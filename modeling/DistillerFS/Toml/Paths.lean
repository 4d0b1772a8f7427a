import DistillerFS.Toml.RoundTrip

/-!
# Following a path

A parsed file is asked for its strings through keys and indices. On a document that was
written every path leads to what the document has there.
-/
namespace DistillerFS.Toml
open Foundations

def Value.get : Selector → Value → Option Value
  | .key k, .tab es => es.lookup k
  | .idx n, .arr vs => vs[n]?
  | _, _ => none

def Value.follow : List Selector → Value → Option Value
  | [], v => some v
  | s :: path, v => (v.get s).bind (Value.follow path)

def Value.text : Value → Option CString
  | .str s => some s
  | _ => none

def Value.string (path : List Selector) (v : Value) : Option CString :=
  (v.follow path).bind Value.text

/-- The document as one value, its sections as tables in it. -/
def Document.value (d : Document) : Value :=
  .tab (d.entries ++ d.sections.map fun s => (s.1, .tab s.2))

section Find
variable {t : Table} {k k' : CString} {item : Item} {es : List (CString × Value)}

theorem find_entriesOf (hes : EntriesOk es) (hnew : ∀ e ∈ es, e.1 ∉ t.keys) :
    (entriesOf t es).find k = (t.find k).or ((es.lookup k).map Value.item) := by
  induction es generalizing t with
  | nil => simp [entriesOf]
  | cons e es ih =>
    obtain ⟨k', v⟩ := e
    have hk' := hnew (k', v) List.mem_cons_self
    rw [entriesOf, ih hes.tail (hes.new_tail hnew), find_addEntry hk', List.lookup_cons]
    by_cases h : k = k'
    · rw [if_pos h, beq_iff_eq.mpr h, h, find_eq_none hk']
      rfl
    · rw [if_neg h, beq_false_of_ne h]

theorem find_sectionsOf {ss : List (CString × List (CString × Value))} (hnodup : (ss.map Prod.fst).Nodup)
    (hnew : ∀ s ∈ ss, s.1 ∉ t.keys) : (sectionsOf t ss).find k =
      (t.find k).or ((ss.lookup k).map fun es => .tab (entriesOf .empty es)) := by
  induction ss generalizing t with
  | nil => simp [sectionsOf]
  | cons s ss ih =>
    obtain ⟨name, es⟩ := s
    have hname := hnew (name, es) List.mem_cons_self
    have hmore : ∀ s ∈ ss, s.1 ∉ (addEntry t name (.tab (entriesOf .empty es))).keys := by
      intro s hs hmem
      rcases mem_addEntry_keys.mp hmem with hkey | hmem
      · have hmem : s.1 ∈ ss.map Prod.fst := List.mem_map_of_mem hs
        rw [hkey] at hmem
        exact (List.nodup_cons.mp hnodup).1 hmem
      · exact hnew s (List.mem_cons_of_mem _ hs) hmem
    rw [sectionsOf, ih (List.nodup_cons.mp hnodup).2 hmore, find_addEntry hname, List.lookup_cons]
    by_cases h : k = name
    · rw [if_pos h, beq_iff_eq.mpr h, h, find_eq_none hname]
      rfl
    · rw [if_neg h, beq_false_of_ne h]

theorem find_empty (k : CString) : Table.empty.find k = none := rfl

theorem find_setReadonly (t : Table) (k : CString) : t.setReadonly.find k = t.find k := rfl

theorem items_itemsOf (a : Arr) (vs : List Value) :
    (itemsOf a vs).items = a.items ++ vs.map Value.item := by
  induction vs generalizing a with
  | nil => simp [itemsOf]
  | cons v vs ih =>
    rw [itemsOf, ih, Arr.add, Arr.mk_items, List.append_assoc]
    rfl

end Find

section Paths
variable {v : Value} {es : List (CString × Value)}

/-- A step into a value that was read leads to what is read of the value there. -/
theorem get_item (hv : v.Ok) (s : Selector) : v.item.get s = (v.get s).map Value.item := by
  cases hv with
  | str s' h => cases s <;> rfl
  | arr vs h =>
    cases s with
    | key k => rfl
    | idx n =>
      rw [Value.item, Item.get, items_itemsOf, Value.get]
      simp [Arr.empty]
  | tab es nodup hkeys h =>
    cases s with
    | idx n => rfl
    | key k =>
      rw [Value.item, Item.get, find_setReadonly,
        find_entriesOf ⟨nodup, hkeys, h⟩ (fun _ _ => List.not_mem_nil), find_empty, Value.get]
      rfl

theorem Value.Ok.get (hv : v.Ok) {s : Selector} {w : Value} (h : v.get s = some w) : w.Ok := by
  cases hv with
  | str s' h' => cases s <;> cases h
  | arr vs h' =>
    cases s with
    | key k => cases h
    | idx n => exact h' w (List.mem_of_getElem? h)
  | tab es nodup hkeys h' =>
    cases s with
    | idx n => cases h
    | key k => exact h' (k, w) (mem_of_lookup h)

/-- The induction is on the path. -/
theorem follow_item (hv : v.Ok) (path : List Selector) :
    v.item.follow path = (v.follow path).map Value.item := by
  induction path generalizing v with
  | nil => rfl
  | cons s path ih =>
    rw [Item.follow, get_item hv, Value.follow]
    cases h : v.get s with
    | none => rfl
    | some w => exact ih (hv.get h)

theorem Value.Ok.follow (hv : v.Ok) {path : List Selector} {w : Value} (h : v.follow path = some w) :
    w.Ok := by
  induction path generalizing v with
  | nil =>
    cases h
    exact hv
  | cons s path ih =>
    obtain ⟨u, hu, h⟩ := Option.bind_eq_some_iff.mp h
    exact ih (hv.get hu) h

theorem string_item (hv : v.Ok) (path : List Selector) : v.item.string path = v.string path := by
  rw [Item.string, follow_item hv, Value.string]
  cases h : v.follow path with
  | none => rfl
  | some w =>
    cases hv.follow h with
    | str s hs =>
      have hread := tomlRtos_quote s
      rw [cString_eq hs] at hread
      exact hread
    | arr vs h => rfl
    | tab es nodup hkeys h => rfl

theorem string_entriesOf (hes : EntriesOk es) (path : List Selector) :
    Item.string path (.tab (entriesOf .empty es)) = Value.string path (.tab es) := by
  have hv : (Value.tab es).Ok := .tab es hes.nodup hes.key hes.value
  rw [← string_item hv]
  cases path with
  | nil => rfl
  | cons s path => cases s <;> rfl

/-- A document that was written is accepted, and every path leads to the string that the
document has there. -/
theorem document_roundTrip (d : Document) (hd : d.Ok) : ∃ t, tomlParse d.render = .ok t ∧
    ∀ path, Item.string path (.tab t) = d.value.string path := by
  refine ⟨d.table, tomlParse_document hd, fun path => ?_⟩
  cases path with
  | nil => rfl
  | cons s path =>
    cases s with
    | idx n => rfl
    | key k =>
      have hnew : ∀ s ∈ d.sections, s.1 ∉ (entriesOf .empty d.entries).keys := by
        intro s hs hmem
        rcases mem_entriesOf_keys.mp hmem with hmem | hmem
        · exact List.not_mem_nil hmem
        · exact hd.disjoint s hs hmem
      have hfind : d.table.find k = ((d.entries.lookup k).map Value.item).or
          ((d.sections.lookup k).map fun es => .tab (entriesOf .empty es)) := by
        rw [Document.table, find_sectionsOf hd.nodup hnew,
          find_entriesOf hd.entries (fun _ _ => List.not_mem_nil), find_empty, Option.none_or]
      have hget : d.value.get (.key k) = (d.entries.lookup k).or
          ((d.sections.lookup k).map Value.tab) := by
        rw [Document.value, Value.get, List.lookup_append, lookup_map]
      rw [Item.string, Item.follow, Item.get, hfind, Value.string, Value.follow, hget]
      cases hentry : d.entries.lookup k with
      | some v => exact string_item (hd.entries.value _ (mem_of_lookup hentry)) path
      | none =>
        cases hsection : d.sections.lookup k with
        | none => rfl
        | some es => exact string_entriesOf (hd.sections _ (mem_of_lookup hsection)) path

def sampleDocument : Document where
  entries := [("title".toList, .str "it's".toList)]
  sections := [("exclude".toList, [("paths".toList, .arr [.str "/proc".toList, .str "/tmp".toList])])]

theorem sampleDocument_ok : sampleDocument.Ok where
  entries := by
    have hkey : KeyOk "title".toList := ⟨by decide, by decide⟩
    have hvalue : (Value.str "it's".toList).Ok := .str _ (by decide)
    exact ⟨List.nodup_singleton _, by simpa [sampleDocument] using hkey,
      by simpa [sampleDocument] using hvalue⟩
  names := by
    have hname : KeyOk "exclude".toList := ⟨by decide, by decide⟩
    simpa [sampleDocument] using hname
  sections := by
    have hkey : KeyOk "paths".toList := ⟨by decide, by decide⟩
    have hvalue : (Value.arr [.str "/proc".toList, .str "/tmp".toList]).Ok := by
      apply Value.Ok.arr
      intro v hv
      rcases List.mem_pair.mp hv with rfl | rfl
      · exact .str _ (by decide)
      · exact .str _ (by decide)
    intro s hs
    rw [List.mem_singleton.mp hs]
    exact ⟨List.nodup_singleton _, by simpa using hkey, by simpa using hvalue⟩
  nodup := List.nodup_singleton _
  disjoint := by simp [sampleDocument]

theorem document_roundTrip_sample : ∃ t, tomlParse sampleDocument.render = .ok t ∧
    ∀ path, Item.string path (.tab t) = sampleDocument.value.string path :=
  document_roundTrip sampleDocument sampleDocument_ok

end Paths

end DistillerFS.Toml
