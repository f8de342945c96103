import BehaviorTree.Proofs.Dictionary
import BehaviorTree.Reading
import BehaviorTree.Writing
import Mathlib.Data.List.Nodup

/-!
Free-form values and the members of structures, read back from what has been written. Every value
is read back as some value, and a value that has been read is in normal form: in all its parts,
fields are in order and none is repeated. Such values are their own readings. A structure is read
back member by member, since every name that is written is one of its own and is written once.
-/
namespace BehaviorTree

variable {α β γ : Type}

def Json.Normal (v : Json) : Prop := Datum.json? v = some v

def Dict.Normal (d : Dict Json) : Prop := ∀ e ∈ d.entries, Json.Normal e.2

namespace Datum

theorem jsonItems?_of_normal {items : List Json} (h : ∀ v ∈ items, Json.Normal v) :
    jsonItems? items = some items := by
  induction items with
  | nil => rfl
  | cons v rest ih =>
    have hv : json? v = some v := h v List.mem_cons_self
    have hrest := ih fun w hw => h w (List.mem_cons_of_mem _ hw)
    simp [jsonItems?, hv, hrest]

theorem jsonEntries?_of_normal {entries : List (String × Json)}
    (h : ∀ e ∈ entries, Json.Normal e.2) : jsonEntries? entries = some entries := by
  induction entries with
  | nil => rfl
  | cons e rest ih =>
    have he : json? e.2 = some e.2 := h e List.mem_cons_self
    have hrest := ih fun w hw => h w (List.mem_cons_of_mem _ hw)
    simp [jsonEntries?, he, hrest]

theorem normal_list {items : List Json} (h : ∀ v ∈ items, Json.Normal v) :
    Json.Normal (.list items) := by
  simp [Json.Normal, json?, jsonItems?_of_normal h]

theorem normal_ofDict {d : Dict Json} (h : d.Normal) : Json.Normal (Json.ofDict d) := by
  simp [Json.Normal, Json.ofDict, json?, jsonEntries?_of_normal h]

mutual

theorem json?_isSome : (v : Json) → (json? v).isSome = true
  | .leaf _ => rfl
  | .list items => by
    rw [json?, Option.isSome_map]
    exact jsonItems?_isSome items
  | .fields entries => by
    rw [json?, Option.isSome_map]
    exact jsonEntries?_isSome entries

theorem jsonItems?_isSome : (items : List Json) → (jsonItems? items).isSome = true
  | [] => rfl
  | v :: rest => by
    obtain ⟨w, hw⟩ := Option.isSome_iff_exists.mp (json?_isSome v)
    obtain ⟨ws, hws⟩ := Option.isSome_iff_exists.mp (jsonItems?_isSome rest)
    simp [jsonItems?, hw, hws]

theorem jsonEntries?_isSome : (entries : List (String × Json)) →
    (jsonEntries? entries).isSome = true
  | [] => rfl
  | (name, v) :: rest => by
    obtain ⟨w, hw⟩ := Option.isSome_iff_exists.mp (json?_isSome v)
    obtain ⟨ws, hws⟩ := Option.isSome_iff_exists.mp (jsonEntries?_isSome rest)
    simp [jsonEntries?, hw, hws]

end

section Source

variable [Source α]

mutual

theorem normal_of_json? : (d : Datum α) → (v : Json) → json? d = some v → Json.Normal v
  | .leaf a, v, h => by
    obtain ⟨s, -, rfl⟩ := Option.map_eq_some_iff.mp h
    rfl
  | .list items, v, h => by
    obtain ⟨vs, hvs, rfl⟩ := Option.map_eq_some_iff.mp h
    exact normal_list (normal_of_jsonItems? items vs hvs)
  | .fields entries, v, h => by
    obtain ⟨es, hes, rfl⟩ := Option.map_eq_some_iff.mp h
    exact normal_ofDict fun e he =>
      normal_of_jsonEntries? entries es hes e (Dict.mem_of_mem_ofList he)

theorem normal_of_jsonItems? : (items : List (Datum α)) → (vs : List Json) →
    jsonItems? items = some vs → ∀ v ∈ vs, Json.Normal v
  | [], vs, h => by simp_all [jsonItems?]
  | d :: rest, vs, h => by
    simp only [jsonItems?, Option.bind_eq_bind, Option.bind_eq_some_iff] at h
    obtain ⟨v, hv, ws, hws, hvs⟩ := h
    obtain rfl := Option.some.inj hvs
    intro w hw
    rcases List.mem_cons.mp hw with rfl | hw
    · exact normal_of_json? d w hv
    · exact normal_of_jsonItems? rest ws hws w hw

theorem normal_of_jsonEntries? : (entries : List (String × Datum α)) →
    (es : List (String × Json)) → jsonEntries? entries = some es → ∀ e ∈ es, Json.Normal e.2
  | [], es, h => by simp_all [jsonEntries?]
  | (name, d) :: rest, es, h => by
    simp only [jsonEntries?, Option.bind_eq_bind, Option.bind_eq_some_iff] at h
    obtain ⟨v, hv, ws, hws, hes⟩ := h
    obtain rfl := Option.some.inj hes
    intro e he
    rcases List.mem_cons.mp he with rfl | he
    · exact normal_of_json? d v hv
    · exact normal_of_jsonEntries? rest ws hws e he

end

end Source

mutual

/-- Values hold their own kind of leaves already. -/
theorem ofJson_eq_self : (v : Json) → (ofJson v : Json) = v
  | .leaf _ => rfl
  | .list items => congrArg Datum.list (ofJsonItems_eq_self items)
  | .fields entries => congrArg Datum.fields (ofJsonEntries_eq_self entries)

theorem ofJsonItems_eq_self : (items : List Json) → (ofJsonItems items : List Json) = items
  | [] => rfl
  | v :: rest => by rw [ofJsonItems, ofJson_eq_self v, ofJsonItems_eq_self rest]

theorem ofJsonEntries_eq_self : (entries : List (String × Json)) →
    (ofJsonEntries entries : List (String × Json)) = entries
  | [] => rfl
  | (name, v) :: rest => by rw [ofJsonEntries, ofJson_eq_self v, ofJsonEntries_eq_self rest]

end

theorem ofDict_eq_self (d : Dict Json) : (ofDict d : Json) = Json.ofDict d :=
  congrArg Datum.fields (ofJsonEntries_eq_self d.entries)

end Datum

namespace Json

def reread (v : Json) : Json := (Datum.json? v).getD v

/-- A value is read back as what it is reread as. -/
theorem json?_eq_reread (v : Json) : Datum.json? v = some v.reread := by
  obtain ⟨w, hw⟩ := Option.isSome_iff_exists.mp (Datum.json?_isSome v)
  simp [reread, hw]

theorem reread_of_normal {v : Json} (h : v.Normal) : v.reread = v :=
  Option.some.inj ((json?_eq_reread v).symm.trans h)

/-- Reading changes the insides of values only, so numbers stay the same. -/
theorem number?_reread (v : Json) : v.reread.number? = v.number? := by
  have hv := json?_eq_reread v
  cases v with
  | leaf s => rfl
  | list items =>
    obtain ⟨vs, -, hvs⟩ := Option.map_eq_some_iff.mp hv
    rw [← hvs]
    rfl
  | fields entries =>
    obtain ⟨es, -, hes⟩ := Option.map_eq_some_iff.mp hv
    rw [← hes]
    rfl

end Json

namespace Datum

theorem mapM_map_eq_some {read : α → Option γ} {write : β → α} {change : β → γ} {xs : List β}
    (h : ∀ x ∈ xs, read (write x) = some (change x)) :
    (xs.map write).mapM read = some (xs.map change) := by
  induction xs with
  | nil => rfl
  | cons x rest ih =>
    have hx := h x List.mem_cons_self
    have hrest := ih fun y hy => h y (List.mem_cons_of_mem _ hy)
    simp [List.mapM_cons, hx, hrest]

theorem exists_of_mem_mapM {read : α → Option β} {xs : List α} {ys : List β} {y : β}
    (h : xs.mapM read = some ys) (hy : y ∈ ys) : ∃ x ∈ xs, read x = some y := by
  induction xs generalizing ys with
  | nil => simp_all
  | cons x rest ih =>
    simp only [List.mapM_cons, Option.bind_eq_bind, Option.bind_eq_some_iff] at h
    obtain ⟨z, hz, zs, hzs, hys⟩ := h
    obtain rfl := Option.some.inj hys
    rcases List.mem_cons.mp hy with rfl | hy
    · exact ⟨x, List.mem_cons_self, hz⟩
    · obtain ⟨w, hw, hread⟩ := ih hzs hy
      exact ⟨w, List.mem_cons_of_mem _ hw, hread⟩

theorem list?_map {read : Datum α → Option β} {write : β → Datum α} {xs : List β}
    (h : ∀ x ∈ xs, read (write x) = some x) : list? read (.list (xs.map write)) = some xs := by
  have hitems : (xs.map write).mapM read = some (xs.map id) := mapM_map_eq_some h
  rwa [List.map_id] at hitems

/-- A dictionary is read back value by value. -/
theorem dict?_fields {read : Datum α → Option γ} (write : β → Datum α) {change : β → γ} (d : Dict β)
    (h : ∀ e ∈ d.entries, read (write e.2) = some (change e.2)) :
    dict? read (.fields (d.entries.map fun e => (e.1, write e.2))) =
      some (d.map fun _ => change) := by
  have hentries : (d.entries.map fun e => (e.1, write e.2)).mapM
      (fun e => (read e.2).map (e.1, ·)) = some (d.map fun _ => change).entries :=
    mapM_map_eq_some fun e he => by simp [h e he]
  simp [dict?, hentries]

/-- What is true of all readings is true of all values of a dictionary that has been read. -/
theorem forall_of_dict? {read : Datum α → Option β} {P : β → Prop}
    (hread : ∀ d v, read d = some v → P v) {d : Datum α} {dict : Dict β}
    (h : dict? read d = some dict) : ∀ e ∈ dict.entries, P e.2 := by
  cases d with
  | leaf a => simp [dict?] at h
  | list items => simp [dict?] at h
  | fields entries =>
    obtain ⟨es, hes, rfl⟩ := Option.map_eq_some_iff.mp h
    intro e he
    obtain ⟨x, -, hx⟩ := exists_of_mem_mapM hes (Dict.mem_of_mem_ofList he)
    obtain ⟨v, hv, rfl⟩ := Option.map_eq_some_iff.mp hx
    exact hread x.2 v hv

theorem dict?_ofDict (d : Dict Json) :
    dict? json? (ofDict d : Json) = some (d.map fun _ => Json.reread) := by
  rw [ofDict_eq_self]
  simpa [Json.ofDict] using dict?_fields id d fun e _ => Json.json?_eq_reread e.2

end Datum

end BehaviorTree
