import BehaviorTree.Proofs.FieldOrder

/-!
What is written of something that has been read. Records, parameters and sets of parameters are read
from objects and from lists, with names as texts or as fields, with nulls and without. They are
written in one way only, as an object that names each of its fields once, and nothing is lost from
then on: the object is read as what it was written for, whatever order its fields are in, and
written again it is the same.
-/
namespace BehaviorTree

variable {α β : Type}

/-- What is written of a value stays as it is when it is read and written again. -/
structure Lasting (read : Json → Option β) (write : β → Json) (x : β) : Prop where
  /-- It is an object without repeated fields. -/
  object : ∃ entries, write x = .fields entries ∧ Json.Distinct (write x)
  back : read (write x) = some x
  again : (read (write x)).map write = some (write x)
  /-- As a free-form value it is an object too, and reading does not change that one. -/
  value : ∃ d : Dict Json, Json.reread (write x) = Json.ofDict d ∧ d.Normal
  /-- Objects that differ from it in the order of fields only are read as the same. -/
  anyOrder : ∀ v : Json, v.Distinct → v.reread = Json.reread (write x) → read v = some x

/-- It is enough that an object without repeated fields is read back by a reader that does not see
the order of fields. -/
theorem Lasting.of_back {read : Json → Option β} {write : β → Json} {x : β}
    (hread : Json.AnyOrder read) {entries : List (String × Json)}
    (hwrite : write x = .fields entries) (hdistinct : Json.Distinct (write x))
    (hback : read (write x) = some x) : Lasting read write x where
  object := ⟨entries, hwrite, hdistinct⟩
  back := hback
  again := by rw [hback, Option.map_some]
  value := by
    rw [hwrite, Json.reread_fields]
    refine ⟨_, rfl, fun e he => ?_⟩
    obtain ⟨x, -, rfl⟩ := List.mem_map.mp (Dict.mem_of_mem_ofList he)
    exact x.2.normal_reread
  anyOrder v hv hsame := by
    calc read v
      _ = read v.reread := (hread v hv).symm
      _ = read (write x) := by rw [hsame, hread _ hdistinct]
      _ = some x := hback

namespace Datum

open Json

theorem forall_mem_field?_iff {name : String} {write : β → Json} {value : Option β} :
    (∀ e ∈ (field? name write value : List (String × Json)), Distinct e.2) ↔
      ∀ v, value = some v → Distinct (write v) := by
  cases value with
  | none => simp [field?]
  | some v => simp [field?]

theorem distinct_text (s : String) : Distinct (text s) := .leaf _

theorem distinct_bool (b : Bool) : Distinct (bool b) := .leaf _

theorem distinct_double (x : Double) : Distinct (double x) := .leaf _

theorem distinct_texts (texts : List String) : Distinct (.list (texts.map text)) :=
  .list (List.forall_mem_map.mpr fun s _ => distinct_text s)

/-- A value in normal form does not repeat a field when it is written. -/
theorem distinct_ofJson {v : Json} (h : v.Normal) : Distinct (ofJson v) := by
  rw [ofJson_eq_self]
  exact h.distinct

theorem distinct_dict {write : β → Json} (d : Dict β)
    (h : ∀ e ∈ d.entries, Distinct (write e.2)) :
    Distinct (.fields (d.entries.map fun e => (e.1, write e.2))) := by
  refine .fields ?_ (List.forall_mem_map.mpr h)
  rw [List.map_map]
  exact d.keys_nodup

end Datum

open Datum

theorem Position.distinct_write (p : Position) : Json.Distinct p.write := by
  have hnames : ["x", "y"].Nodup := by decide
  refine .fields hnames (List.forall_mem_cons.mpr ⟨distinct_double p.x, ?_⟩)
  exact List.forall_mem_singleton.mpr (distinct_double p.y)

theorem Parameter.distinct_write {p : Parameter} (h : p.Settled) : Json.Distinct p.write := by
  obtain ⟨entries, hwrite, hnames⟩ := p.exists_write
  rw [hwrite]
  refine .fields (List.Nodup.sublist hnames (by decide)) ?_
  obtain rfl := Datum.fields.inj hwrite
  simp only [List.forall_mem_append, List.forall_mem_cons, List.not_mem_nil, false_implies,
    forall_mem_field?_iff, distinct_text, implies_true, and_true, true_and]
  refine ⟨⟨fun v hv => ?_, fun v hv => ?_⟩, ?_⟩
  · exact distinct_ofJson (h.value v hv).2
  · exact distinct_ofJson (h.default v hv).2
  · split_ifs
    · exact List.forall_mem_nil _
    · exact List.forall_mem_singleton.mpr (distinct_texts p.rules)

theorem ParameterSet.distinct_write {set : ParameterSet} (h : set.Settled) :
    Json.Distinct (write set) :=
  distinct_dict set fun e he => Parameter.distinct_write (h e he)

theorem Record.distinct_write {r : Record} (h : r.Settled) : Json.Distinct r.write := by
  obtain ⟨entries, hwrite, hnames⟩ := r.exists_write
  rw [hwrite]
  refine .fields (List.Nodup.sublist hnames (by decide)) ?_
  obtain rfl := Datum.fields.inj hwrite
  simp only [List.forall_mem_append, List.forall_mem_cons, List.not_mem_nil, false_implies,
    forall_mem_field?_iff, distinct_text, distinct_bool, distinct_texts, implies_true, and_true,
    true_and]
  refine ⟨⟨r.position.distinct_write, fun d hd => ?_⟩, fun set hset => ?_⟩
  · rw [ofDict_eq_self]
    exact Json.Normal.distinct (normal_ofDict (h.config d hd))
  · exact ParameterSet.distinct_write (h.parameters set hset)

/-- Records, parameters and sets of parameters that have been read are written as objects that stay
as they are, whatever they were read from. -/
theorem written_for_good :
    (∀ (v : Json) (r : Record), Record.read? v = some r →
      Lasting Record.read? Record.write r) ∧
    (∀ (v : Json) (p : Parameter), Parameter.read? v = some p →
      Lasting Parameter.read? Parameter.write p) ∧
    (∀ (v : Json) (set : ParameterSet), ParameterSet.read? v = some set →
      Lasting ParameterSet.read? ParameterSet.write set) := by
  refine ⟨fun v r hr => ?_, fun v p hp => ?_, fun v set hset => ?_⟩
  · have hsettled : r.Settled := Record.settled_of_read? hr
    have hback := Record.read?_write hsettled.position
    rw [Record.reread_of_settled hsettled] at hback
    exact .of_back Record.anyOrder rfl (Record.distinct_write hsettled) hback
  · have hsettled : p.Settled := Parameter.settled_of_read? hp
    have hback := Parameter.read?_write p
    rw [Parameter.reread_of_settled hsettled] at hback
    exact .of_back Parameter.anyOrder rfl (Parameter.distinct_write hsettled) hback
  · have hsettled : set.Settled := ParameterSet.settled_of_read? hset
    have hback := ParameterSet.read?_write set
    rw [ParameterSet.reread_of_settled hsettled] at hback
    exact .of_back ParameterSet.anyOrder rfl (ParameterSet.distinct_write hsettled) hback

def listedParameter : Json :=
  .fields [("default", Json.int 3), ("type", .fields [("integer", Json.null)]),
    ("value", Json.null), ("rules", .list [Json.text "min=1"])]

def listedRecord : Json :=
  .list [Json.text "n", Json.text "Retry", Json.null, .fields [("decorator", Json.null)],
    .list [Json.int 1, Json.int 2], Json.text "bolt", Json.null, Json.text "",
    .fields [("b", Json.int 1), ("a", .fields [("y", Json.null), ("x", Json.bool true)])],
    .fields [("limit", listedParameter)]]

/-- Written once, the listed record and its parameter are read and written without a change from
then on. -/
theorem written_for_good_listedRecord :
    let limit : Parameter := { kind := .integer, default := some (Json.int 3), rules := ["min=1"] }
    let set : ParameterSet := .ofList [("limit", limit)]
    let config : Dict Json :=
      .ofList [("a", .fields [("x", Json.bool true), ("y", Json.null)]), ("b", Json.int 1)]
    let r : Record :=
      { id := "n", typeName := "Retry", category := .decorator, position := ⟨.ofInt 1, .ofInt 2⟩,
        icon := some "bolt", code := some "", config := some config, parameters := some set }
    Lasting Record.read? Record.write r ∧ Lasting Parameter.read? Parameter.write limit ∧
      Lasting ParameterSet.read? ParameterSet.write set := by
  obtain ⟨hrecord, hparameter, hset⟩ := written_for_good
  exact ⟨hrecord listedRecord _ (by decide +kernel),
    hparameter listedParameter _ (by decide +kernel),
    hset (.fields [("limit", listedParameter)]) _ (by decide +kernel)⟩

end BehaviorTree
