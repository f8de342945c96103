import BehaviorTree.Proofs.RecordCodec

/-!
Fields in any order. A structure is read by the names of its fields, and a dictionary has its
entries in the order of their keys whatever order they were read in. So a reader cannot tell a value
from the value with all fields in order, as long as no field is repeated: a structure is refused if
one of its fields is, and of a free-form value only the last field of a name remains.
-/
namespace BehaviorTree

variable {α β : Type}

namespace Dict

theorem insertEntry_perm {key : String} (value : α) {entries : List (String × α)}
    (h : key ∉ entries.map (·.1)) :
    (insertEntry key value entries).Perm ((key, value) :: entries) := by
  induction entries with
  | nil => exact .refl _
  | cons e rest ih =>
    obtain ⟨hne, hrest⟩ := not_or.mp (List.mem_cons.not.mp h)
    by_cases hlt : key < e.1
    · rw [insertEntry, if_pos hlt]
    · rw [insertEntry, if_neg hlt, if_neg hne]
      exact ((ih hrest).cons e).trans (.swap _ e rest)

theorem perm_foldl_insert {entries : List (String × α)} (d : Dict α)
    (h : ((d.entries ++ entries).map (·.1)).Nodup) :
    (entries.foldl (fun d e => d.insert e.1 e.2) d).entries.Perm (d.entries ++ entries) := by
  induction entries generalizing d with
  | nil =>
    rw [List.append_nil]
    exact .refl d.entries
  | cons e rest ih =>
    have hnew : e.1 ∉ d.entries.map (·.1) := by
      rw [List.map_append, List.map_cons] at h
      intro hmem
      exact (List.nodup_append.mp h).2.2 e.1 hmem e.1 List.mem_cons_self rfl
    have hinsert : ((d.insert e.1 e.2).entries ++ rest).Perm (d.entries ++ e :: rest) :=
      ((insertEntry_perm e.2 hnew).append_right rest).trans List.perm_middle.symm
    have hnodup := (hinsert.map (·.1)).nodup_iff.mpr h
    exact (ih (d.insert e.1 e.2) hnodup).trans hinsert

/-- A dictionary of entries is these entries in the order of their keys. -/
theorem perm_ofList {entries : List (String × α)} (h : (entries.map (·.1)).Nodup) :
    (ofList entries).entries.Perm entries :=
  perm_foldl_insert empty h

/-- Without repeated names a look-up does not depend on the order of the entries. -/
theorem get?_ofList {entries : List (String × α)} (h : (entries.map (·.1)).Nodup) (key : String) :
    (ofList entries).get? key = entries.lookup key := by
  refine Option.ext fun value => ?_
  rw [get?_eq_some, (perm_ofList h).mem_iff]
  exact ⟨lookup_eq_some_of_mem h, mem_of_lookup⟩

theorem lookup_map (change : α → β) (entries : List (String × α)) (key : String) :
    (entries.map fun e => (e.1, change e.2)).lookup key = (entries.lookup key).map change := by
  induction entries with
  | nil => rfl
  | cons e rest ih =>
    rw [List.map_cons, lookup_cons, lookup_cons, ih]
    split_ifs
    · rfl
    · rfl

end Dict

namespace Json

/-- No field is repeated, neither in the value nor in any part of it. -/
inductive Distinct : Json → Prop
  | leaf (s : Scalar) : Distinct (.leaf s)
  | list {items : List Json} (h : ∀ v ∈ items, Distinct v) : Distinct (.list items)
  | fields {entries : List (String × Json)} (hnames : (entries.map (·.1)).Nodup)
      (h : ∀ e ∈ entries, Distinct e.2) : Distinct (.fields entries)

theorem reread_list (items : List Json) : reread (.list items) = .list (items.map reread) := by
  have hitems : Datum.jsonItems? items = some (items.map reread) := by
    induction items with
    | nil => rfl
    | cons v rest ih => simp [Datum.jsonItems?, json?_eq_reread, ih]
  rw [reread, Datum.json?, hitems]
  rfl

theorem reread_fields (entries : List (String × Json)) :
    reread (.fields entries) = ofDict (.ofList (entries.map fun e => (e.1, e.2.reread))) := by
  have hentries : Datum.jsonEntries? entries =
      some (entries.map fun e => (e.1, e.2.reread)) := by
    induction entries with
    | nil => rfl
    | cons e rest ih => simp [Datum.jsonEntries?, json?_eq_reread, ih]
  rw [reread, Datum.json?, hentries]
  rfl

theorem normal_reread (v : Json) : v.reread.Normal :=
  Datum.normal_of_json? v v.reread (json?_eq_reread v)

theorem reread_reread (v : Json) : v.reread.reread = v.reread :=
  reread_of_normal (normal_reread v)

/-- The entries of a value in the order of their names. -/
theorem exists_reread_fields {entries : List (String × Json)}
    (h : (entries.map (·.1)).Nodup) :
    ∃ sorted, reread (.fields entries) = .fields sorted ∧ (sorted.map (·.1)).Nodup ∧
      sorted.length = entries.length ∧
      ∀ name, sorted.lookup name = (entries.lookup name).map reread := by
  have hnames : ((entries.map fun e => (e.1, e.2.reread)).map (·.1)).Nodup := by
    rwa [List.map_map]
  refine ⟨_, reread_fields entries, Dict.keys_nodup _, ?_, fun name => ?_⟩
  · rw [(Dict.perm_ofList hnames).length_eq, List.length_map]
  · rw [← Dict.lookup_map]
    exact Dict.get?_ofList hnames name

mutual

/-- What has been read repeats no field. -/
theorem distinct_reread : (v : Json) → v.reread.Distinct
  | .leaf s => .leaf s
  | .list items => by
    rw [reread_list]
    exact .list (List.forall_mem_map.mpr (distinct_rereadItems items))
  | .fields entries => by
    rw [reread_fields]
    refine .fields (Dict.keys_nodup _) fun e he => ?_
    obtain ⟨x, hx, rfl⟩ := List.mem_map.mp (Dict.mem_of_mem_ofList he)
    exact distinct_rereadEntries entries x hx

theorem distinct_rereadItems : (items : List Json) → ∀ v ∈ items, v.reread.Distinct
  | [] => List.forall_mem_nil _
  | v :: rest => List.forall_mem_cons.mpr ⟨distinct_reread v, distinct_rereadItems rest⟩

theorem distinct_rereadEntries :
    (entries : List (String × Json)) → ∀ e ∈ entries, e.2.reread.Distinct
  | [] => List.forall_mem_nil _
  | (_, v) :: rest => List.forall_mem_cons.mpr ⟨distinct_reread v, distinct_rereadEntries rest⟩

end

theorem Normal.distinct {v : Json} (h : v.Normal) : v.Distinct :=
  reread_of_normal h ▸ distinct_reread v

/-- The reader does not see in which order the fields of a value come. -/
def AnyOrder (read : Json → Option β) : Prop := ∀ v : Json, v.Distinct → read v.reread = read v

end Json

namespace Datum

open Json

variable {read : Json → Option β}

/-- A reader that only accepts leaves does not see any order. -/
theorem anyOrder_of_leaf (hlist : ∀ items, read (.list items) = none)
    (hfields : ∀ entries, read (.fields entries) = none) : AnyOrder read := by
  intro v _
  cases v with
  | leaf s => rfl
  | list items => rw [reread_list, hlist, hlist]
  | fields entries =>
    rw [reread_fields]
    exact (hfields _).trans (hfields _).symm

theorem anyOrder_text? : AnyOrder text? := anyOrder_of_leaf (fun _ => rfl) fun _ => rfl

theorem anyOrder_bool? : AnyOrder bool? := anyOrder_of_leaf (fun _ => rfl) fun _ => rfl

theorem anyOrder_double? : AnyOrder double? := anyOrder_of_leaf (fun _ => rfl) fun _ => rfl

theorem anyOrder_json? : AnyOrder json? := fun v _ => by
  rw [json?_eq_reread, json?_eq_reread, reread_reread]

theorem givesValue?_reread (v : Json) : v.reread.givesValue? = v.givesValue? := by
  cases v with
  | leaf s => rfl
  | list items => rw [reread_list]; rfl
  | fields entries => rw [reread_fields]; rfl

theorem saysNameOnly_reread (v : Json) : v.reread.saysNameOnly = v.saysNameOnly := by
  cases v with
  | leaf s => rfl
  | list items => rw [reread_list]; rfl
  | fields entries => rw [reread_fields]; rfl

theorem anyOrder_nullable? (h : AnyOrder read) : AnyOrder (nullable? read) := fun v hv => by
  rw [nullable?, nullable?, givesValue?_reread, h v hv]

theorem anyOrder_list? (h : AnyOrder read) : AnyOrder (list? read) := by
  intro v hv
  cases hv with
  | leaf s => rfl
  | fields hnames _ =>
    rw [reread_fields]
    rfl
  | @list items hitems =>
    have hmap : (items.map reread).mapM read = items.mapM read := by
      induction items with
      | nil => rfl
      | cons v rest ih =>
        have hrest := ih fun w hw => hitems w (List.mem_cons_of_mem _ hw)
        rw [List.map_cons, List.mapM_cons, List.mapM_cons, hrest,
          h v (hitems v List.mem_cons_self)]
    rw [reread_list]
    exact hmap

/-- A name may also stand for a single field, and that has no order. -/
theorem anyOrder_variant? (names : List (String × β)) : AnyOrder (variant? names) := by
  intro v hv
  cases hv with
  | leaf s => rfl
  | list _ =>
    rw [reread_list]
    rfl
  | @fields entries hnames _ =>
    match entries with
    | [] => rfl
    | [(name, d)] =>
      have hsingle : reread (.fields [(name, d)]) = .fields [(name, d.reread)] :=
        reread_fields [(name, d)]
      rw [hsingle, variant?, saysNameOnly_reread]
      rfl
    | e :: e' :: rest =>
      -- Two fields name no variant, whichever of them comes first.
      obtain ⟨sorted, hsorted, -, hlen, -⟩ := exists_reread_fields hnames
      rw [hsorted]
      match sorted with
      | _ :: _ :: _ => rfl

theorem lookup_of_mapM {entries : List (String × Json)} {es : List (String × β)}
    (h : entries.mapM (fun e => (read e.2).map (e.1, ·)) = some es) :
    es.map (·.1) = entries.map (·.1) ∧
      ∀ name, (entries.lookup name).map read = (es.lookup name).map some := by
  induction entries generalizing es with
  | nil =>
    obtain rfl : [] = es := Option.some.inj h
    exact ⟨rfl, fun _ => rfl⟩
  | cons e rest ih =>
    rw [List.mapM_cons] at h
    obtain ⟨x, hx, h⟩ := exists_of_bind h
    obtain ⟨xs, hxs, h⟩ := exists_of_bind h
    obtain rfl : x :: xs = es := Option.some.inj h
    obtain ⟨y, hy, rfl⟩ := Option.map_eq_some_iff.mp hx
    obtain ⟨hnames, hlookup⟩ := ih hxs
    refine ⟨congrArg (e.1 :: ·) hnames, fun name => ?_⟩
    rw [Dict.lookup_cons, Dict.lookup_cons]
    split_ifs
    · exact congrArg some hy
    · exact hlookup name

theorem exists_mapM {entries : List (String × Json)} (h : ∀ e ∈ entries, ∃ y, read e.2 = some y) :
    ∃ es, entries.mapM (fun e => (read e.2).map (e.1, ·)) = some es := by
  induction entries with
  | nil => exact ⟨[], rfl⟩
  | cons e rest ih =>
    obtain ⟨y, hy⟩ := h e List.mem_cons_self
    obtain ⟨ys, hys⟩ := ih fun e he => h e (List.mem_cons_of_mem _ he)
    exact ⟨(e.1, y) :: ys, by simp [List.mapM_cons, hy, hys]⟩

/-- What is read of fields under different names is what is read of each of them. -/
theorem dict?_eq_some_iff {entries : List (String × Json)} (h : (entries.map (·.1)).Nodup)
    {d : Dict β} : dict? read (.fields entries) = some d ↔
      ∀ name, (entries.lookup name).map read = (d.get? name).map some := by
  have hforward : ∀ {es : List (String × β)},
      entries.mapM (fun e => (read e.2).map (e.1, ·)) = some es →
        ∀ name, (entries.lookup name).map read = ((Dict.ofList es).get? name).map some := by
    intro es hes name
    obtain ⟨hnames, hlookup⟩ := lookup_of_mapM hes
    rw [Dict.get?_ofList (hnames ▸ h), hlookup]
  constructor
  · intro hd
    obtain ⟨es, hes, rfl⟩ := Option.map_eq_some_iff.mp hd
    exact hforward hes
  · intro hd
    obtain ⟨es, hes⟩ : ∃ es, entries.mapM (fun e => (read e.2).map (e.1, ·)) = some es := by
      refine exists_mapM fun e he => ?_
      have hname := hd e.1
      rw [Dict.lookup_eq_some_of_mem h he, Option.map_some] at hname
      obtain ⟨y, -, hy⟩ := Option.map_eq_some_iff.mp hname.symm
      exact ⟨y, hy.symm⟩
    have hsame : Dict.ofList es = d := Dict.eq_of_get?_eq fun name =>
      Option.map_injective (Option.some_injective _) ((hforward hes name).symm.trans (hd name))
    rw [dict?, hes, Option.map_some, hsame]

theorem anyOrder_dict? (h : AnyOrder read) : AnyOrder (dict? read) := by
  intro v hv
  cases hv with
  | leaf s => rfl
  | list _ =>
    rw [reread_list]
    rfl
  | @fields entries hnames hall =>
    obtain ⟨sorted, hsorted, hnodup, -, hlookup⟩ := exists_reread_fields hnames
    refine Option.ext fun d => ?_
    rw [hsorted, dict?_eq_some_iff hnodup, dict?_eq_some_iff hnames]
    refine forall_congr' fun name => ?_
    rw [hlookup, Option.map_map]
    have hread : (entries.lookup name).map (read ∘ reread) = (entries.lookup name).map read :=
      Option.map_congr fun x hx => h x (hall _ (Dict.mem_of_lookup hx))
    rw [hread]

end Datum

namespace Members

open Json

variable {m : Members Scalar} {names : List String}

def reread (m : Members Scalar) : Members Scalar := fun name => (m name).map Json.reread

def Distinct (m : Members Scalar) : Prop := ∀ name d, m name = some d → Json.Distinct d

/-- The members of a value with its fields in order are those of the value. -/
theorem ofDatum?_reread {v : Json} (hv : v.Distinct) :
    ofDatum? names v.reread = (ofDatum? names v).map reread := by
  cases hv with
  | leaf s => rfl
  | @list items _ =>
    rw [reread_list, ofDatum?, ofDatum?, List.length_map]
    split_ifs
    · rfl
    · have hlookup (name : String) : (names.zip (items.map Json.reread)).lookup name =
          ((names.zip items).lookup name).map Json.reread := by
        rw [List.zip_map_right, ← Dict.lookup_map]
        rfl
      exact congrArg some (funext hlookup)
  | @fields entries hnames _ =>
    obtain ⟨sorted, hsorted, hnodup, -, hlookup⟩ := exists_reread_fields hnames
    rw [hsorted, ofDatum?_of_nodup hnames, ofDatum?_of_nodup hnodup]
    exact congrArg some (funext hlookup)

theorem distinct_of_ofDatum? {v : Json} (hv : v.Distinct) (h : ofDatum? names v = some m) :
    m.Distinct := by
  intro name d hd
  cases hv with
  | leaf s => cases h
  | list hitems =>
    rw [ofDatum?] at h
    split_ifs at h
    obtain rfl := Option.some.inj h
    exact hitems d (List.of_mem_zip (Dict.mem_of_lookup hd)).2
  | fields hnames hall =>
    rw [ofDatum?_of_nodup hnames] at h
    obtain rfl := Option.some.inj h
    exact hall (name, d) (Dict.mem_of_lookup hd)

namespace Distinct

variable {read : Json → Option β} (hm : m.Distinct) (hread : AnyOrder read)
include hm hread

theorem required (name : String) : m.reread.required name read = m.required name read := by
  rw [Members.required, Members.required, Members.reread]
  cases hd : m name with
  | none => rfl
  | some d => exact hread d (hm name d hd)

theorem withDefault (name : String) (default : β) :
    m.reread.withDefault name default read = m.withDefault name default read := by
  rw [Members.withDefault, Members.withDefault, Members.reread]
  cases hd : m name with
  | none => rfl
  | some d => exact hread d (hm name d hd)

theorem nullable (name : String) : m.reread.nullable name read = m.nullable name read :=
  hm.withDefault (Datum.anyOrder_nullable? hread) name none

end Distinct

/-- A reader that looks at members alone does not see the order of the fields. -/
theorem anyOrder {next : Members Scalar → Option β}
    (h : ∀ m : Members Scalar, m.Distinct → next m.reread = next m) :
    AnyOrder fun v => ofDatum? names v >>= next := by
  intro v hv
  show ofDatum? names v.reread >>= next = ofDatum? names v >>= next
  rw [ofDatum?_reread hv]
  cases hm : ofDatum? names v with
  | none => rfl
  | some m => exact h m (distinct_of_ofDatum? hv hm)

end Members

open Datum

theorem Position.anyOrder : Json.AnyOrder Position.read? :=
  Members.anyOrder fun m hm => by
    rw [hm.required anyOrder_double?, hm.required anyOrder_double?]

theorem Parameter.anyOrder : Json.AnyOrder Parameter.read? :=
  Members.anyOrder fun m hm => by
    rw [hm.withDefault (anyOrder_variant? _), hm.nullable anyOrder_json?,
      hm.nullable anyOrder_json?, hm.withDefault (anyOrder_list? anyOrder_text?),
      hm.nullable anyOrder_text?]

theorem ParameterSet.anyOrder : Json.AnyOrder ParameterSet.read? :=
  anyOrder_dict? Parameter.anyOrder

/-- A record is read alike whatever the order of its fields. -/
theorem Record.anyOrder : Json.AnyOrder Record.read? :=
  Members.anyOrder fun m hm => by
    simp only [hm.required anyOrder_text?, hm.nullable anyOrder_text?,
      hm.withDefault (anyOrder_variant? _), hm.withDefault Position.anyOrder,
      hm.nullable (anyOrder_dict? anyOrder_json?), hm.nullable ParameterSet.anyOrder,
      hm.withDefault (anyOrder_list? anyOrder_text?), hm.withDefault anyOrder_bool?,
      hm.nullable (anyOrder_variant? _)]

end BehaviorTree
