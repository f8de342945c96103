import BehaviorTree.Proofs.Values
import BehaviorTree.Record

/-!
Records are read back as they were written, as long as their positions are finite. Two things are
lost on the way: values come back in normal form, and a parameter that has null for its value comes
back without one. Where a record is settled there is nothing to be lost. Records are settled
whenever they have been read, and so they stay the same from then on.
-/
namespace BehaviorTree

variable {α β γ : Type}

theorem bind_of_eq_some {o : Option α} {a : α} (h : o = some a) (next : α → Option β) :
    (o >>= next) = next a := by
  rw [h]
  rfl

theorem exists_of_bind {o : Option α} {next : α → Option β} {b : β} (h : (o >>= next) = some b) :
    ∃ a, o = some a ∧ next a = some b :=
  Option.bind_eq_some_iff.mp h

namespace Members

/-- Fields without repeated names are taken as they are. -/
theorem ofDatum?_of_nodup {names : List String} {entries : List (String × Datum α)}
    (h : (entries.map (·.1)).Nodup) :
    ofDatum? names (.fields entries) = some fun name => entries.lookup name := by
  have honce : ¬ (names.any fun name => 1 < (entries.map (·.1)).count name) = true := by
    simp only [List.any_eq_true, decide_eq_true_eq, not_exists, not_and, Nat.not_lt]
    exact fun name _ => List.nodup_iff_count_le_one.mp h name
  rw [ofDatum?, if_neg honce]

theorem ofDatum?_fields {names : List String} {entries : List (String × Datum α)}
    (hsub : (entries.map (·.1)).Sublist names) (hnames : names.Nodup) :
    ofDatum? names (.fields entries) = some fun name => entries.lookup name :=
  ofDatum?_of_nodup (hnames.sublist hsub)

theorem withDefault_of_none {m : Members α} {name : String} {default : β}
    {read : Datum α → Option β} (h : m name = none) :
    m.withDefault name default read = some default := by
  simp [withDefault, h]

theorem withDefault_of_some {m : Members α} {name : String} {default : β}
    {read : Datum α → Option β} {d : Datum α} (h : m name = some d) :
    m.withDefault name default read = read d := by
  simp [withDefault, h]

variable {m : Members Scalar} {name : String}

/-- A member that may be left out is read back where it is not written as null. -/
theorem nullable_map {read : Json → Option γ} {write : β → Json} {change : β → γ}
    {value : Option β} (hm : m name = value.map write)
    (hread : ∀ v, value = some v →
      (write v).givesValue? = some true ∧ read (write v) = some (change v)) :
    m.nullable name read = some (value.map change) := by
  cases value with
  | none => exact withDefault_of_none hm
  | some v =>
    obtain ⟨hgiven, hv⟩ := hread v rfl
    rw [nullable, withDefault_of_some hm, Datum.nullable?, hgiven]
    simp [hv]

theorem nullable_text {value : Option String} (hm : m name = value.map Datum.text) :
    m.nullable name Datum.text? = some value := by
  have hread : m.nullable name Datum.text? = some (value.map id) :=
    nullable_map hm fun _ _ => ⟨rfl, rfl⟩
  rwa [Option.map_id_apply] at hread

/-- What has been read from a member that may be left out is not null. -/
theorem read_of_nullable {read : Json → Option β} {v : β}
    (h : m.nullable name read = some (some v)) : ∃ d, d ≠ Json.null ∧ read d = some v := by
  simp only [nullable, withDefault] at h
  cases hm : m name with
  | none => simp [hm] at h
  | some d =>
    simp only [hm, Datum.nullable?] at h
    obtain ⟨given, hgiven, hread⟩ := Option.bind_eq_some_iff.mp h
    cases given with
    | false => simp at hread
    | true =>
      refine ⟨d, ?_, by simpa using hread⟩
      rintro rfl
      simp [Json.null, Datum.givesValue?, Source.givesValue?] at hgiven

end Members

namespace Datum

theorem lookup_field? (name key : String) (write : β → Datum α) (value : Option β) :
    (field? name write value).lookup key = if key = name then value.map write else none := by
  cases value with
  | none => simp [field?]
  | some v => exact Dict.lookup_cons key name (write v) []

theorem field?_sublist (name : String) (write : β → Datum α) (value : Option β) :
    ((field? name write value).map (·.1)).Sublist [name] := by
  cases value with
  | none => exact List.nil_sublist _
  | some v => exact List.Sublist.refl _

theorem double?_double {x : Double} (h : x.isFinite = true) :
    (double x : Json).double? = some x := by
  simp [double, Sink.double, Number.ofDouble?, h, double?, Source.double?, Number.finite?,
    Number.toDouble]

theorem isFinite_of_double? {d : Json} {x : Double} (h : d.double? = some x) :
    x.isFinite = true := by
  cases d with
  | list items => simp [double?] at h
  | fields entries => simp [double?] at h
  | leaf s =>
    cases s with
    | number n =>
      simp only [double?, Source.double?, Number.finite?] at h
      split_ifs at h with hn
      exact Option.some.inj h ▸ hn
    | _ => simp [double?, Source.double?] at h

theorem variant?_text (names : List (String × β)) (name : String) :
    variant? names (text name : Json) = names.lookup name := rfl

theorem list?_text (texts : List String) :
    list? text? (.list (texts.map text) : Json) = some texts :=
  list?_map fun _ _ => rfl

end Datum

theorem ParamKind.lookup_name (kind : ParamKind) : names.lookup kind.name = some kind := by
  cases kind <;> rfl

theorem Category.lookup_name (category : Category) :
    names.lookup category.name = some category := by
  cases category <;> rfl

theorem Port.lookup_name (port : Port) : names.lookup port.name = some port := by
  cases port <;> rfl

namespace Position

def Finite (p : Position) : Prop := p.x.isFinite = true ∧ p.y.isFinite = true

theorem origin_finite : origin.Finite := ⟨by decide, by decide⟩

theorem read?_write {p : Position} (h : p.Finite) : read? (p.write : Json) = some p := by
  have hm : Members.ofDatum? fieldNames (p.write : Json) =
      some fun name => [("x", Datum.double p.x), ("y", Datum.double p.y)].lookup name :=
    Members.ofDatum?_fields (List.Sublist.refl _) (by decide)
  simp [read?, hm, Members.required, Dict.lookup_cons, Datum.double?_double h.1,
    Datum.double?_double h.2]

theorem finite_of_read? {d : Json} {p : Position} (h : read? d = some p) : p.Finite := by
  simp only [read?, Option.bind_eq_bind, Option.bind_eq_some_iff, Members.required] at h
  obtain ⟨m, -, x, ⟨dx, -, hx⟩, y, ⟨dy, -, hy⟩, hp⟩ := h
  obtain rfl := Option.some.inj hp
  exact ⟨Datum.isFinite_of_double? hx, Datum.isFinite_of_double? hy⟩

end Position

def Json.Settled (v : Json) : Prop := v ≠ Json.null ∧ Json.Normal v

theorem Json.givesValue?_of_ne_null {v : Json} (h : v ≠ Json.null) : v.givesValue? = some true := by
  cases v with
  | list items => rfl
  | fields entries => rfl
  | leaf s =>
    have hs : s ≠ .null := fun hnull => h (congrArg Datum.leaf hnull)
    simp [Datum.givesValue?, Source.givesValue?, hs]

def Json.rereadGiven (value : Option Json) : Option Json :=
  (value.filter (· ≠ Json.null)).map Json.reread

theorem Json.rereadGiven_of_settled {value : Option Json} (h : ∀ v, value = some v → v.Settled) :
    Json.rereadGiven value = value := by
  cases value with
  | none => rfl
  | some v =>
    obtain ⟨hnull, hnormal⟩ := h v rfl
    simp [Json.rereadGiven, hnull, Json.reread_of_normal hnormal]

theorem Members.nullable_json {m : Members Scalar} {name : String} {value : Option Json}
    (hm : m name = value.map Datum.ofJson) :
    m.nullable name Datum.json? = some (Json.rereadGiven value) := by
  cases value with
  | none => exact withDefault_of_none hm
  | some v =>
    have hv : m name = some v := by rw [hm, Option.map_some, Datum.ofJson_eq_self]
    rw [nullable, withDefault_of_some hv, Datum.nullable?]
    by_cases hnull : v = Json.null
    · subst hnull
      rfl
    · have hkept : Json.rereadGiven (some v) = some v.reread := by
        simp [Json.rereadGiven, Option.filter, hnull]
      simp [Json.givesValue?_of_ne_null hnull, Json.json?_eq_reread, hkept]

theorem Json.settled_of_json? {d v : Json} (hd : d ≠ Json.null) (h : Datum.json? d = some v) :
    v.Settled := by
  refine ⟨?_, Datum.normal_of_json? d v h⟩
  rintro rfl
  cases d with
  | leaf s => exact hd (Option.some.inj h)
  | list items => simp [Datum.json?, Json.null] at h
  | fields entries => simp [Datum.json?, Json.null, Json.ofDict] at h

namespace Parameter

structure Settled (p : Parameter) : Prop where
  value : ∀ v, p.value = some v → v.Settled
  default : ∀ v, p.default = some v → v.Settled

/-- The names that a parameter is written under are some of its own, in their order. -/
theorem exists_write (p : Parameter) : ∃ entries : List (String × Json),
    p.write = .fields entries ∧ (entries.map (·.1)).Sublist fieldNames := by
  refine ⟨_, rfl, ?_⟩
  have hrules : ((if p.rules.isEmpty then []
      else [("rules", Datum.list (p.rules.map Datum.text))] :
        List (String × Json)).map (·.1)).Sublist ["rules"] := by
    split_ifs
    · exact List.nil_sublist _
    · exact List.Sublist.refl _
  simp only [List.map_append]
  exact ((((List.Sublist.refl ["type"]).append (Datum.field?_sublist _ _ _)).append
    (Datum.field?_sublist _ _ _)).append hrules).append (Datum.field?_sublist _ _ _)

theorem members_write (p : Parameter) :
    ∃ m, Members.ofDatum? fieldNames (p.write : Json) = some m ∧
      m "type" = some (.text p.kind.name) ∧
      m "value" = p.value.map Datum.ofJson ∧
      m "default" = p.default.map Datum.ofJson ∧
      m "rules" = (if p.rules = [] then none else some (.list (p.rules.map .text))) ∧
      m "description" = p.description.map .text := by
  obtain ⟨entries, hwrite, hnames⟩ := p.exists_write
  obtain rfl := Datum.fields.inj hwrite
  refine ⟨_, Members.ofDatum?_fields hnames (by decide), ?_⟩
  by_cases hrules : p.rules = []
  · simp [List.lookup_append, Datum.lookup_field?, Dict.lookup_cons, hrules]
  · simp [List.lookup_append, Datum.lookup_field?, Dict.lookup_cons, hrules]

def reread (p : Parameter) : Parameter :=
  { p with value := Json.rereadGiven p.value, default := Json.rereadGiven p.default }

theorem reread_of_settled {p : Parameter} (h : p.Settled) : p.reread = p := by
  simp [reread, Json.rereadGiven_of_settled h.value, Json.rereadGiven_of_settled h.default]

theorem read?_write (p : Parameter) : read? (p.write : Json) = some p.reread := by
  obtain ⟨m, hm, htype, hvalue, hdefault, hrules, hdescription⟩ := members_write p
  have hkind : m.withDefault "type" .any (Datum.variant? ParamKind.names) = some p.kind := by
    rw [Members.withDefault_of_some htype, Datum.variant?_text, ParamKind.lookup_name]
  have hlist : m.withDefault "rules" [] (Datum.list? Datum.text?) = some p.rules := by
    by_cases hnil : p.rules = []
    · rw [if_pos hnil] at hrules
      rw [Members.withDefault_of_none hrules, hnil]
    · rw [if_neg hnil] at hrules
      rw [Members.withDefault_of_some hrules, Datum.list?_text]
  have hv := Members.nullable_json hvalue
  have hd := Members.nullable_json hdefault
  have hdesc := Members.nullable_text hdescription
  simp [read?, hm, hkind, hv, hd, hlist, hdesc, reread]

theorem settled_of_read? {d : Json} {p : Parameter} (h : read? d = some p) : p.Settled := by
  simp only [read?, Option.bind_eq_bind, Option.bind_eq_some_iff] at h
  obtain ⟨m, -, kind, -, value, hvalue, default, hdefault, rules, -, description, -, hp⟩ := h
  obtain rfl := Option.some.inj hp
  constructor
  · rintro v rfl
    obtain ⟨d, hd, hv⟩ := Members.read_of_nullable hvalue
    exact Json.settled_of_json? hd hv
  · rintro v rfl
    obtain ⟨d, hd, hv⟩ := Members.read_of_nullable hdefault
    exact Json.settled_of_json? hd hv

end Parameter

namespace ParameterSet

def Settled (set : ParameterSet) : Prop := ∀ e ∈ set.entries, e.2.Settled

def reread (set : ParameterSet) : ParameterSet := Dict.map (fun _ => Parameter.reread) set

theorem reread_of_settled {set : ParameterSet} (h : set.Settled) : set.reread = set :=
  Dict.map_eq_self fun e he => Parameter.reread_of_settled (h e he)

theorem read?_write (set : ParameterSet) : read? (write set : Json) = some set.reread :=
  Datum.dict?_fields Parameter.write set fun e _ => Parameter.read?_write e.2

theorem settled_of_read? {d : Json} {set : ParameterSet} (h : read? d = some set) : set.Settled :=
  Datum.forall_of_dict? (fun _ _ => Parameter.settled_of_read?) h

end ParameterSet

namespace Record

structure Settled (r : Record) : Prop where
  position : r.position.Finite
  config : ∀ d, r.config = some d → d.Normal
  parameters : ∀ set, r.parameters = some set → set.Settled

/-- The members under which a record is found. -/
structure Spelled (r : Record) (m : Members Scalar) : Prop where
  id : m "id" = some (.text r.id)
  typeName : m "type" = some (.text r.typeName)
  label : m "label" = r.label.map .text
  category : m "category" = some (.text r.category.name)
  position : m "position" = some r.position.write
  icon : m "icon" = r.icon.map .text
  color : m "color" = r.color.map .text
  code : m "code" = r.code.map .text
  config : m "config" = r.config.map .ofDict
  parameters : m "parameters" = r.parameters.map ParameterSet.write
  children : m "children" = some (.list (r.children.map .text))
  libraryType : m "libraryType" = r.libraryType.map .text
  isModified : m "isModified" = some (.bool r.isModified)
  libraryVersion : m "libraryVersion" = r.libraryVersion.map .text
  inputPort : m "inputPortType" = r.inputPort.map fun p => .text (Port.name p)
  outputPort : m "outputPortType" = r.outputPort.map fun p => .text (Port.name p)

/-- The names that a record is written under are some of its own, in their order. -/
theorem exists_write (r : Record) : ∃ entries : List (String × Json),
    r.write = .fields entries ∧ (entries.map (·.1)).Sublist fieldNames := by
  have hfield : ∀ {γ : Type} (name : String) (write : γ → Json) (value : Option γ),
      ((Datum.field? name write value).map (·.1)).Sublist [name] := Datum.field?_sublist
  have hplain : ∀ names : List String, names.Sublist names := List.Sublist.refl
  refine ⟨_, rfl, ?_⟩
  simp only [List.map_append]
  exact (((((((((((((hplain ["id", "type"]).append (hfield _ _ _)).append
    (hplain ["category", "position"])).append (hfield _ _ _)).append (hfield _ _ _)).append
    (hfield _ _ _)).append (hfield _ _ _)).append (hfield _ _ _)).append
    (hplain ["children"])).append (hfield _ _ _)).append (hplain ["isModified"])).append
    (hfield _ _ _)).append (hfield _ _ _)).append (hfield _ _ _)

theorem members_write (r : Record) :
    ∃ m, Members.ofDatum? fieldNames (r.write : Json) = some m ∧ Spelled r m := by
  obtain ⟨entries, hwrite, hnames⟩ := r.exists_write
  obtain rfl := Datum.fields.inj hwrite
  refine ⟨_, Members.ofDatum?_fields hnames (by decide), ?_⟩
  constructor <;> simp [List.lookup_append, Datum.lookup_field?, Dict.lookup_cons]

/-- The record is what these members are read as. -/
structure ReadFrom (r : Record) (m : Members Scalar) : Prop where
  id : m.required "id" Datum.text? = some r.id
  typeName : m.required "type" Datum.text? = some r.typeName
  label : m.nullable "label" Datum.text? = some r.label
  category : m.withDefault "category" .leaf (Datum.variant? Category.names) = some r.category
  position : m.withDefault "position" .origin Position.read? = some r.position
  icon : m.nullable "icon" Datum.text? = some r.icon
  color : m.nullable "color" Datum.text? = some r.color
  code : m.nullable "code" Datum.text? = some r.code
  config : m.nullable "config" (Datum.dict? Datum.json?) = some r.config
  parameters : m.nullable "parameters" ParameterSet.read? = some r.parameters
  children : m.withDefault "children" [] (Datum.list? Datum.text?) = some r.children
  libraryType : m.nullable "libraryType" Datum.text? = some r.libraryType
  isModified : m.withDefault "isModified" false Datum.bool? = some r.isModified
  libraryVersion : m.nullable "libraryVersion" Datum.text? = some r.libraryVersion
  inputPort : m.nullable "inputPortType" (Datum.variant? Port.names) = some r.inputPort
  outputPort : m.nullable "outputPortType" (Datum.variant? Port.names) = some r.outputPort

theorem read?_eq_some_iff {d : Json} {r : Record} :
    read? d = some r ↔ ∃ m, Members.ofDatum? fieldNames d = some m ∧ ReadFrom r m := by
  constructor
  · intro h
    obtain ⟨m, hm, h⟩ := exists_of_bind h
    obtain ⟨id, hid, h⟩ := exists_of_bind h
    obtain ⟨typeName, htype, h⟩ := exists_of_bind h
    obtain ⟨label, hlabel, h⟩ := exists_of_bind h
    obtain ⟨category, hcategory, h⟩ := exists_of_bind h
    obtain ⟨position, hposition, h⟩ := exists_of_bind h
    obtain ⟨icon, hicon, h⟩ := exists_of_bind h
    obtain ⟨color, hcolor, h⟩ := exists_of_bind h
    obtain ⟨code, hcode, h⟩ := exists_of_bind h
    obtain ⟨config, hconfig, h⟩ := exists_of_bind h
    obtain ⟨parameters, hparameters, h⟩ := exists_of_bind h
    obtain ⟨children, hchildren, h⟩ := exists_of_bind h
    obtain ⟨libraryType, hlibraryType, h⟩ := exists_of_bind h
    obtain ⟨isModified, hmodified, h⟩ := exists_of_bind h
    obtain ⟨libraryVersion, hlibraryVersion, h⟩ := exists_of_bind h
    obtain ⟨inputPort, hinputPort, h⟩ := exists_of_bind h
    obtain ⟨outputPort, houtputPort, h⟩ := exists_of_bind h
    obtain rfl := Option.some.inj h
    exact ⟨m, hm, hid, htype, hlabel, hcategory, hposition, hicon, hcolor, hcode, hconfig,
      hparameters, hchildren, hlibraryType, hmodified, hlibraryVersion, hinputPort, houtputPort⟩
  · rintro ⟨m, hm, hr⟩
    rw [read?, bind_of_eq_some hm, bind_of_eq_some hr.id, bind_of_eq_some hr.typeName,
      bind_of_eq_some hr.label, bind_of_eq_some hr.category, bind_of_eq_some hr.position,
      bind_of_eq_some hr.icon, bind_of_eq_some hr.color, bind_of_eq_some hr.code,
      bind_of_eq_some hr.config, bind_of_eq_some hr.parameters, bind_of_eq_some hr.children,
      bind_of_eq_some hr.libraryType, bind_of_eq_some hr.isModified,
      bind_of_eq_some hr.libraryVersion, bind_of_eq_some hr.inputPort,
      bind_of_eq_some hr.outputPort]
    rfl

theorem nullable_port {m : Members Scalar} {name : String} {port : Option Port}
    (hm : m name = port.map fun p => .text (Port.name p)) :
    m.nullable name (Datum.variant? Port.names) = some port := by
  have hread : m.nullable name (Datum.variant? Port.names) = some (port.map fun p => p) :=
    Members.nullable_map hm fun p _ => ⟨rfl, (Datum.variant?_text _ _).trans p.lookup_name⟩
  simpa using hread

def reread (r : Record) : Record :=
  { r with
    config := r.config.map (Dict.map fun _ => Json.reread)
    parameters := r.parameters.map ParameterSet.reread }

theorem reread_of_settled {r : Record} (h : r.Settled) : r.reread = r := by
  have hconfig : r.config.map (Dict.map fun _ => Json.reread) = r.config := by
    cases hr : r.config with
    | none => rfl
    | some d =>
      have hd : d.map (fun _ => Json.reread) = d :=
        Dict.map_eq_self fun e he => Json.reread_of_normal (h.config d hr e he)
      rw [Option.map_some, hd]
  have hparameters : r.parameters.map ParameterSet.reread = r.parameters := by
    cases hr : r.parameters with
    | none => rfl
    | some set => rw [Option.map_some, ParameterSet.reread_of_settled (h.parameters set hr)]
  rw [reread, hconfig, hparameters]

theorem read?_write {r : Record} (h : r.position.Finite) :
    read? (r.write : Json) = some r.reread := by
  obtain ⟨m, hm, hs⟩ := members_write r
  refine read?_eq_some_iff.mpr ⟨m, hm, ?_⟩
  exact {
    id := by rw [Members.required, hs.id]; rfl
    typeName := by rw [Members.required, hs.typeName]; rfl
    label := Members.nullable_text hs.label
    category := by
      rw [Members.withDefault_of_some hs.category, Datum.variant?_text, Category.lookup_name]
      rfl
    position := by
      rw [Members.withDefault_of_some hs.position, Position.read?_write h]
      rfl
    icon := Members.nullable_text hs.icon
    color := Members.nullable_text hs.color
    code := Members.nullable_text hs.code
    config := Members.nullable_map hs.config fun d _ => ⟨rfl, Datum.dict?_ofDict d⟩
    parameters :=
      Members.nullable_map hs.parameters fun set _ => ⟨rfl, ParameterSet.read?_write set⟩
    children := by
      rw [Members.withDefault_of_some hs.children, Datum.list?_text]
      rfl
    libraryType := Members.nullable_text hs.libraryType
    isModified := Members.withDefault_of_some hs.isModified
    libraryVersion := Members.nullable_text hs.libraryVersion
    inputPort := nullable_port hs.inputPort
    outputPort := nullable_port hs.outputPort
  }

theorem settled_of_read? {d : Json} {r : Record} (h : read? d = some r) : r.Settled := by
  obtain ⟨m, -, hr⟩ := read?_eq_some_iff.mp h
  constructor
  · cases hm : m "position" with
    | none =>
      have hposition := (Members.withDefault_of_none hm).symm.trans hr.position
      rw [← Option.some.inj hposition]
      exact Position.origin_finite
    | some d =>
      have hposition := (Members.withDefault_of_some hm).symm.trans hr.position
      exact Position.finite_of_read? hposition
  · intro dict hdict
    obtain ⟨d, -, hd⟩ := Members.read_of_nullable (hdict ▸ hr.config)
    exact Datum.forall_of_dict? Datum.normal_of_json? hd
  · intro set hset
    obtain ⟨d, -, hd⟩ := Members.read_of_nullable (hset ▸ hr.parameters)
    exact ParameterSet.settled_of_read? hd

end Record

end BehaviorTree
