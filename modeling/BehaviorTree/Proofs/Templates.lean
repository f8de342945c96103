import BehaviorTree.Proofs.Planting
import BehaviorTree.Proofs.RecordCodec

/-!
What the registry and a record make of a node, a record of the same node makes of it again: the
record says all that it was made by, and what it leaves out is left out by the same template. This
takes a registry whose templates stand under the names of their own types, as the standard one does.
-/
namespace BehaviorTree

/-- All that is written about the node can be written to a document. -/
structure NodeSpec.Settled (spec : NodeSpec) : Prop where
  position : spec.position.Finite
  config : spec.config.Normal
  parameters : ParameterSet.Settled spec.parameters

theorem NodeSpec.Settled.record {spec : NodeSpec} (h : spec.Settled) (children : List String) :
    (Record.ofSpec spec children).Settled where
  position := h.position
  config _ hd := Option.some.inj hd ▸ h.config
  parameters _ hset := Option.some.inj hset ▸ h.parameters

theorem NodeSpec.Settled.applyTo {spec : NodeSpec} {r : Record} (hr : r.Settled)
    (h : spec.Settled) : (r.applyTo spec).Settled where
  position := hr.position
  config := by
    cases hconfig : r.config with
    | none => simpa [Record.applyTo, hconfig] using h.config
    | some d => simpa [Record.applyTo, hconfig] using hr.config d hconfig
  parameters := by
    cases hparameters : r.parameters with
    | none => simpa [Record.applyTo, hparameters] using h.parameters
    | some set => simpa [Record.applyTo, hparameters] using hr.parameters set hparameters

/-- A record of a node that another record has been applied to says all that this record said. -/
theorem Record.applyTo_ofSpec (r : Record) (fresh : NodeSpec) (children : List String) :
    (ofSpec (r.applyTo fresh) children).applyTo fresh = r.applyTo fresh := by
  simp [applyTo, ofSpec, Option.or_assoc]

/-- A template under the name of its type, with nothing in it that a document cannot hold. -/
structure Template.StandsFor (t : Template) (name : String) : Prop where
  typeName : t.typeName = name
  config : t.config.Normal
  parameters : ParameterSet.Settled t.parameters

theorem Template.StandsFor.settled {t : Template} {name : String} (h : t.StandsFor name)
    (id : String) : (t.instantiate id).Settled :=
  ⟨Position.origin_finite, h.config, h.parameters⟩

namespace Registry

def Regular (r : Registry) : Prop := ∀ name t, Dict.get? r name = some t → t.StandsFor name

variable {r : Registry}

theorem empty_regular : Regular .empty := by
  intro name t h
  simp at h

/-- A type that is added to a regular registry leaves it regular. -/
theorem register_regular (hr : r.Regular) (typeName : String) (behavior : Behavior) :
    (r.register typeName behavior).Regular :=
  Dict.All.insert hr ⟨rfl, List.forall_mem_nil _, List.forall_mem_nil _⟩

theorem registerAll_regular (hr : r.Regular) (types : List (String × BuiltInType)) :
    (r.registerAll types).Regular := by
  induction types generalizing r with
  | nil => exact hr
  | cons type rest ih => exact ih (register_regular hr type.1 type.2.kind.behavior)

/-- A change of templates that keeps what they stand for. -/
theorem modify_regular (hr : r.Regular) (typeName : String) {change : Template → Template}
    (hchange : ∀ name t, t.StandsFor name → (change t).StandsFor name) :
    Regular (Dict.modify r typeName change) :=
  Dict.All.modify hr typeName hchange

theorem setDefaultConfig_regular (hr : r.Regular) (typeName : String) {config : Dict Json}
    (hconfig : config.Normal) : (r.setDefaultConfig typeName config).Regular :=
  modify_regular hr typeName fun _ _ ht => ⟨ht.typeName, hconfig, ht.parameters⟩

theorem setDefaultParameters_regular (hr : r.Regular) (typeName : String)
    {parameters : ParameterSet} (hparameters : parameters.Settled) :
    (r.setDefaultParameters typeName parameters).Regular :=
  modify_regular hr typeName fun _ _ ht => ⟨ht.typeName, ht.config, hparameters⟩

theorem parallelConfig_normal : parallelConfig.Normal := by
  intro e he
  have hmem := Dict.mem_of_mem_ofList he
  simp only [List.mem_cons, List.not_mem_nil, or_false] at hmem
  rcases hmem with rfl | rfl <;> rfl

theorem repeaterConfig_normal : repeaterConfig.Normal := by
  intro e he
  have hmem := Dict.mem_of_mem_ofList he
  simp only [List.mem_cons, List.not_mem_nil, or_false] at hmem
  rcases hmem with rfl | rfl <;> rfl

theorem waitParameters_settled : waitParameters.Settled := by
  intro e he
  obtain rfl := List.mem_singleton.mp (Dict.mem_of_mem_ofList he)
  refine ⟨by simp, fun v hv => ?_⟩
  obtain rfl := Option.some.inj hv
  exact ⟨by decide, rfl⟩

theorem goToParameters_settled : goToParameters.Settled := by
  intro e he
  obtain rfl := List.mem_singleton.mp (Dict.mem_of_mem_ofList he)
  refine ⟨by simp, fun v hv => ?_⟩
  obtain rfl := Option.some.inj hv
  exact ⟨by decide, rfl⟩

/-- The built-in types can all be written down. -/
theorem standard_regular : standard.Regular :=
  setDefaultParameters_regular (setDefaultParameters_regular (setDefaultConfig_regular
    (setDefaultConfig_regular (registerAll_regular empty_regular builtInTypes) "Parallel"
      parallelConfig_normal) "Repeater" repeaterConfig_normal) "Wait" waitParameters_settled)
    "GoTo" goToParameters_settled

end Registry

namespace Loading.Describes

variable {registry : Registry} {r : Record} {spec : NodeSpec}

theorem unique {s t : NodeSpec} (hs : Describes registry r s) (ht : Describes registry r t) :
    s = t := by
  obtain ⟨a, ha, rfl⟩ := hs
  obtain ⟨b, hb, rfl⟩ := ht
  rw [Option.some.inj (ha.symm.trans hb)]

theorem settled (h : Describes registry r spec) (hreg : registry.Regular) (hr : r.Settled) :
    spec.Settled := by
  obtain ⟨fresh, hfresh, rfl⟩ := h
  obtain ⟨t, ht, rfl⟩ := Option.map_eq_some_iff.mp hfresh
  exact ((hreg r.typeName t ht).settled r.id).applyTo hr

/-- The node is described by its own record, whatever children it has. -/
theorem ofSpec (h : Describes registry r spec) (hreg : registry.Regular)
    (children : List String) : Describes registry (.ofSpec spec children) spec := by
  obtain ⟨fresh, hfresh, rfl⟩ := h
  obtain ⟨t, ht, rfl⟩ := Option.map_eq_some_iff.mp hfresh
  have htype : (Record.ofSpec (r.applyTo (t.instantiate r.id)) children).typeName = r.typeName :=
    (hreg r.typeName t ht).typeName
  refine ⟨t.instantiate r.id, ?_, (Record.applyTo_ofSpec _ _ _).symm⟩
  rw [htype]
  exact hfresh

end Loading.Describes

end BehaviorTree
