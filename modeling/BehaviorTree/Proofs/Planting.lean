import BehaviorTree.Loading
import BehaviorTree.Proofs.Adoption

/-!
The first pass of loading makes the nodes. Of the raw records those are usable that can be read,
are of a known type and do not repeat the id of an earlier usable one. Each of them becomes one
fresh node, in their order and behind all nodes that are there already; the others become nothing.
-/
namespace BehaviorTree.Loading

open Forest Relation

/-- The usable records after those whose ids have been seen. -/
def usable (registry : Registry) (seen : List String) : List Json → List Record
  | [] => []
  | raw :: rest =>
    match Record.read? raw with
    | none => usable registry seen rest
    | some record =>
      if record.id ∈ seen ∨ Dict.contains registry record.typeName = false then
        usable registry seen rest
      else record :: usable registry (seen ++ [record.id]) rest

/-- A node that is built by the registry and then written over by a record. -/
def Describes (registry : Registry) (record : Record) (spec : NodeSpec) : Prop :=
  ∃ fresh, registry.build? record.typeName record.id = some fresh ∧ spec = record.applyTo fresh

/-- New nodes of the kept records have been added to a forest and nothing else has changed. -/
structure Planted (registry : Registry) (f g : Forest) (kept : Kept) : Prop where
  keys : kept.map (·.2) = List.range' f.size kept.length
  size : g.size = f.size + kept.length
  old : ∀ k < f.size, g.node? k = f.node? k
  node : ∀ e ∈ kept, ∃ spec, Describes registry e.1 spec ∧
    g.node? e.2 = some ⟨spec, none, [], .fresh⟩
  ids : (kept.map (·.1.id)).Nodup
  run : ReflTransGen Step f g

variable {registry : Registry} {f g : Forest} {kept : Kept}

theorem find?_isSome {id : String} : (find? kept id).isSome = true ↔ id ∈ kept.map (·.1.id) := by
  simp [find?, Option.isSome_map, List.find?_isSome, List.mem_map]

/-- No node can be built of a type that the registry does not know. -/
theorem build?_eq_none {typeName id : String} :
    registry.build? typeName id = none ↔ Dict.contains registry typeName = false := by
  simp [Registry.build?, Dict.contains]

theorem Describes.contains {record : Record} {spec : NodeSpec}
    (h : Describes registry record spec) : Dict.contains registry record.typeName = true := by
  obtain ⟨fresh, hfresh, -⟩ := h
  have hsome : registry.build? record.typeName record.id ≠ none := by
    rw [hfresh]
    exact Option.some_ne_none fresh
  exact eq_true_of_ne_false fun htype => hsome (build?_eq_none.mpr htype)

/-- Where every raw record can be read, is of a known type and has an id of its own, all of them are
usable. -/
theorem usable_eq {raws : List Json} {records : List Record} {seen : List String}
    (hread : raws.map Record.read? = records.map some)
    (htypes : ∀ r ∈ records, Dict.contains registry r.typeName = true)
    (hids : (records.map (·.id)).Nodup) (hseen : ∀ r ∈ records, r.id ∉ seen) :
    usable registry seen raws = records := by
  induction records generalizing raws seen with
  | nil =>
    rw [List.map_nil, List.map_eq_nil_iff] at hread
    rw [hread]
    rfl
  | cons r rest ih =>
    cases raws with
    | nil => simp at hread
    | cons raw later =>
      obtain ⟨hraw, hlater⟩ := List.cons.inj hread
      obtain ⟨hfirst, hothers⟩ := List.nodup_cons.mp hids
      obtain ⟨htype, hrest⟩ := List.forall_mem_cons.mp htypes
      have hnew : ¬ (r.id ∈ seen ∨ Dict.contains registry r.typeName = false) :=
        not_or.mpr ⟨hseen r List.mem_cons_self, by simp [htype]⟩
      have hunseen : ∀ s ∈ rest, s.id ∉ seen ++ [r.id] := by
        intro s hs hmem
        rcases List.mem_append.mp hmem with hmem | hmem
        · exact hseen s (List.mem_cons_of_mem _ hs) hmem
        · exact hfirst (List.mem_map.mpr ⟨s, hs, List.mem_singleton.mp hmem⟩)
      simp only [usable, hraw, if_neg hnew]
      rw [ih hlater hrest hothers hunseen]

/-- A raw record either is passed over or adds one node. -/
theorem create_cases (registry : Registry) (g : Forest) (kept : Kept) (raw : Json) :
    create registry (g, kept) raw = (g, kept) ∧
      (∀ rest, usable registry (kept.map (·.1.id)) (raw :: rest) =
        usable registry (kept.map (·.1.id)) rest) ∨
    ∃ record spec, Describes registry record spec ∧ record.id ∉ kept.map (·.1.id) ∧
      create registry (g, kept) raw = ((g.add spec).2, kept ++ [(record, g.size)]) ∧
      ∀ rest, usable registry (kept.map (·.1.id)) (raw :: rest) =
        record :: usable registry (kept.map (·.1.id) ++ [record.id]) rest := by
  cases hread : Record.read? raw with
  | none => exact Or.inl ⟨by simp [create, hread], fun rest => by simp [usable, hread]⟩
  | some record =>
    by_cases hseen : record.id ∈ kept.map (·.1.id)
    · have hfind := find?_isSome.mpr hseen
      refine Or.inl ⟨by simp [create, hread, hfind], fun rest => ?_⟩
      simp only [usable, hread, hseen, true_or, if_true]
    · have hfind : ¬ (find? kept record.id).isSome = true := fun h => hseen (find?_isSome.mp h)
      cases hbuild : registry.build? record.typeName record.id with
      | none =>
        have htype := build?_eq_none.mp hbuild
        refine Or.inl ⟨by simp [create, hread, hfind, hbuild], fun rest => ?_⟩
        simp only [usable, hread, htype, or_true, if_true]
      | some fresh =>
        have htype : ¬ Dict.contains registry record.typeName = false := fun h => by
          simp [build?_eq_none.mpr h] at hbuild
        refine Or.inr ⟨record, record.applyTo fresh, ⟨fresh, hbuild, rfl⟩, hseen, ?_, ?_⟩
        · simp only [create, hread, hfind, hbuild]
          rfl
        · intro rest
          have hkeep : ¬ (record.id ∈ kept.map (·.1.id) ∨
              Dict.contains registry record.typeName = false) := not_or.mpr ⟨hseen, htype⟩
          simp only [usable, hread, if_neg hkeep]

theorem Planted.nil (registry : Registry) (f : Forest) : Planted registry f f [] where
  keys := rfl
  size := rfl
  old _ _ := rfl
  node := by simp
  ids := List.nodup_nil
  run := ReflTransGen.refl

theorem Planted.add (h : Planted registry f g kept) {record : Record} {spec : NodeSpec}
    (hspec : Describes registry record spec) (hnew : record.id ∉ kept.map (·.1.id)) :
    Planted registry f (g.add spec).2 (kept ++ [(record, g.size)]) where
  keys := by
    simp only [List.map_append, List.map_cons, List.map_nil, List.length_append,
      List.length_singleton, h.keys, h.size, List.range'_concat, Nat.one_mul]
  size := by
    simp only [size_add, h.size, List.length_append, List.length_singleton]
    omega
  old k hk := by
    have hne : k ≠ g.size := fun heq => by
      have := h.size
      omega
    rw [node?_add, if_neg hne, h.old k hk]
  node e he := by
    rcases List.mem_append.mp he with he | he
    · obtain ⟨old, hold, hnode⟩ := h.node e he
      have hne : e.2 ≠ g.size := fun heq => by
        have hnone : g.node? g.size = none := node?_eq_none_iff.mpr (Nat.le_refl _)
        rw [heq, hnone] at hnode
        simp at hnode
      exact ⟨old, hold, by rw [node?_add, if_neg hne, hnode]⟩
    · rw [List.mem_singleton.mp he]
      exact ⟨spec, hspec, by rw [node?_add, if_pos rfl]⟩
  ids := by
    simp only [List.map_append, List.map_cons, List.map_nil]
    refine List.nodup_append.mpr ⟨h.ids, List.nodup_singleton _, ?_⟩
    intro a ha b hb hab
    exact hnew (List.mem_singleton.mp hb ▸ hab ▸ ha)
  run := h.run.tail (Step.add spec)

/-- The first pass keeps exactly the usable records and makes their nodes. -/
theorem foldl_create (raws : List Json) (h : Planted registry f g kept) :
    Planted registry f (raws.foldl (create registry) (g, kept)).1
        (raws.foldl (create registry) (g, kept)).2 ∧
      (raws.foldl (create registry) (g, kept)).2.map (·.1) =
        kept.map (·.1) ++ usable registry (kept.map (·.1.id)) raws := by
  induction raws generalizing g kept with
  | nil => simpa [usable] using h
  | cons raw rest ih =>
    rw [List.foldl_cons]
    rcases create_cases registry g kept raw with
      ⟨hcreate, husable⟩ | ⟨record, spec, hspec, hnew, hcreate, husable⟩
    · rw [hcreate, husable]
      exact ih h
    · have hrest := ih (h.add hspec hnew)
      rw [hcreate, husable]
      simpa only [List.map_append, List.map_cons, List.map_nil, List.append_assoc,
        List.singleton_append] using hrest

end BehaviorTree.Loading
