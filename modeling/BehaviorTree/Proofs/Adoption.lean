import BehaviorTree.Proofs.Editing

/-!
Attaching a node either happens as a whole or not at all. The answer follows from five questions
asked in a fixed order, a refusal leaves the forest as it was, and a success changes the new
parent, the former one and the child, nothing else. Since the room for children is one of the
questions, a node whose limit stays as it is while it has children never has too many of them.
-/
namespace BehaviorTree

theorem NodeSpec.capacity_congr {s t : NodeSpec} (hkind : s.SameKind t)
    (hsame : t.config.get? "maxChildren" = s.config.get? "maxChildren") :
    t.capacity = s.capacity := by
  simp only [NodeSpec.capacity, NodeSpec.category, hkind.behavior, hsame]

namespace Forest

open Relation

variable {f g : Forest} {p c k : NodeKey}

def IsFull (f : Forest) (p : NodeKey) : Prop :=
  ∃ limit, f.capacity p = .atMost limit ∧ limit ≤ (f.children p).length

/-- A node is refused for want of room exactly where there is a limit that has been reached. -/
theorem refusal?_eq_tooManyNodes {limit : ℕ} :
    f.refusal? p c = some (.tooManyNodes limit) ↔
      f.capacity p = .atMost limit ∧ limit ≤ (f.children p).length := by
  simp only [refusal?, refusal?.cycle?]
  cases f.capacity p with
  | unlimited => split_ifs <;> simp
  | atMost n =>
    by_cases hn : n ≤ (f.children p).length
    · simp only [hn, if_true, Option.some.injEq, AttachError.tooManyNodes.injEq,
        Capacity.atMost.injEq]
      exact ⟨fun h => ⟨h, h ▸ hn⟩, fun h => h.1⟩
    · simp only [hn, if_false, Capacity.atMost.injEq]
      refine ⟨fun h => ?_, fun h => absurd (h.1 ▸ h.2) hn⟩
      split_ifs at h
      simp at h

/-- Where there is room, only the ancestors of a node are refused. -/
theorem refusal?_of_not_isFull (hroom : ¬ f.IsFull p) :
    f.refusal? p c = if f.isAncestor c p then some .wouldCreateCycle else none := by
  simp only [refusal?, refusal?.cycle?]
  cases hcap : f.capacity p with
  | unlimited => rfl
  | atMost n =>
    have hn : ¬ n ≤ (f.children p).length := fun hn => hroom ⟨n, hcap, hn⟩
    simp [hn]

theorem refusal?_ne_selfReference : f.refusal? p c ≠ some .selfReference := by
  by_cases hfull : f.IsFull p
  · obtain ⟨limit, hlimit⟩ := hfull
    simp [refusal?_eq_tooManyNodes.mpr hlimit]
  · rw [refusal?_of_not_isFull hfull]
    split_ifs <;> simp

theorem not_isFull_of_refusal? (h : f.refusal? p c = none) : ¬ f.IsFull p := by
  rintro ⟨limit, hlimit⟩
  simp [refusal?_eq_tooManyNodes.mpr hlimit] at h

/-- All that attaching a node comes to: the answers in the order of the questions, and what becomes
of the nodes. -/
structure Adoption (f : Forest) (p c : NodeKey) : Prop where
  self_iff : (f.adopt p c).1 = .error .selfReference ↔ p = c
  /-- A child stays where it is, whether or not there is room. -/
  child : p ≠ c → c ∈ f.children p → f.adopt p c = (.ok (), f)
  full_iff : p ≠ c → c ∉ f.children p → ∀ limit,
    ((f.adopt p c).1 = .error (.tooManyNodes limit) ↔
      f.capacity p = .atMost limit ∧ limit ≤ (f.children p).length)
  cycle_iff : p ≠ c → c ∉ f.children p → ¬ f.IsFull p →
    ((f.adopt p c).1 = .error .wouldCreateCycle ↔ f.IsAbove c p)
  ok : p ≠ c → c ∉ f.children p → ¬ f.IsFull p → ¬ f.IsAbove c p → (f.adopt p c).1 = .ok ()
  unchanged : ∀ e, (f.adopt p c).1 = .error e → (f.adopt p c).2 = f
  attached : (f.adopt p c).1 = .ok () → c ∉ f.children p → ∀ k,
    (f.adopt p c).2.node? k =
      (f.node? k).map fun n =>
        { n with
          parent := if k = c then some p else n.parent
          children :=
            (if f.parent? c = some k then n.children.filter (· ≠ c) else n.children) ++
              (if k = p then [c] else []) }

/-- A refused node changes nothing. -/
theorem adopt_of_refusal? {e : AttachError} (hpc : p ≠ c) (hc : c ∉ f.children p)
    (h : f.refusal? p c = some e) : f.adopt p c = (.error e, f) := by
  simp [adopt, hpc, hc, h]

/-- A node that is not refused is taken from where it was and put last. -/
theorem adopt_of_no_refusal? (hpc : p ≠ c) (hc : c ∉ f.children p)
    (h : f.refusal? p c = none) : f.adopt p c = (.ok (), (f.release c).link p c) := by
  simp [adopt, hpc, hc, h]

/-- Taking over a child changes the child, its new parent and the parent that it had. -/
theorem node?_release_link (hs : f.Sound) (p c k : NodeKey) :
    ((f.release c).link p c).node? k =
      (f.node? k).map fun n =>
        { n with
          parent := if k = c then some p else n.parent
          children :=
            (if f.parent? c = some k then n.children.filter (· ≠ c) else n.children) ++
              (if k = p then [c] else []) } := by
  rw [node?_link, node?_release hs]
  cases f.node? k with
  | none => rfl
  | some n =>
    simp only [Option.map_some]
    split_ifs <;> simp

/-- In a sound forest the answers come in the order of the questions, and only an attached child
changes anything. -/
theorem adoption_of_sound (hs : f.Sound) (p c : NodeKey) : f.Adoption p c := by
  have hrefused : ∀ {e}, p ≠ c → c ∉ f.children p →
      ((f.adopt p c).1 = .error e ↔ f.refusal? p c = some e) := by
    intro e hpc hc
    cases h : f.refusal? p c with
    | none => simp [adopt_of_no_refusal? hpc hc h]
    | some d => simp [adopt_of_refusal? hpc hc h]
  have hcycle : p ≠ c → c ∉ f.children p → ¬ f.IsFull p →
      ((f.adopt p c).1 = .error .wouldCreateCycle ↔ f.IsAbove c p) := by
    intro hpc hc hroom
    rw [hrefused hpc hc, refusal?_of_not_isFull hroom, ← hs.isAncestor_iff]
    split_ifs with ha <;> simp [ha]
  refine {
    self_iff := ⟨fun h => ?_, fun h => by simp [adopt, h]⟩
    child := fun hpc hc => by simp [adopt, hpc, hc]
    full_iff := fun hpc hc limit => (hrefused hpc hc).trans refusal?_eq_tooManyNodes
    cycle_iff := hcycle
    ok := fun hpc hc hroom hnot => ?_
    unchanged := fun e h => ?_
    attached := fun h hc k => ?_
  }
  · by_contra hpc
    by_cases hc : c ∈ f.children p
    · simp [adopt, hpc, hc] at h
    · exact refusal?_ne_selfReference ((hrefused hpc hc).mp h)
  · have hnone : f.refusal? p c = none := by
      have hfalse : ¬ f.isAncestor c p = true := fun ha => hnot (hs.isAncestor_iff.mp ha)
      rw [refusal?_of_not_isFull hroom, if_neg hfalse]
    rw [adopt_of_no_refusal? hpc hc hnone]
  · rcases adopt_cases f p c with
      ⟨-, hadopt⟩ | ⟨-, -, hadopt⟩ | ⟨-, -, d, -, hadopt⟩ | ⟨-, -, -, hadopt⟩
    · rw [hadopt]
    · rw [hadopt]
    · rw [hadopt]
    · simp [hadopt] at h
  · rcases adopt_cases f p c with
      ⟨-, hadopt⟩ | ⟨-, hmem, -⟩ | ⟨-, -, d, -, hadopt⟩ | ⟨-, -, -, hadopt⟩
    · simp [hadopt] at h
    · exact absurd hmem hc
    · simp [hadopt] at h
    · rw [hadopt]
      exact node?_release_link hs p c k

/-- A node that is full stays as it is. -/
theorem adopt_of_isFull (hs : f.Sound) (hpc : p ≠ c) (hc : c ∉ f.children p)
    (hfull : f.IsFull p) : (f.adopt p c).2 = f := by
  obtain ⟨limit, hlimit⟩ := hfull
  have hadoption := adoption_of_sound hs p c
  exact hadoption.unchanged _ ((hadoption.full_iff hpc hc limit).mpr hlimit)

def maxChildren? (f : Forest) (k : NodeKey) : Option Json :=
  (f.node? k).bind fun n => n.spec.config.get? "maxChildren"

/-- A step that leaves the entry of a node alone, unless the node has no children. -/
def KeepsLimit (k : NodeKey) (f g : Forest) : Prop :=
  f.children k ≠ [] → g.maxChildren? k = f.maxChildren? k

def ReachableKeeping (k : NodeKey) : Forest → Prop :=
  ReflTransGen (fun f g => Step f g ∧ KeepsLimit k f g) empty

def WithinCapacity (f : Forest) (k : NodeKey) : Prop :=
  ∀ limit, f.capacity k = .atMost limit → (f.children k).length ≤ limit

theorem ReachableKeeping.reachable (hf : ReachableKeeping k f) : f.Reachable :=
  ReflTransGen.mono (fun _ _ h => h.1) empty f hf

theorem withinCapacity_of_nil (h : f.children k = []) : f.WithinCapacity k := by
  intro limit _
  simp [h]

theorem WithinCapacity.mono (hf : f.WithinCapacity k) (hcap : g.capacity k = f.capacity k)
    (hlen : (g.children k).length ≤ (f.children k).length) : g.WithinCapacity k :=
  fun limit hlimit => hlen.trans (hf limit (hcap ▸ hlimit))

theorem capacity_of_spec? (h : (g.node? k).map (·.spec) = (f.node? k).map (·.spec)) :
    g.capacity k = f.capacity k := by
  have hcap := congrArg (Option.map NodeSpec.capacity) h
  simp only [Option.map_map] at hcap
  exact congrArg (Option.getD · (.atMost 0)) hcap

/-- An operation that changes links only. -/
theorem capacity_of_node? {φ : NodeKey → Node → Node}
    (hmap : ∀ k, g.node? k = (f.node? k).map (φ k)) (hspec : ∀ k n, (φ k n).spec = n.spec) :
    g.capacity k = f.capacity k := by
  refine capacity_of_spec? ?_
  rw [hmap, Option.map_map]
  exact congrArg (Option.map · (f.node? k)) (funext (hspec k))

theorem withinCapacity_add (hf : f.WithinCapacity k) (spec : NodeSpec) :
    (f.add spec).2.WithinCapacity k := by
  by_cases hk : k = f.size
  · refine withinCapacity_of_nil ?_
    rw [children_add, hk, children_of_size_le (Nat.le_refl f.size)]
  · refine hf.mono (capacity_of_spec? ?_) (Nat.le_of_eq ?_)
    · rw [node?_add, if_neg hk]
    · rw [children_add]

/-- The children of every node after a child has been attached somewhere. -/
theorem children_of_adopt (hs : f.Sound) {p c : NodeKey} (hp : p < f.size)
    (h : (f.adopt p c).1 = .ok ()) (hc : c ∉ f.children p) :
    (f.adopt p c).2.children k =
      (if f.parent? c = some k then (f.children k).filter (· ≠ c) else f.children k) ++
        (if k = p then [c] else []) := by
  rw [children_of_node? ((adoption_of_sound hs p c).attached h hc)]
  cases hk : f.node? k with
  | none =>
    have hkp : k ≠ p := by
      rintro rfl
      exact Nat.not_lt.mpr (node?_eq_none_iff.mp hk) hp
    simp [children, hk, hkp]
  | some n => simp [children_eq hk]

/-- The new child comes last, behind all others. -/
theorem children_adopt_self (hs : f.Sound) {p c : NodeKey} (hp : p < f.size)
    (h : (f.adopt p c).1 = .ok ()) (hc : c ∉ f.children p) :
    (f.adopt p c).2.children p = f.children p ++ [c] := by
  have hparent : f.parent? c ≠ some p := fun hparent => hc (hs.mem_children.mpr hparent)
  rw [children_of_adopt hs hp h hc, if_neg hparent, if_pos rfl]

theorem withinCapacity_adopt (hs : f.Sound) (hf : f.WithinCapacity k) {p c : NodeKey}
    (hp : p < f.size) : (f.adopt p c).2.WithinCapacity k := by
  rcases adopt_forest f p c with h | ⟨hpc, hc, hnone, -⟩
  · rwa [h]
  · have hok : (f.adopt p c).1 = .ok () := by rw [adopt_of_no_refusal? hpc hc hnone]
    have hcap : (f.adopt p c).2.capacity k = f.capacity k :=
      capacity_of_node? ((adoption_of_sound hs p c).attached hok hc) fun _ _ => rfl
    by_cases hkp : k = p
    · -- the new child is the one for which there was room
      subst hkp
      intro limit hlimit
      have hroom : ¬ limit ≤ (f.children k).length := fun hle =>
        not_isFull_of_refusal? hnone ⟨limit, hcap ▸ hlimit, hle⟩
      rw [children_adopt_self hs hp hok hc, List.length_append, List.length_singleton]
      omega
    · refine hf.mono hcap ?_
      rw [children_of_adopt hs hp hok hc, if_neg hkp, List.append_nil]
      split_ifs
      · exact List.length_filter_le _ _
      · exact Nat.le_refl _

theorem withinCapacity_detach (hf : f.WithinCapacity k) (p c : NodeKey) :
    (f.detach p c).2.WithinCapacity k := by
  by_cases hc : c ∈ f.children p
  · refine hf.mono (capacity_of_node? (node?_detach hc) fun _ _ => rfl) ?_
    rw [children_detach hc]
    split_ifs with hkp
    · exact hkp ▸ List.length_filter_le _ _
    · exact Nat.le_refl _
  · rwa [detach_of_not_mem hc]

theorem withinCapacity_detachAll (hf : f.WithinCapacity k) (p : NodeKey) :
    (f.detachAll p).WithinCapacity k := by
  refine hf.mono (capacity_of_node? (node?_detachAll f p) fun _ _ => rfl) ?_
  rw [children_of_node? (node?_detachAll f p)]
  cases hk : f.node? k with
  | none => simp [children, hk]
  | some n =>
    by_cases hkp : k = p
    · simp [hkp]
    · simp [hkp, children_eq hk]

theorem withinCapacity_edit (hf : f.WithinCapacity k) {j : NodeKey} {change : NodeSpec → NodeSpec}
    (hkind : ∀ s : NodeSpec, s.SameKind (change s))
    (hkeep : KeepsLimit k f (f.updateSpec j change)) :
    (f.updateSpec j change).WithinCapacity k := by
  by_cases hnil : f.children k = []
  · exact withinCapacity_of_nil (by rw [children_updateSpec, hnil])
  · refine hf.mono ?_ (Nat.le_of_eq (by rw [children_updateSpec]))
    have hsame := hkeep hnil
    simp only [maxChildren?, capacity, node?_updateSpec, Option.bind_map, Option.map_map] at hsame ⊢
    cases hk : f.node? k with
    | none => rfl
    | some n =>
      simp only [hk, Option.bind_some, Function.comp_apply] at hsame
      simp only [Option.map_some, Function.comp_apply, Option.getD_some]
      by_cases hkj : k = j
      · simp only [hkj, if_true] at hsame ⊢
        exact NodeSpec.capacity_congr (hkind n.spec) hsame
      · simp [hkj]

theorem SameButStates.withinCapacity (hfg : f.SameButStates g) (hf : f.WithinCapacity k) :
    g.WithinCapacity k :=
  hf.mono (capacity_of_spec? (hfg.spec? k)) (Nat.le_of_eq (by rw [hfg.children]))

/-- No step that keeps the limit of a node brings the node beyond it. -/
theorem step_withinCapacity (hstep : Step f g) (hkeep : KeepsLimit k f g) (hs : f.Sound)
    (hf : f.WithinCapacity k) : g.WithinCapacity k := by
  cases hstep with
  | add spec => exact withinCapacity_add hf spec
  | adopt hp _ => exact withinCapacity_adopt hs hf hp
  | detach p c => exact withinCapacity_detach hf p c
  | detachAll p => exact withinCapacity_detachAll hf p
  | edit j change hkind => exact withinCapacity_edit hf hkind hkeep
  | tick ex j world => exact (tick_sameButStates f ex j world).withinCapacity hf
  | reset j => exact (reset_sameButStates f j).withinCapacity hf

theorem ReachableKeeping.withinCapacity (hf : ReachableKeeping k f) : f.WithinCapacity k := by
  induction hf with
  | refl => exact withinCapacity_of_nil (by simp [children, node?, empty])
  | tail hrun hstep ih =>
    exact step_withinCapacity hstep.1 hstep.2 (ReachableKeeping.reachable hrun).sound ih

theorem adoption_and_limits :
    (∀ f : Forest, f.Reachable → ∀ p c, p < f.size → c < f.size → f.Adoption p c) ∧
      ∀ (f : Forest) (k : NodeKey), ReachableKeeping k f → f.WithinCapacity k :=
  ⟨fun _ hf p c _ _ => adoption_of_sound hf.sound p c, fun _ _ hf => hf.withinCapacity⟩

def strict : Forest :=
  strangers.updateSpec 0 fun s =>
    { s with config := s.config.insert "maxChildren" (Json.int 1) }

theorem strict_reachableKeeping : ReachableKeeping 0 (strict.adopt 0 2).2 := by
  have hnew : ReachableKeeping 0 strangers :=
    ((ReflTransGen.refl.tail ⟨Step.add _, by unfold KeepsLimit; decide⟩).tail
      ⟨Step.add _, by unfold KeepsLimit; decide⟩).tail ⟨Step.add _, by unfold KeepsLimit; decide⟩
  have hstrict : ReachableKeeping 0 strict :=
    hnew.tail ⟨Step.edit 0 _ fun s => ⟨rfl, rfl⟩, by unfold KeepsLimit; decide⟩
  have hadopt : Step strict (strict.adopt 0 2).2 := Step.adopt (by decide) (by decide)
  exact hstrict.tail ⟨hadopt, by unfold KeepsLimit; decide⟩

/-- The strict sequence is full with one child and refuses the next one. -/
theorem adoption_and_limits_strict :
    ReachableKeeping 0 (strict.adopt 0 2).2 ∧
      ((strict.adopt 0 2).2.adopt 0 1).1 = .error (.tooManyNodes 1) ∧
      (strict.adopt 0 2).2.Adoption 0 1 ∧ (strict.adopt 0 2).2.WithinCapacity 0 := by
  have hkeep := strict_reachableKeeping
  refine ⟨hkeep, by rfl, ?_, adoption_and_limits.2 _ 0 hkeep⟩
  exact adoption_and_limits.1 _ hkeep.reachable 0 1 (by decide) (by decide)

end Forest

end BehaviorTree
