import BehaviorTree.Proofs.Observation

/-!
Subtrees that no one can tell apart. Two subtrees are interchangeable if their progresses can be
matched such that ticks and resets keep them matched, and matched ticks come to the same status and
leave the same world, whatever the executor. Putting one in the place of the other is then seen
neither by the nodes above, which reach their children by ticks and resets only, nor by the host.
-/
namespace BehaviorTree

variable {σ : Type} {p q : Plan} {a b : Progress} {R : Progress → Progress → Prop}

namespace Plan

/-- Progresses of two subtrees that are matched stay matched and look the same meanwhile. -/
structure Matching (p q : Plan) (R : Progress → Progress → Prop) : Prop where
  reset : ∀ {a b}, R a b → R a.reset b.reset
  tick : ∀ {σ : Type} (ex : Executor σ) {a b}, R a b → ∀ w,
    SameOutcome R Eq (p.tick ex a w) (q.tick ex b w)

/-- Two subtrees that cannot be told apart from here on. -/
def Bisimilar (p q : Plan) (a b : Progress) : Prop := ∃ R, p.Matching q R ∧ R a b

/-- Two subtrees that cannot be told apart when they have not begun. -/
def Interchangeable (p q : Plan) : Prop := p.Bisimilar q p.fresh q.fresh

namespace Bisimilar

theorem refl (p : Plan) (a : Progress) : p.Bisimilar p a a := by
  refine ⟨Eq, ⟨fun h => congrArg Progress.reset h, ?_⟩, rfl⟩
  rintro σ ex a _ rfl w
  exact ⟨rfl, rfl, rfl⟩

theorem reset (h : p.Bisimilar q a b) : p.Bisimilar q a.reset b.reset := by
  obtain ⟨R, hmatching, hab⟩ := h
  exact ⟨R, hmatching, hmatching.reset hab⟩

/-- A tick of either subtree comes to the same and leaves them as alike. -/
theorem tick (h : p.Bisimilar q a b) (ex : Executor σ) (w : World σ) :
    SameOutcome (p.Bisimilar q) Eq (p.tick ex a w) (q.tick ex b w) := by
  obtain ⟨R, hmatching, hab⟩ := h
  have hout := hmatching.tick ex hab w
  exact ⟨hout.status, ⟨R, hmatching, hout.progress⟩, hout.world⟩

end Bisimilar

def ChildrenBisimilar (ps qs : List Plan) (i : ℕ) (a b : Progress) : Prop :=
  ∃ p q, ps[i]? = some p ∧ qs[i]? = some q ∧ p.Bisimilar q a b

/-- Children that cannot be told apart go on so when they are ticked. -/
theorem ChildrenBisimilar.inStep {ps qs : List Plan} (hlen : ps.length = qs.length)
    (ex : Executor σ) :
    InStep (ChildrenBisimilar ps qs) Eq (steppers ex ps) (steppers ex qs) where
  length := by simp [steppers_eq_map, hlen]
  tick {i s t} hs ht a b w v hab hw := by
    obtain ⟨p, q, hp, hq, hpq⟩ := hab
    rw [steppers_eq_map, List.getElem?_map] at hs ht
    rw [hp, Option.map_some] at hs
    rw [hq, Option.map_some] at ht
    obtain rfl := Option.some.inj hs
    obtain rfl := Option.some.inj ht
    subst hw
    have hout := hpq.tick ex w
    exact ⟨hout.status, ⟨p, q, hp, hq, hout.progress⟩, hout.world⟩
  reset := by
    rintro i a b ⟨p, q, hp, hq, hpq⟩
    exact ⟨p, q, hp, hq, hpq.reset⟩

/-- Nodes with the same words whose children cannot be told apart match. -/
theorem matching_node (spec : NodeSpec) {ps qs : List Plan} (hlen : ps.length = qs.length) :
    Matching (.node spec ps) (.node spec qs) (SameNode (ChildrenBisimilar ps qs)) where
  reset hab :=
    hab.reset fun h => (ChildrenBisimilar.inStep hlen (Executor.null (σ := Unit))).reset h
  tick ex _ _ hab _ :=
    NodeSpec.step_alike ex.mirrors_self spec (ChildrenBisimilar.inStep hlen ex) hab rfl

namespace Interchangeable

theorem refl (p : Plan) : p.Interchangeable p := Bisimilar.refl p p.fresh

/-- A node does not tell its children from others that are interchangeable with them. -/
theorem node (spec : NodeSpec) {ps qs : List Plan} (h : List.Forall₂ Interchangeable ps qs) :
    Interchangeable (.node spec ps) (.node spec qs) := by
  have hlen := h.length_eq
  refine ⟨_, matching_node spec hlen, rfl, ?_, fun {i x y} hx hy => ?_⟩
  · simp [fresh, Progress.children, freshAll_eq_map, hlen]
  · simp only [fresh, Progress.children, freshAll_eq_map, List.getElem?_map] at hx hy
    obtain ⟨p, hp, rfl⟩ := Option.map_eq_some_iff.mp hx
    obtain ⟨q, hq, rfl⟩ := Option.map_eq_some_iff.mp hy
    refine ⟨p, q, hp, hq, ?_⟩
    obtain ⟨hi, rfl⟩ := List.getElem?_eq_some_iff.mp hp
    obtain ⟨hj, rfl⟩ := List.getElem?_eq_some_iff.mp hq
    exact h.get hi hj

/-- One child may be replaced whatever stands beside it and above it. -/
theorem inside (spec : NodeSpec) (before after : List Plan) (h : p.Interchangeable q) :
    Interchangeable (.node spec (before ++ p :: after)) (.node spec (before ++ q :: after)) := by
  have hself : ∀ ps : List Plan, List.Forall₂ Interchangeable ps ps := fun ps =>
    List.forall₂_same.mpr fun p _ => refl p
  exact node spec (List.rel_append (hself before) (.cons h (hself after)))

end Interchangeable

end Plan

namespace Forest

variable {f g : Forest} {k j : NodeKey}

/-- Whatever the host does with two such subtrees, it gets the same reports. -/
theorem drive_eq_of_bisimilar (ex : Executor σ) (hf : f.Holds k p a) (hg : g.Holds j q b)
    (h : p.Bisimilar q a b) (turns : List Turn) (w : World σ) :
    f.drive ex k turns w = g.drive ex j turns w := by
  induction turns generalizing f g a b w with
  | nil => rfl
  | cons turn turns ih =>
    cases turn with
    | reset =>
      have hreset := h.reset
      rw [Plan.reset_eq_fresh hf.fits, Plan.reset_eq_fresh hg.fits] at hreset
      exact ih hf.reset hg.reset hreset w
    | tick =>
      have hout := h.tick ex.recording (w.withLog [])
      have hnext := ih (hf.tick ex.recording (w.withLog [])) (hg.tick ex.recording (w.withLog []))
        hout.progress (q.tick ex.recording b (w.withLog [])).2.2.withoutLog
      simp only [drive, observe, hf.tick_eq, hg.tick_eq, hout.status, hout.world] at hnext ⊢
      rw [hnext]

/-- The host cannot tell interchangeable subtrees apart by ticking and resetting them. -/
theorem drive_eq_of_interchangeable (ex : Executor σ) (hf : f.Sound) (hg : g.Sound)
    (hp : f.plan? k = some p) (hq : g.plan? j = some q) (h : p.Interchangeable q)
    (turns : List Turn) (w : World σ) :
    (f.reset k).drive ex k turns w = (g.reset j).drive ex j turns w := by
  obtain ⟨a, hheld⟩ := Holds.exists_progress hf hp
  obtain ⟨b, hheld'⟩ := Holds.exists_progress hg hq
  exact drive_eq_of_bisimilar ex hheld.reset hheld'.reset h turns w

end Forest

end BehaviorTree
