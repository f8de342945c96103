import BehaviorTree.Proofs.FreshRuns
import BehaviorTree.Proofs.StartingOver

/-!
The life of a node. It comes into the forest as if it had not begun, and behaves in the same way
for good. Only resets and ticks from above move its run state. So what holds of a fresh state and
is kept by every tick of such a node holds of the node whenever one looks.
-/
namespace BehaviorTree.Forest

open Relation

variable {σ : Type} {f g : Forest} {k : NodeKey} {kind : BuiltIn}

theorem Step.revision_or (h : Step f g) :
    Revision f g ∨ (∃ (σ : Type) (ex : Executor σ) (t : NodeKey) (w : World σ),
      g = (f.tick ex t w).2.1) ∨ ∃ j, g = f.reset j := by
  cases h with
  | add spec => exact Or.inl (.link (.add spec))
  | adopt hp hc => exact Or.inl (.link (.adopt hp hc))
  | detach p c => exact Or.inl (.link (.detach p c))
  | detachAll p => exact Or.inl (.link (.detachAll p))
  | edit j change hkind => exact Or.inl (.rewrite j change hkind)
  | tick ex t w => exact Or.inr (Or.inl ⟨_, ex, t, w, rfl⟩)
  | reset j => exact Or.inr (Or.inr ⟨j, rfl⟩)

theorem runState_of_none (hk : f.node? k = none) : f.runState k = .fresh := by
  rw [runState, hk]
  rfl

/-- A node that was not there before is new. -/
theorem Revision.fresh_of_new (hs : f.Sound) (h : Revision f g) (hk : f.node? k = none) :
    g.runState k = .fresh := by
  have hsame : ∀ {φ : NodeKey → Node → Node}, (∀ j, g.node? j = (f.node? j).map (φ j)) →
      g.runState k = .fresh := by
    intro φ hmap
    apply runState_of_none
    rw [hmap, hk, Option.map_none]
  cases h with
  | link h =>
    cases h with
    | add spec =>
      rw [runState, node?_add]
      split_ifs
      · rfl
      · exact runState_of_none hk
    | @adopt p c hp hc =>
      rcases adopt_forest f p c with heq | ⟨-, -, -, hlinked⟩
      · rw [heq]
        exact runState_of_none hk
      · rw [hlinked] at hsame ⊢
        exact hsame (node?_release_link hs p c)
    | detach p c =>
      by_cases hc : c ∈ f.children p
      · exact hsame (node?_detach hc)
      · rw [detach_of_not_mem hc]
        exact runState_of_none hk
    | detachAll p => exact hsame (node?_detachAll f p)
  | rewrite j change _ => exact hsame (node?_updateSpec f j change)

/-- Whatever node a revision leaves, it was of that kind before, and no further, or it is new. -/
theorem Revision.origin (hs : f.Sound) (h : Revision f g) (hk : g.IsKind k kind) :
    f.IsKind k kind ∧ g.runState k = f.runState k ∨
      f.node? k = none ∧ g.runState k = .fresh := by
  cases hn : f.node? k with
  | none => exact Or.inr ⟨rfl, h.fresh_of_new hs hn⟩
  | some n =>
    obtain ⟨⟨m, hm, hbehavior⟩, hstate⟩ := h.keeps hs ⟨n, hn, rfl⟩
    obtain ⟨m', hm', hkind⟩ := hk
    obtain rfl : m = m' := Option.some.inj (hm.symm.trans hm')
    exact Or.inl ⟨⟨n, hn, hbehavior.symm.trans hkind⟩, hstate⟩

/-- The kind of a node does not change by ticks and resets. -/
theorem SameButStates.isKind_iff (hsame : f.SameButStates g) :
    g.IsKind k kind ↔ f.IsKind k kind := by
  constructor
  · rintro ⟨m, hm, hkind⟩
    have hspec := hsame.spec? k
    rw [hm, Option.map_some] at hspec
    obtain ⟨n, hn, heq⟩ := Option.map_eq_some_iff.mp hspec.symm
    exact ⟨n, hn, heq ▸ hkind⟩
  · exact hsame.keeps_behavior

/-- What holds of a fresh state and is kept by every tick of such a node holds throughout. -/
theorem Reachable.state_of_kind {P : RunState → Prop} (hfresh : P .fresh)
    (htick : ∀ {σ : Type} (ex : Executor σ) (spec : NodeSpec) (plans : List Plan) (a : Progress)
      (w : World σ), spec.behavior = kind.behavior → P a.state →
        P ((Plan.node spec plans).tick ex a w).2.1.state)
    (hf : f.Reachable) (hk : f.IsKind k kind) : P (f.runState k) := by
  induction hf with
  | refl =>
    obtain ⟨n, hn, -⟩ := hk
    simp [node?, empty] at hn
  | @tail f g hreach hstep ih =>
    have hs : f.Sound := Reachable.sound hreach
    rcases hstep.revision_or with hrevision | ⟨_, ex, t, w, rfl⟩ | ⟨j, rfl⟩
    · rcases hrevision.origin hs hk with ⟨hbefore, hstate⟩ | ⟨-, hstate⟩
      · exact hstate ▸ ih hbefore
      · exact hstate ▸ hfresh
    · rw [(tick_sameButStates f ex t w).isKind_iff] at hk
      by_cases hkt : k ∈ f.subtree t
      · obtain ⟨n, hn, hspec⟩ := hk
        obtain ⟨p, a, plans, b, c, way, -, hholds, -, hq, hb, hc, hafter⟩ :=
          hs.exists_tick_at hn hkt ex w
        have hbegin : P b.state := hholds.runState ▸ ih ⟨n, hn, hspec⟩
        obtain ⟨d, hd, hP⟩ := Plan.tick_keeps_at (P := fun b => P b.state)
          (fun _ => by rwa [Progress.state_reset]) hq (fun hb => htick ex n.spec plans _ _ hspec hb)
          hb hbegin w
        obtain rfl : d = c := Option.some.inj (hd.symm.trans hc)
        rwa [hafter.runState]
      · rw [hs.runState_tick_of_not_mem hkt]
        exact ih hk
    · rw [(reset_sameButStates f j).isKind_iff] at hk
      rw [runState_reset]
      split_ifs
      · exact hfresh
      · exact ih hk

end BehaviorTree.Forest
