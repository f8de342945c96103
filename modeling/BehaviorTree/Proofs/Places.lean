import BehaviorTree.Proofs.ActivePath
import BehaviorTree.Proofs.Chronicle
import BehaviorTree.Proofs.Leftovers

/-!
Places below a node. A node is reached from above by one way at most, and what goes on beside that
way goes on outside of its subtree. So what ticks of the node keep is kept by the ticks of every
node above it, as long as events elsewhere do not matter to it.
-/
namespace BehaviorTree

variable {σ : Type}

namespace Forest

/-- The way from a node down to another one, by the places of children. -/
inductive Way (f : Forest) : NodeKey → List ℕ → NodeKey → Prop
  | here (k : NodeKey) : Way f k [] k
  | down {k c m : NodeKey} {i : ℕ} {way : List ℕ} (hc : (f.children k)[i]? = some c)
      (rest : Way f c way m) : Way f k (i :: way) m

variable {f g : Forest} {k m : NodeKey} {way place : List ℕ} {p : Plan} {a : Progress}

theorem Way.eq_of_nil (h : f.Way k [] m) : m = k := by
  cases h
  rfl

theorem Way.nodeAt (h : f.Way k way m) (place : List ℕ) :
    f.nodeAt k (way ++ place) = f.nodeAt m place := by
  induction h with
  | here k => rfl
  | down hc _ ih =>
    rw [List.cons_append, Forest.nodeAt, hc]
    exact ih

theorem SameButStates.keeps_way (hsame : f.SameButStates g) (h : f.Way k way m) :
    g.Way k way m := by
  induction h with
  | here k => exact .here k
  | down hc _ ih =>
    rw [← hsame.children] at hc
    exact .down hc ih

namespace Sound

variable (hs : f.Sound)
include hs

theorem mem_subtree_of_way (h : f.Way k way m) : m ∈ f.subtree k := by
  induction h with
  | here k => exact List.mem_cons_self
  | down hc _ ih => exact hs.subtree_trans (hs.child_mem_subtree (List.mem_of_getElem? hc)) ih

/-- A way that goes anywhere does not come back. -/
theorem ne_of_way {i : ℕ} (h : f.Way k (i :: way) m) : m ≠ k := by
  rintro rfl
  cases h with
  | down hc rest =>
    exact hs.not_mem_subtree_child (List.mem_of_getElem? hc) (hs.mem_subtree_of_way rest)

/-- Every node of a subtree can be reached from its root. -/
theorem exists_way (h : m ∈ f.subtree k) : ∃ way, f.Way k way m := by
  induction k using hs.induction_below with
  | step k ih =>
    rcases hs.mem_subtree_iff.mp h with rfl | ⟨c, hc, hm⟩
    · exact ⟨[], .here m⟩
    · obtain ⟨i, hi⟩ := List.mem_iff_getElem?.mp hc
      obtain ⟨way, hway⟩ := ih c hc hm
      exact ⟨i :: way, .down hi hway⟩

theorem nodeAt_mem_subtree (k : NodeKey) (place : List ℕ) : f.nodeAt k place ∈ f.subtree k := by
  induction place generalizing k with
  | nil => exact List.mem_cons_self
  | cons i place ih =>
    rw [nodeAt]
    cases hc : (f.children k)[i]? with
    | none => exact List.mem_cons_self
    | some c =>
      exact hs.subtree_trans (hs.child_mem_subtree (List.mem_of_getElem? hc)) (ih c)

/-- What stands beside the way to a node does not stand in its subtree. -/
theorem nodeAt_not_mem_subtree (h : f.Way k way m) (hplace : ¬ way <+: place) :
    f.nodeAt k place ∉ f.subtree m := by
  induction h generalizing place with
  | here k => exact absurd List.nil_prefix hplace
  | @down k c m i way hc rest ih =>
    have hm : m ∈ f.subtree c := hs.mem_subtree_of_way rest
    have hchild : c ∈ f.children k := List.mem_of_getElem? hc
    have habove : k ∉ f.subtree m := fun hk =>
      hs.not_mem_subtree_child hchild (hs.subtree_trans hm hk)
    cases place with
    | nil => exact habove
    | cons j place =>
      rw [nodeAt]
      cases hd : (f.children k)[j]? with
      | none => exact habove
      | some d =>
        by_cases hj : i = j
        · subst hj
          obtain rfl : c = d := Option.some.inj (hc.symm.trans hd)
          apply ih
          intro hprefix
          exact hplace (List.cons_prefix_cons.mpr ⟨rfl, hprefix⟩)
        · have hne : d ≠ c := (hs.ne_of_places hc hd hj).symm
          intro hin
          exact hs.not_mem_subtree_of_siblings (List.mem_of_getElem? hd) hchild hne
            (hs.nodeAt_mem_subtree d place) (hs.subtree_trans hm hin)

end Sound

/-- The subtree at the end of a way. -/
theorem Holds.along (h : f.Holds k p a) (hway : f.Way k way m) :
    ∃ q b, p.at? way = some q ∧ a.at? way = some b ∧ f.Holds m q b := by
  induction hway generalizing p a with
  | here k => exact ⟨p, a, rfl, rfl, h⟩
  | @down k c m i way hc _ ih =>
    obtain ⟨spec, plans⟩ := p
    obtain ⟨state, children⟩ := a
    obtain ⟨q, b, hq, hb, hchild⟩ := h.child hc
    obtain ⟨q', b', hq', hb', hholds⟩ := ih hchild
    refine ⟨q', b', ?_, ?_, hholds⟩
    · rw [Plan.at?, Plan.children, hq, Option.bind_some, hq']
    · rw [Progress.at?, Progress.children, hb, Option.bind_some, hb']

/-- The subtree of a node within that of a node above it. -/
theorem Holds.at?_above {q : Plan} {b : Progress} (h : f.Holds k p a) (hm : f.Holds m q b)
    (hway : f.Way k way m) : p.at? way = some q ∧ a.at? way = some b := by
  obtain ⟨q', b', hq, hb, hholds⟩ := h.along hway
  rw [hq, hb, ← hm.plan, ← hm.progress]
  exact ⟨hholds.plan.symm, hholds.progress.symm⟩

theorem Holds.exists_above (h : f.Holds m p a) (hm : m ∈ f.subtree k) :
    ∃ q b, f.Holds k q b := by
  have hk : k < f.size := by
    rcases h.sound.mem_subtree.mp hm with rfl | habove
    · obtain ⟨node, hnode⟩ := h.sound.exists_node_of_plan? h.plan
      exact lt_size_of_node? hnode
    · exact h.sound.isAbove_lt_size habove
  obtain ⟨node, hnode⟩ := Forest.exists_node hk
  obtain ⟨plans, hplan, -⟩ := h.sound.exists_plan hnode
  obtain ⟨b, hb⟩ := Holds.exists_progress h.sound hplan
  exact ⟨_, b, hb⟩

/-- The same subtree after run states have changed. -/
theorem Holds.exists_after (h : f.Holds k p a) (hsame : f.SameButStates g) :
    ∃ b, g.Holds k p b := by
  have hsound : g.Sound := h.sound.of_same_links hsame.children hsame.parent?
  exact exists_progress hsound ((h.sound.plan?_congr hsame k).trans h.plan)

/-- A tick from above, seen at a node: its subtree before and after stands at its place. -/
theorem Sound.exists_tick_at (hs : f.Sound) {node : Node} (hnode : f.node? m = some node)
    (hm : m ∈ f.subtree k) (ex : Executor σ) (w : World σ) :
    ∃ p a plans b c way, f.Holds k p a ∧ f.Holds m (.node node.spec plans) b ∧ f.Way k way m ∧
      p.at? way = some (.node node.spec plans) ∧ a.at? way = some b ∧
      (p.tick ex a w).2.1.at? way = some c ∧
      (f.tick ex k w).2.1.Holds m (.node node.spec plans) c := by
  obtain ⟨plans, hplan, -⟩ := hs.exists_plan hnode
  obtain ⟨b, hholds⟩ := Holds.exists_progress hs hplan
  obtain ⟨p, a, habove⟩ := hholds.exists_above hm
  obtain ⟨way, hway⟩ := hs.exists_way hm
  obtain ⟨hq, hb⟩ := habove.at?_above hholds hway
  have hsame := tick_sameButStates f ex k w
  obtain ⟨c, hafter⟩ := hholds.exists_after hsame
  obtain ⟨-, hc⟩ := (habove.tick ex w).at?_above hafter (hsame.keeps_way hway)
  exact ⟨p, a, plans, b, c, way, habove, hholds, hway, hq, hb, hc, hafter⟩

/-- A tick leaves the states outside of its subtree as they are. -/
theorem Sound.runState_tick_of_not_mem (hs : f.Sound) (hm : m ∉ f.subtree k) (ex : Executor σ)
    (w : World σ) : (f.tick ex k w).2.1.runState m = f.runState m := by
  unfold tick
  split
  · next p a _ _ =>
    have hnode := hs.node?_store (SameButStates.refl f) hm (p.tick ex a w).2.1
    exact congrArg (fun n => (n.map Node.state).getD .fresh) hnode
  · rfl

end Forest

/-- What neither the children nor the code undo holds after the whole routine. -/
theorem Routine.run_world {L : World σ → Prop} {ex : Executor σ} {spec : NodeSpec}
    {steps : List (Stepper σ)}
    (hsteps : ∀ step ∈ steps, ∀ a w, L w → L (step a w).2.2)
    (hcode : ∀ ticks w, L w → L (spec.execute ex ticks w).2)
    (hboard : ∀ w board, L w → L { w with board }) (r : Routine) {o : Ongoing σ}
    (h : L o.world) : L (r.run ex spec steps o).2.world := by
  induction r generalizing o with
  | finish status => exact h
  | tickChild j next ih =>
    apply ih
    split
    · next step child hstep _ => exact hsteps step (List.mem_of_getElem? hstep) child o.world h
    · exact h
  | resetChild j next ih => exact ih (o := o.resetChild j) h
  | setCursor j next ih => exact ih (o := { o with cursor := j }) h
  | setCounter count next ih => exact ih (o := { o with counter := count }) h
  | runCode ticks next ih => exact ih _ (o := { o with world := _ }) (hcode ticks o.world h)
  | readBoard next ih => exact ih _ h
  | editBoard edit next ih => exact ih (o := { o with world := _ }) (hboard o.world _ h)

/-- Code is noted when it is run, and nothing else is. -/
theorem NodeSpec.execute_noting (ex : Executor σ) (spec : NodeSpec) (node : NodeKey) (ticks : ℕ)
    (w : World (σ × Chronicle)) :
    (spec.execute (ex.noting node) ticks w).2.memory.2 =
      if spec.activeCode?.isSome then .asked node ticks :: w.memory.2 else w.memory.2 := by
  unfold NodeSpec.execute
  split
  · next hcode => rw [hcode]; rfl
  · next code hcode => rw [hcode]; rfl

theorem Progress.at?_reset {a b : Progress} {place : List ℕ} (h : a.at? place = some b) :
    a.reset.at? place = some b.reset := by
  induction place generalizing a with
  | nil =>
    obtain rfl := Option.some.inj h
    rfl
  | cons i place ih =>
    obtain ⟨c, hc, hcb⟩ := Option.bind_eq_some_iff.mp h
    rw [Progress.at?, Progress.children_reset, List.getElem?_map, hc]
    exact ih hcb

namespace Plan

variable {ex : Executor σ}

/-- A tick of a subtree adds events of its own nodes only. -/
theorem chronicle_notes {L : Chronicle → Prop} (p : Plan) {name : List ℕ → NodeKey}
    (hL : ∀ event log, (∃ place, event.node = name place) → L log → L (event :: log))
    (a : Progress) {w : World (σ × Chronicle)} (h : L w.memory.2) :
    L (p.chronicle ex name a w).2.2.memory.2 := by
  induction p generalizing name a w with
  | node spec plans ih =>
    obtain ⟨state, children⟩ := a
    rw [chronicle_node]
    apply hL _ _ ⟨[], rfl⟩
    refine Routine.run_world (L := fun w : World (σ × Chronicle) => L w.memory.2) ?_ ?_
      (fun _ _ h => h) _ (o := ⟨state.cursor, state.counter, children, _⟩) (hL _ _ ⟨[], rfl⟩ h)
    · intro step hstep b v hv
      obtain ⟨i, hi⟩ := List.mem_iff_getElem?.mp hstep
      rw [getElem?_chronicleFrom] at hi
      obtain ⟨q, hq, rfl⟩ := Option.map_eq_some_iff.mp hi
      refine ih q (List.mem_of_getElem? hq) (fun event log hevent => hL event log ?_) b hv
      obtain ⟨place, hplace⟩ := hevent
      exact ⟨_, hplace⟩
    · intro ticks v hv
      rw [NodeSpec.execute_noting]
      split
      · exact hL _ _ ⟨[], rfl⟩ hv
      · exact hv

def AtPlace (I : Progress → Chronicle → Prop) (place : List ℕ) (a : Progress) (log : Chronicle) :
    Prop :=
  ∃ b, a.at? place = some b ∧ I b log

variable {I : Progress → Chronicle → Prop} {spec : NodeSpec} {plans : List Plan}
  {name : List ℕ → NodeKey}

theorem AtPlace.reset (hreset : ∀ {b log}, I b log → I b.reset log) {place : List ℕ} {a : Progress}
    {log : Chronicle} (h : AtPlace I place a log) : AtPlace I place a.reset log := by
  obtain ⟨b, hb, hI⟩ := h
  exact ⟨b.reset, Progress.at?_reset hb, hreset hI⟩

/-- What is kept at a place below the child at an index is kept while the node is ticked, if the
child keeps it and what is noted for the node and for the other children does not matter to it. -/
theorem keptFor_child {q : Plan} {i : ℕ} {place : List ℕ} (hq : plans[i]? = some q)
    (hreset : ∀ {b log}, I b log → I b.reset log)
    (hchild : ∀ {c w}, AtPlace I place c w.memory.2 →
      let x := q.chronicle ex (fun rest => name (i :: rest)) c w
      AtPlace I place x.2.1 x.2.2.memory.2)
    (hown : ∀ {b log} ticks, I b log → I b (.asked (name []) ticks :: log))
    (hothers : ∀ {b log event j rest}, j ≠ i → j < plans.length → event.node = name (j :: rest) →
      I b log → I b (event :: log)) :
    KeptFor (fun c w => AtPlace I place c w.memory.2) (ex.noting (name [])) spec
      (chronicleFrom ex plans name 0) i where
  tick {step} hstep {c w} h := by
    rw [getElem?_chronicleFrom, hq, Nat.zero_add] at hstep
    obtain rfl := Option.some.inj hstep
    exact hchild h
  reset h := h.reset hreset
  others {j step} hj hstep {c w} h d := by
    obtain ⟨b, hb, hI⟩ := h
    rw [getElem?_chronicleFrom, Nat.zero_add] at hstep
    obtain ⟨r, hr, rfl⟩ := Option.map_eq_some_iff.mp hstep
    refine ⟨b, hb, chronicle_notes r (fun event log hevent => ?_) d hI⟩
    obtain ⟨rest, hrest⟩ := hevent
    exact hothers hj (List.getElem?_eq_some_iff.mp hr).1 hrest
  code {c w} h ticks := by
    obtain ⟨b, hb, hI⟩ := h
    refine ⟨b, hb, ?_⟩
    rw [NodeSpec.execute_noting]
    split
    · exact hown ticks hI
    · exact hI
  board h _ := h

/-- What holds at a place holds there after the tick of a node above it. -/
theorem AtPlace.step {other : Executor (σ × Chronicle)} {steps : List (Stepper (σ × Chronicle))}
    {i : ℕ} {place : List ℕ} {a : Progress} {w : World (σ × Chronicle)}
    (h : AtPlace I (i :: place) a w.memory.2)
    (hkept : KeptFor (fun c w => AtPlace I place c w.memory.2) other spec steps i) :
    let x := spec.step other steps a w
    AtPlace I (i :: place) x.2.1 x.2.2.memory.2 := by
  obtain ⟨state, children⟩ := a
  obtain ⟨b, hb, hI⟩ := h
  obtain ⟨c, hc, hcb⟩ := Option.bind_eq_some_iff.mp hb
  obtain ⟨d, hd, b', hb', hI'⟩ := hkept.step (s := state) (w := w) hc ⟨b, hcb, hI⟩
  exact ⟨b', Option.bind_eq_some_iff.mpr ⟨d, hd, hb'⟩, hI'⟩

/-- What every tick of the subtree at a place keeps, every tick of the whole keeps, if what is noted
outside of that subtree does not matter to it. -/
theorem chronicle_keeps {O : NodeKey → Prop}
    (hreset : ∀ {b log}, I b log → I b.reset log)
    (houtside : ∀ {b log event}, O event.node → I b log → I b (event :: log))
    {p q : Plan} {place : List ℕ} (hq : p.at? place = some q)
    (htick : ∀ {b w}, I b w.memory.2 →
      let x := q.chronicle ex (fun rest => name (place ++ rest)) b w
      I x.2.1 x.2.2.memory.2)
    (hname : ∀ {other}, ¬ place <+: other → O (name other)) {a : Progress}
    {w : World (σ × Chronicle)} (h : AtPlace I place a w.memory.2) :
    let x := p.chronicle ex name a w
    AtPlace I place x.2.1 x.2.2.memory.2 := by
  induction place generalizing p name a w with
  | nil =>
    obtain rfl := Option.some.inj hq
    obtain ⟨b, hb, hI⟩ := h
    obtain rfl := Option.some.inj hb
    exact ⟨_, rfl, htick hI⟩
  | cons i place ih =>
    obtain ⟨spec, plans⟩ := p
    obtain ⟨r, hr, hrq⟩ := Option.bind_eq_some_iff.mp hq
    have hroot : O (name []) := hname (by simp)
    have hkept : KeptFor (fun c w => AtPlace I place c w.memory.2) (ex.noting (name [])) spec
        (chronicleFrom ex plans name 0) i := by
      refine keptFor_child hr hreset (fun hc => ?_) (fun _ => houtside hroot) ?_
      · refine ih hrq htick (fun {other} hother => hname fun hprefix => ?_) hc
        exact hother (List.cons_prefix_cons.mp hprefix).2
      · intro b log event j rest hj _ hevent
        apply houtside
        rw [hevent]
        exact hname fun hprefix => hj (List.cons_prefix_cons.mp hprefix).1.symm
    obtain ⟨b, hb, hI⟩ := h
    have hbegun : AtPlace I (i :: place) a (w.note (.began (name []) a)).memory.2 :=
      ⟨b, hb, houtside hroot hI⟩
    obtain ⟨c, hc, hended⟩ := hbegun.step hkept
    rw [chronicle_node]
    exact ⟨c, hc, houtside hroot hended⟩

end Plan

end BehaviorTree
