import BehaviorTree.Proofs.Places

/-!
A leaf below a node. While a tree is ticked, one node is followed together with one leaf below it.
The way between them is kept tidy, and until the leaf is asked for, its counter is what it was when
the node began its tick, or zero. This asks for the leaf to be ticked through the node only.
-/
namespace BehaviorTree

variable {σ : Type} {α : Type}

def RunEnded (node : NodeKey) : List (Event α) → Prop
  | [] => False
  | .ended n status :: log =>
    if n = node then status.isTerminal = true else RunEnded node log
  | .began _ _ :: log => RunEnded node log
  | .asked _ _ :: log => RunEnded node log

/-- The leaf has not been asked for since the node began a tick with the snapshot. -/
def Awaited (node leaf : NodeKey) (snapshot : α) : List (Event α) → Prop
  | [] => False
  | .began n a :: log => n = node ∧ a = snapshot ∨ Awaited node leaf snapshot log
  | .asked n _ :: log => n ≠ leaf ∧ Awaited node leaf snapshot log
  | .ended _ _ :: log => Awaited node leaf snapshot log

def Progress.LeavesOver (way : List ℕ) (a : Progress) (count : ℕ) : Prop :=
  ∃ c, a.at? way = some c ∧ c.state.counter = count

section

variable (p : Plan) (way : List ℕ) (node leaf : NodeKey)

/-- The node has always begun with the way tidy, and not running if a run had ended; and the leaf
has always been asked for from its start, or from where the last snapshots had it. -/
def Explained : Chronicle → Prop
  | [] => True
  | .began n a :: log =>
    (n = node → p.Tidy way a ∧ (RunEnded node log → a.state.status ≠ .running)) ∧ Explained log
  | .asked n ticks :: log =>
    (n = leaf → ∀ a, Awaited node leaf a log → ticks = 0 ∨ a.LeavesOver way ticks) ∧ Explained log
  | .ended _ _ :: log => Explained log

structure LeafKept (c : Progress) (log : Chronicle) : Prop where
  counter : ∀ a, Awaited node leaf a log →
    c.state.counter = 0 ∨ a.LeavesOver way c.state.counter
  explained : Explained p way node leaf log

structure NodeKept (a : Progress) (log : Chronicle) : Prop where
  tidy : p.Tidy way a
  ended : RunEnded node log → a.state.status ≠ .running
  leaf : Plan.AtPlace (LeafKept p way node leaf) way a log

end

variable {p : Plan} {way : List ℕ} {node leaf : NodeKey} {a c : Progress} {log : Chronicle}
  {event : Event Progress}

theorem LeafKept.note (h : LeafKept p way node leaf c log) (hbegan : ∀ b, event ≠ .began node b)
    (hasked : ∀ t, event ≠ .asked leaf t) : LeafKept p way node leaf c (event :: log) := by
  cases event with
  | began n b =>
    have hn : n ≠ node := fun hn => hbegan b (hn ▸ rfl)
    refine ⟨fun a hawaited => h.counter a ?_, fun heq => absurd heq hn, h.explained⟩
    exact hawaited.resolve_left fun hsame => hn hsame.1
  | asked n t =>
    have hn : n ≠ leaf := fun hn => hasked t (hn ▸ rfl)
    exact ⟨fun a hawaited => h.counter a hawaited.2, fun heq => absurd heq hn, h.explained⟩
  | ended n s => exact ⟨h.counter, h.explained⟩

/-- What happens elsewhere changes nothing for the leaf. -/
theorem LeafKept.outside (h : LeafKept p way node leaf c log) (hnode : event.node ≠ node)
    (hleaf : event.node ≠ leaf) : LeafKept p way node leaf c (event :: log) := by
  apply h.note
  · rintro b rfl
    exact hnode rfl
  · rintro t rfl
    exact hleaf rfl

/-- A reset takes nothing from what is kept of the leaf. -/
theorem LeafKept.reset (h : LeafKept p way node leaf c log) :
    LeafKept p way node leaf c.reset log := by
  refine ⟨fun a _ => Or.inl ?_, h.explained⟩
  rw [Progress.state_reset, RunState.fresh]

/-- A leaf has its code run, if it has any, and counts the ticks on which it is running. -/
theorem NodeSpec.step_leaf {spec : NodeSpec} (hspec : spec.behavior = BuiltIn.script.behavior)
    (ex : Executor σ) (steps : List (Stepper σ)) (state : RunState) (children : List Progress)
    (w : World σ) :
    let x := spec.execute ex state.counter w
    let y := spec.step ex steps (.node state children) w
    spec.activeCode? = none ∧ y.2.1.state.counter = 0 ∧ y.2.2 = w ∨
      spec.activeCode?.isSome ∧ y.2.2 = x.2 := by
  simp only [NodeSpec.step, hspec, BuiltIn.behavior, BuiltIn.routine, runScript, NodeSpec.view]
  cases hcode : spec.activeCode? with
  | none => exact Or.inl ⟨rfl, rfl, rfl⟩
  | some code => exact Or.inr ⟨rfl, rfl⟩

/-- A tick of the leaf itself is explained by what has been kept of it. -/
theorem LeafKept.tick {q : Plan} (hspec : q.spec.behavior = BuiltIn.script.behavior)
    {name : List ℕ → NodeKey} (hname : name [] = leaf) (hne : leaf ≠ node) (ex : Executor σ)
    {w : World (σ × Chronicle)} (h : LeafKept p way node leaf c w.memory.2) :
    let x := q.chronicle ex name c w
    LeafKept p way node leaf x.2.1 x.2.2.memory.2 := by
  obtain ⟨spec, plans⟩ := q
  obtain ⟨state, children⟩ := c
  have hscript : spec.behavior = BuiltIn.script.behavior := hspec
  rw [Plan.chronicle_node, hname]
  have hended : ∀ {b log status}, LeafKept p way node leaf b log →
      LeafKept p way node leaf b (.ended leaf status :: log) := fun hb =>
    hb.note (fun _ heq => by cases heq) (fun _ heq => by cases heq)
  apply hended
  have hbegun : LeafKept p way node leaf (.node state children)
      (.began leaf (.node state children) :: w.memory.2) := by
    refine h.note (fun b heq => ?_) (fun _ heq => by cases heq)
    cases heq
    exact hne rfl
  rcases NodeSpec.step_leaf hscript (ex.noting leaf) (Plan.chronicleFrom ex plans name 0) state
      children
      (w.note (.began leaf (.node state children))) with ⟨-, hcounter, hworld⟩ | ⟨hcode, hworld⟩
  · rw [hworld]
    exact ⟨fun _ _ => Or.inl hcounter, hbegun.explained⟩
  · rw [hworld, NodeSpec.execute_noting, if_pos hcode]
    refine ⟨fun a hawaited => absurd rfl hawaited.1, fun _ a hawaited => ?_, hbegun.explained⟩
    exact hbegun.counter a hawaited

/-- What happens elsewhere changes nothing for the node. -/
theorem NodeKept.outside (h : NodeKept p way node leaf a log) (hnode : event.node ≠ node)
    (hleaf : event.node ≠ leaf) : NodeKept p way node leaf a (event :: log) := by
  obtain ⟨c, hc, hkept⟩ := h.leaf
  refine ⟨h.tidy, fun hended => h.ended ?_, c, hc, hkept.outside hnode hleaf⟩
  cases event with
  | began n b => exact hended
  | asked n t => exact hended
  | ended n s =>
    have hne : n ≠ node := hnode
    rw [RunEnded, if_neg hne] at hended
    exact hended

theorem NodeKept.reset (h : NodeKept p way node leaf a log) :
    NodeKept p way node leaf a.reset log := by
  refine ⟨h.tidy.reset, fun _ => ?_, h.leaf.reset LeafKept.reset⟩
  rw [Progress.state_reset]
  decide

theorem Plan.Tidy.script (h : p.Tidy way a) {q : Plan} (hq : p.at? way = some q) :
    q.spec.behavior = BuiltIn.script.behavior := by
  induction h with
  | leaf hspec _ =>
    obtain rfl := Option.some.inj hq
    exact hspec
  | step _ hp _ _ _ ih =>
    rw [Plan.at?, hp, Option.bind_some] at hq
    exact ih hq

inductive Progress.SameAlong : List ℕ → Progress → Progress → Prop
  | here {a b : Progress} (h : b.state = a.state) : SameAlong [] a b
  | down {a b c d : Progress} {i : ℕ} {way : List ℕ} (h : b.state = a.state)
      (hc : a.children[i]? = some c) (hd : b.children[i]? = some d) (rest : SameAlong way c d) :
      SameAlong (i :: way) a b

theorem Progress.SameAlong.state {b : Progress} (h : a.SameAlong way b) : b.state = a.state := by
  cases h <;> assumption

theorem Progress.SameAlong.tidy {b : Progress} (h : a.SameAlong way b) (htidy : p.Tidy way a) :
    p.Tidy way b := by
  induction h generalizing p with
  | here hstate =>
    cases htidy with
    | leaf hspec hcounter => exact .leaf hspec (hstate ▸ hcounter)
  | @down a b c d i way hstate hc hd rest ih =>
    cases htidy with
    | @step _ _ _ c' kind _ _ hspec hq hc' hagrees htidy =>
      obtain rfl : c' = c := Option.some.inj (hc'.symm.trans hc)
      refine .step hspec hq hd ?_ (ih htidy)
      rw [hstate, rest.state]
      exact hagrees

theorem Progress.SameAlong.at? {b : Progress} (h : a.SameAlong way b) (hc : a.at? way = some c) :
    ∃ d, b.at? way = some d ∧ d.state = c.state := by
  induction h with
  | here hstate =>
    obtain rfl := Option.some.inj hc
    exact ⟨_, rfl, hstate⟩
  | down _ ha hb _ ih =>
    rw [Progress.at?, ha, Option.bind_some] at hc
    obtain ⟨d, hd, hstate⟩ := ih hc
    exact ⟨d, Option.bind_eq_some_iff.mpr ⟨_, hb, hd⟩, hstate⟩

theorem NodeKept.congr {b : Progress} (hsame : a.SameAlong way b)
    (h : NodeKept p way node leaf a log) : NodeKept p way node leaf b log := by
  obtain ⟨c, hc, hcounter, hexplained⟩ := h.leaf
  obtain ⟨d, hd, hstate⟩ := hsame.at? hc
  refine ⟨hsame.tidy h.tidy, fun hended => ?_, d, hd, ?_, hexplained⟩
  · rw [hsame.state]
    exact h.ended hended
  · rw [hstate]
    exact hcounter

namespace Forest

variable {f g : Forest} {n k : NodeKey} {i : ℕ} {w : World (σ × Chronicle)}

/-- No place below a child is the node itself, and none beside the way is the leaf. -/
theorem Sound.nodeAt_outside (hs : f.Sound) (hway : f.Way n way leaf) {j : ℕ}
    (hj : j < (f.children n).length) {place : List ℕ} (hplace : ¬ way <+: j :: place) :
    f.nodeAt n (j :: place) ≠ n ∧ f.nodeAt n (j :: place) ≠ leaf := by
  have hchild : (f.children n)[j]? = some (f.children n)[j] := List.getElem?_eq_getElem hj
  constructor
  · intro heq
    have hmem := hs.nodeAt_mem_subtree (f.children n)[j] place
    have hname : f.nodeAt n (j :: place) = f.nodeAt (f.children n)[j] place := by
      rw [nodeAt, hchild]
    rw [← hname, heq] at hmem
    exact hs.not_mem_subtree_child (List.getElem_mem hj) hmem
  · intro heq
    apply hs.nodeAt_not_mem_subtree hway hplace
    rw [heq]
    exact List.mem_cons_self

/-- A tick of the child on the way keeps what is kept of the leaf. -/
theorem leafKept_child (hs : f.Sound) (hway : f.Way n (i :: way) leaf) (htidy : p.Tidy (i :: way) a)
    {q : Plan} (hq : p.children[i]? = some q) {ql : Plan} (hql : q.at? way = some ql)
    (ex : Executor σ)
    (h : Plan.AtPlace (LeafKept p (i :: way) n leaf) way c w.memory.2) :
    let x := q.chronicle ex (fun rest => f.nodeAt n (i :: rest)) c w
    Plan.AtPlace (LeafKept p (i :: way) n leaf) way x.2.1 x.2.2.memory.2 := by
  have hi : i < (f.children n).length := by
    cases hway with
    | down hc _ => exact (List.getElem?_eq_some_iff.mp hc).1
  refine Plan.chronicle_keeps (O := fun m => m ≠ n ∧ m ≠ leaf) LeafKept.reset
    (fun hout hkept => hkept.outside hout.1 hout.2) hql (fun hkept => ?_) (fun hother => ?_) h
  · have hscript := htidy.script (Option.bind_eq_some_iff.mpr ⟨q, hq, hql⟩)
    exact LeafKept.tick hscript (hway.nodeAt []) (hs.ne_of_way hway) ex hkept
  · apply hs.nodeAt_outside hway hi
    intro hprefix
    exact hother (List.cons_prefix_cons.mp hprefix).2

/-- While the node is ticked, what is kept of the leaf is kept. -/
theorem leafKept_step (hs : f.Sound) (hplan : f.plan? n = some p) (hway : f.Way n (i :: way) leaf)
    (htidy : p.Tidy (i :: way) a) (ex : Executor σ)
    (h : Plan.AtPlace (LeafKept p (i :: way) n leaf) (i :: way) a w.memory.2) :
    let x := p.spec.step (ex.noting n) (Plan.chronicleFrom ex p.children (f.nodeAt n) 0) a w
    Plan.AtPlace (LeafKept p (i :: way) n leaf) (i :: way) x.2.1 x.2.2.memory.2 := by
  obtain ⟨b, hholds⟩ := Holds.exists_progress hs hplan
  obtain ⟨ql, -, hleaf, -, -⟩ := hholds.along hway
  obtain ⟨q, hq, hql⟩ := Option.bind_eq_some_iff.mp hleaf
  have hlen : (f.children n).length = p.children.length := by
    obtain ⟨spec, plans⟩ := p
    obtain ⟨state, children⟩ := b
    rw [hholds.length_children]
    exact (Plan.fits_node_iff.mp hholds.fits).1.symm
  refine h.step (Plan.keptFor_child hq LeafKept.reset
    (leafKept_child hs hway htidy hq hql ex) ?_ ?_)
  · intro b log ticks hb
    refine hb.note (fun _ heq => by cases heq) fun t heq => ?_
    cases heq
    exact hs.ne_of_way hway rfl
  · intro b log event j rest hj hlt hevent hb
    have hplace : ¬ i :: way <+: j :: rest :=
      fun hprefix => hj (List.cons_prefix_cons.mp hprefix).1.symm
    have hout := hs.nodeAt_outside hway (hlen.symm ▸ hlt) hplace
    rw [← hevent] at hout
    exact hb.outside hout.1 hout.2

/-- A tick of the node keeps what is kept of it. -/
theorem nodeKept_tick (hs : f.Sound) (hplan : f.plan? n = some p) (hway : f.Way n (i :: way) leaf)
    (ex : Executor σ) (h : NodeKept p (i :: way) n leaf a w.memory.2) :
    let x := p.chronicle ex (f.nodeAt n) a w
    NodeKept p (i :: way) n leaf x.2.1 x.2.2.memory.2 := by
  have hbegun : Plan.AtPlace (LeafKept p (i :: way) n leaf) (i :: way) a
      (.began n a :: w.memory.2) := by
    obtain ⟨c, hc, hcounter, hexplained⟩ := h.leaf
    refine ⟨c, hc, fun b hawaited => ?_, fun _ => ⟨h.tidy, h.ended⟩, hexplained⟩
    rcases hawaited with ⟨-, rfl⟩ | hawaited
    · exact Or.inr ⟨c, hc, rfl⟩
    · exact hcounter b hawaited
  have hstep := leafKept_step hs hplan hway h.tidy ex (w := w.note (.began n a)) hbegun
  have htick := p.chronicle_eq_tick ex (f.nodeAt n) a w
  have htidy := h.tidy.tick ex w.withoutLog
  have hstatus := p.status_tick ex a w.withoutLog
  rw [← htick.progress] at htidy hstatus
  rw [← htick.status] at hstatus
  obtain ⟨spec, plans⟩ := p
  rw [Plan.chronicle_node] at htidy hstatus ⊢
  obtain ⟨c, hc, hkept⟩ := hstep
  refine ⟨htidy, fun hended hrunning => ?_, c, hc, ?_⟩
  · have hterminal : RunEnded n (.ended n _ :: _) := hended
    rw [RunEnded, if_pos rfl, ← hstatus, hrunning] at hterminal
    exact absurd hterminal (by decide)
  · exact hkept.note (fun _ heq => by cases heq) (fun _ heq => by cases heq)

/-- A change beside the way leaves the states on it as they are. -/
theorem Holds.sameAlong {q : Plan} {b : Progress} (hf : f.Holds n p a) (hg : g.Holds n q b)
    (hsame : f.SameButStates g) (hway : f.Way n way leaf)
    (hnodes : ∀ m, leaf ∈ f.subtree m → g.node? m = f.node? m) : a.SameAlong way b := by
  have hstate : ∀ {m : NodeKey} {p q : Plan} {a b : Progress}, f.Holds m p a → g.Holds m q b →
      leaf ∈ f.subtree m → b.state = a.state := by
    intro m p q a b hf hg hm
    rw [← hf.runState, ← hg.runState, Forest.runState, Forest.runState, hnodes m hm]
  induction hway generalizing p q a b with
  | here k => exact .here (hstate hf hg List.mem_cons_self)
  | @down k c m i way hc rest ih =>
    have hk := hstate hf hg (hf.sound.mem_subtree_of_way (.down hc rest))
    obtain ⟨spec, plans⟩ := p
    obtain ⟨state, children⟩ := a
    obtain ⟨spec', plans'⟩ := q
    obtain ⟨state', children'⟩ := b
    obtain ⟨q, a, -, ha, hfc⟩ := hf.child hc
    obtain ⟨q', b, -, hb, hgc⟩ := hg.child (by rwa [hsame.children])
    exact .down hk ha hb (ih hfc hgc hnodes hstate)

theorem nodeKept_outside (hs : f.Sound) (hway : f.Way n way leaf)
    (hout : event.node ∉ f.subtree n) (h : NodeKept p way n leaf a log) :
    NodeKept p way n leaf a (event :: log) := by
  apply h.outside
  · intro heq
    rw [heq] at hout
    exact hout List.mem_cons_self
  · intro heq
    rw [heq] at hout
    exact hout (hs.mem_subtree_of_way hway)

def Tracks (f : Forest) (p : Plan) (way : List ℕ) (n leaf : NodeKey) (log : Chronicle) : Prop :=
  ∃ a, f.Holds n p a ∧ NodeKept p way n leaf a log

/-- Nothing changes by what happens in a subtree without the leaf. -/
theorem Tracks.elsewhere (h : f.Tracks p way n leaf log) (hway : f.Way n way leaf)
    (hsame : f.SameButStates g) (hleaf : leaf ∉ f.subtree k)
    (hnodes : ∀ m, m ∉ f.subtree k → g.node? m = f.node? m) : g.Tracks p way n leaf log := by
  obtain ⟨a, hf, hkept⟩ := h
  obtain ⟨b, hg⟩ := hf.exists_after hsame
  refine ⟨b, hg, hkept.congr (hf.sameAlong hg hsame hway fun m hm => hnodes m ?_)⟩
  intro hmk
  exact hleaf (hf.sound.subtree_trans hmk hm)

/-- A tick of a node above keeps what is kept. -/
theorem Tracks.chronicle_above (h : f.Tracks p (i :: way) n leaf w.memory.2)
    (hway : f.Way n (i :: way) leaf) (hn : n ∈ f.subtree k) (ex : Executor σ) :
    (f.chronicle ex k w).1.Tracks p (i :: way) n leaf (f.chronicle ex k w).2.memory.2 := by
  obtain ⟨a, hf, hkept⟩ := h
  obtain ⟨q, b, hk⟩ := hf.exists_above hn
  obtain ⟨above, habove⟩ := hf.sound.exists_way hn
  obtain ⟨hp, ha⟩ := hk.at?_above hf habove
  have hname : (fun rest => f.nodeAt k (above ++ rest)) = f.nodeAt n := funext habove.nodeAt
  have hsame := chronicle_sameButStates ex f k w
  have hticked : Plan.AtPlace (NodeKept p (i :: way) n leaf) above
      (q.chronicle ex (f.nodeAt k) b w).2.1 (q.chronicle ex (f.nodeAt k) b w).2.2.memory.2 := by
    refine Plan.chronicle_keeps (O := fun m => m ∉ f.subtree n) NodeKept.reset
      (fun hout hkept => nodeKept_outside hf.sound hway hout hkept) hp (fun hkept => ?_)
      (fun hother => hf.sound.nodeAt_not_mem_subtree habove hother) ⟨a, ha, hkept⟩
    rw [hname]
    exact nodeKept_tick hf.sound hf.plan hway ex hkept
  obtain ⟨c, hc, hkept⟩ := hticked
  obtain ⟨d, hd⟩ := hf.exists_after hsame
  obtain ⟨-, hcd⟩ := (hk.chronicle ex w).at?_above hd (hsame.keeps_way habove)
  obtain rfl : c = d := Option.some.inj (hc.symm.trans hcd)
  refine ⟨c, hd, ?_⟩
  rw [hk.chronicle_eq]
  exact hkept

/-- What is kept is kept by a tick that reaches the leaf through the node, or not at all. -/
theorem Tracks.chronicle (h : f.Tracks p (i :: way) n leaf w.memory.2)
    (hway : f.Way n (i :: way) leaf) (hreach : leaf ∈ f.subtree k → n ∈ f.subtree k)
    (ex : Executor σ) :
    (f.chronicle ex k w).1.Tracks p (i :: way) n leaf (f.chronicle ex k w).2.memory.2 := by
  by_cases hn : n ∈ f.subtree k
  · exact h.chronicle_above hway hn ex
  · have hleaf : leaf ∉ f.subtree k := fun hleaf => hn (hreach hleaf)
    have hsame := chronicle_sameButStates ex f k w
    obtain ⟨a, hf, hkept⟩ := h
    cases hk : f.plan? k with
    | none =>
      simp only [Forest.chronicle, hk]
      exact ⟨a, hf, hkept⟩
    | some q =>
      obtain ⟨b, hholds⟩ := Holds.exists_progress hf.sound hk
      have hnoted : NodeKept p (i :: way) n leaf a
          (q.chronicle ex (f.nodeAt k) b w).2.2.memory.2 := by
        refine Plan.chronicle_notes q (fun event log hevent hkept => ?_) b hkept
        obtain ⟨place, hplace⟩ := hevent
        have hmem : event.node ∈ f.subtree k := hplace ▸ hf.sound.nodeAt_mem_subtree k place
        apply hkept.outside
        · intro heq
          exact hn (heq ▸ hmem)
        · intro heq
          exact hleaf (heq ▸ hmem)
      have htracks : f.Tracks p (i :: way) n leaf _ := ⟨a, hf, hnoted⟩
      rw [hholds.chronicle_eq] at hsame ⊢
      exact htracks.elsewhere hway hsame hleaf fun m hm => hf.sound.node?_store (.refl f) hm _

theorem Tracks.reset (h : f.Tracks p way n leaf log) (hway : f.Way n way leaf)
    (hreach : leaf ∈ f.subtree k → n ∈ f.subtree k) : (f.reset k).Tracks p way n leaf log := by
  have hsame := reset_sameButStates f k
  by_cases hn : n ∈ f.subtree k
  · obtain ⟨a, hf, hkept⟩ := h
    obtain ⟨q, b, hk⟩ := hf.exists_above hn
    obtain ⟨above, habove⟩ := hf.sound.exists_way hn
    obtain ⟨-, ha⟩ := hk.at?_above hf habove
    obtain ⟨d, hd⟩ := hf.exists_after hsame
    obtain ⟨-, hfresh⟩ := hk.reset.at?_above hd (hsame.keeps_way habove)
    have hreset := Progress.at?_reset ha
    rw [Plan.reset_eq_fresh hk.fits] at hreset
    obtain rfl : a.reset = d := Option.some.inj (hreset.symm.trans hfresh)
    exact ⟨a.reset, hd, hkept.reset⟩
  · refine h.elsewhere hway hsame (fun hleaf => hn (hreach hleaf)) fun m hm => ?_
    rw [node?_reset]
    simp only [if_neg hm]
    exact Option.map_id'

theorem Tracks.chronicleAll {keys : List NodeKey} (h : f.Tracks p (i :: way) n leaf w.memory.2)
    (hway : f.Way n (i :: way) leaf)
    (hreach : ∀ k ∈ keys, leaf ∈ f.subtree k → n ∈ f.subtree k) (ex : Executor σ) :
    (chronicleAll ex keys f w).1.Tracks p (i :: way) n leaf
      (Forest.chronicleAll ex keys f w).2.memory.2 := by
  induction keys generalizing f w with
  | nil => exact h
  | cons k rest ih =>
    have hsame := chronicle_sameButStates ex f k w
    have hrest : ∀ j ∈ rest, leaf ∈ (f.chronicle ex k w).1.subtree j →
        n ∈ (f.chronicle ex k w).1.subtree j := by
      intro j hj
      rw [hsame.subtree]
      exact hreach j (List.mem_cons_of_mem _ hj)
    exact ih (h.chronicle hway (hreach k List.mem_cons_self) ex) (hsame.keeps_way hway) hrest

theorem Tracks.resetAll {keys : List NodeKey} (h : f.Tracks p way n leaf log)
    (hway : f.Way n way leaf) (hreach : ∀ k ∈ keys, leaf ∈ f.subtree k → n ∈ f.subtree k) :
    (keys.foldl Forest.reset f).Tracks p way n leaf log := by
  induction keys generalizing f with
  | nil => exact h
  | cons k rest ih =>
    have hsame := reset_sameButStates f k
    refine ih (h.reset hway (hreach k List.mem_cons_self)) (hsame.keeps_way hway) ?_
    intro k hk
    rw [hsame.subtree]
    exact hreach k (List.mem_cons_of_mem _ hk)

end Forest

end BehaviorTree
