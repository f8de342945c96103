import BehaviorTree.Proofs.Places

/-!
How often a pass visits a node. Behaviors other than the repeater tick each of their children once
at most, and run their code once at most, while they are ticked once. A node is reached from above
by one way only. So whatever ticks a pass makes by itself, each of them visits a node once at most,
and it does so only if the node stands in the subtree that is ticked.
-/
namespace BehaviorTree

variable {σ : Type} {α : Type}

inductive Use where
  | child (index : ℕ)
  | code
  deriving DecidableEq

/-- Whether a routine makes a certain use at most so many times, whatever it is answered. -/
def Routine.AtMost (use : Use) : ℕ → Routine → Prop
  | _, finish _ => True
  | n, tickChild i next => (use = .child i → 0 < n) ∧
    ∀ status, (next status).AtMost use (if use = .child i then n - 1 else n)
  | n, runCode _ next => (use = .code → 0 < n) ∧
    ∀ status, (next status).AtMost use (if use = .code then n - 1 else n)
  | n, resetChild _ next => next.AtMost use n
  | n, setCursor _ next => next.AtMost use n
  | n, setCounter _ next => next.AtMost use n
  | n, readBoard next => ∀ board, (next board).AtMost use n
  | n, editBoard _ next => next.AtMost use n

theorem le_add_of_spent {start mid stop n : ℕ} {spent : Prop} [Decidable spent]
    (hpos : spent → 0 < n) (hmid : mid ≤ start + if spent then 1 else 0)
    (hstop : stop ≤ mid + if spent then n - 1 else n) : stop ≤ start + n := by
  by_cases h : spent
  · have hn := hpos h
    rw [if_pos h] at hmid hstop
    omega
  · rw [if_neg h] at hmid hstop
    omega

/-- While a routine is carried out, what grows by one with a certain use and not otherwise grows as
often as the routine makes that use. -/
theorem Routine.AtMost.run {use : Use} {n : ℕ} {r : Routine} {Q : World σ → ℕ} {ex : Executor σ}
    {spec : NodeSpec} {steps : List (Stepper σ)} (h : r.AtMost use n)
    (hchild : ∀ i step, steps[i]? = some step → ∀ a w,
      Q (step a w).2.2 ≤ Q w + if use = .child i then 1 else 0)
    (hcode : ∀ ticks w, Q (spec.execute ex ticks w).2 ≤ Q w + if use = .code then 1 else 0)
    (hboard : ∀ w board, Q { w with board } = Q w) (o : Ongoing σ) :
    Q (r.run ex spec steps o).2.world ≤ Q o.world + n := by
  induction r generalizing n o with
  | finish status => exact Nat.le_add_right _ _
  | tickChild i next ih =>
    have htick : Q (o.tickChild steps i).2.world ≤ Q o.world + if use = .child i then 1 else 0 := by
      unfold Ongoing.tickChild
      split
      · next step child hstep _ => exact hchild i step hstep child o.world
      · exact Nat.le_add_right _ _
    exact le_add_of_spent h.1 htick (ih _ (h.2 _) _)
  | runCode ticks next ih => exact le_add_of_spent h.1 (hcode ticks o.world) (ih _ (h.2 _) _)
  | resetChild i next ih => exact ih h (o.resetChild i)
  | setCursor i next ih => exact ih h { o with cursor := i }
  | setCounter count next ih => exact ih h { o with counter := count }
  | readBoard next ih => exact ih _ (h _) o
  | editBoard edit next ih =>
    have hsame := hboard o.world (edit o.world.board)
    have hrest := ih h { o with world := { o.world with board := edit o.world.board } }
    exact hrest.trans_eq (congrArg (· + n) hsame)

def Behavior.AtMostOnce (b : Behavior) : Prop := ∀ view use, (b.routine view).AtMost use 1

/-- What is left for the children from the next one on. -/
theorem pos_of_later {use : Use} {n index : ℕ} (h : ∀ i, use = .child i → index ≤ i → 0 < n) :
    ∀ i, use = .child i → index + 1 ≤ i → 0 < if use = .child index then n - 1 else n := by
  intro i huse hle
  have hne : use ≠ .child index := by
    rw [huse]
    intro heq
    have hi : i = index := Use.child.inj heq
    omega
  rw [if_neg hne]
  exact h i huse (by omega)

theorem roundFrom_atMost {use : Use} {n : ℕ} (stop done : Status) (left index : ℕ)
    (h : ∀ i, use = .child i → index ≤ i → 0 < n) :
    (roundFrom stop done left index).AtMost use n := by
  induction left generalizing n index with
  | zero => trivial
  | succ left ih =>
    refine ⟨fun huse => h index huse le_rfl, fun status => ?_⟩
    dsimp only
    by_cases hstop : status = stop
    · rw [if_pos hstop]
      trivial
    by_cases hrunning : status = .running
    · rw [if_neg hstop, if_pos hrunning]
      trivial
    rw [if_neg hstop, if_neg hrunning]
    exact ih (index + 1) (pos_of_later h)

theorem fanOutFrom_atMost {use : Use} {n : ℕ} (decide : ℕ → ℕ → Status)
    (left index successes failures : ℕ) (h : ∀ i, use = .child i → index ≤ i → 0 < n) :
    (fanOutFrom decide left index successes failures).AtMost use n := by
  induction left generalizing n index successes failures with
  | zero => trivial
  | succ left ih =>
    exact ⟨fun huse => h index huse le_rfl, fun _ => ih (index + 1) _ _ (pos_of_later h)⟩

/-- What a decorator does that ticks its child and then finishes. -/
theorem tickFirst_atMost (use : Use) {next : Status → Routine}
    (h : ∀ status n, (next status).AtMost use n) : (Routine.tickChild 0 next).AtMost use 1 :=
  ⟨fun _ => Nat.one_pos, fun status => h status _⟩

theorem withChild_atMost {use : Use} {n : ℕ} {r : Routine} (view : NodeView) (alone : Status)
    (h : r.AtMost use n) : (withChild view alone r).AtMost use n := by
  unfold withChild
  split
  · trivial
  · exact h

theorem untilStatus_atMost (use : Use) (goal : Status) : (untilStatus goal).AtMost use 1 := by
  refine tickFirst_atMost use fun status n => ?_
  split
  · trivial
  split <;> trivial

/-- Every kind but the repeater uses its children and its code once at most. -/
theorem BuiltIn.atMostOnce {kind : BuiltIn} (h : kind ≠ .repeater) :
    kind.behavior.AtMostOnce := by
  intro view use
  have hround (stop done : Status) : (round stop done view).AtMost use 1 :=
    roundFrom_atMost _ _ _ _ fun _ _ _ => Nat.one_pos
  cases kind with
  | sequence => exact hround .failure .success
  | selector => exact hround .success .failure
  | parallel =>
    simp only [BuiltIn.behavior, BuiltIn.routine]
    split
    · trivial
    · exact fanOutFrom_atMost _ _ _ _ _ fun _ _ _ => Nat.one_pos
  | inverter => exact withChild_atMost _ _ (tickFirst_atMost use fun _ _ => trivial)
  | repeater => exact absurd rfl h
  | untilSuccess => exact withChild_atMost _ _ (untilStatus_atMost use .success)
  | untilFail => exact withChild_atMost _ _ (untilStatus_atMost use .failure)
  | start => exact withChild_atMost _ _ (tickFirst_atMost use fun _ _ => trivial)
  | script =>
    simp only [BuiltIn.behavior, BuiltIn.routine, runScript]
    split
    · trivial
    · exact ⟨fun _ => Nat.one_pos, fun _ => trivial⟩

namespace Event

def begins (node : NodeKey) : Event α → Bool
  | began k _ => k = node
  | asked .. | ended .. => false

def asks (node : NodeKey) : Event α → Bool
  | asked k _ => k = node
  | began .. | ended .. => false

def ticksOf (node : NodeKey) (log : List (Event α)) : ℕ := log.countP (begins node)

def requestsOf (node : NodeKey) (log : List (Event α)) : ℕ := log.countP (asks node)

def About (node : NodeKey) (counts : Event α → Bool) : Prop :=
  ∀ event, counts event = true → event.node = node

theorem about_begins (node : NodeKey) : About node (begins (α := α) node) := by
  intro event h
  cases event with
  | began k a => exact of_decide_eq_true h
  | asked | ended => cases h

theorem about_asks (node : NodeKey) : About node (asks (α := α) node) := by
  intro event h
  cases event with
  | asked k ticks => exact of_decide_eq_true h
  | began | ended => cases h

variable {node : NodeKey} {counts : Event α → Bool}

theorem About.countP_cons (h : About node counts) (event : Event α) (hne : event.node ≠ node)
    (log : List (Event α)) : (event :: log).countP counts = log.countP counts :=
  List.countP_cons_of_neg fun hcounts => hne (h event hcounts)

theorem countP_cons_le (counts : Event α → Bool) (event : Event α) (log : List (Event α)) :
    (event :: log).countP counts ≤ log.countP counts + 1 := by
  rw [List.countP_cons]
  split <;> omega

end Event

def World.tally (counts : Event Progress → Bool) (w : World (σ × Chronicle)) : ℕ :=
  w.memory.2.countP counts

open Event

variable {counts : Event Progress → Bool} {m : NodeKey} {ex : Executor σ}

theorem Event.About.tally_note (h : About m counts) (event : Event Progress) (hne : event.node ≠ m)
    (w : World (σ × Chronicle)) : (w.note event).tally counts = w.tally counts :=
  h.countP_cons event hne w.memory.2

namespace Plan

/-- A tick of a subtree counts for its own nodes only. -/
theorem tally_elsewhere (hcounts : About m counts) (p : Plan) {name : List ℕ → NodeKey}
    (hname : ∀ place, name place ≠ m) (a : Progress) (w : World (σ × Chronicle)) :
    (p.chronicle ex name a w).2.2.tally counts = w.tally counts := by
  refine chronicle_notes (L := fun log => log.countP counts = w.tally counts) p ?_ a rfl
  rintro event log ⟨place, hplace⟩ hlog
  rw [hcounts.countP_cons event (hplace ▸ hname place), hlog]

theorem tally_mono (counts : Event Progress → Bool) (p : Plan) (name : List ℕ → NodeKey)
    (a : Progress) (w : World (σ × Chronicle)) :
    w.tally counts ≤ (p.chronicle ex name a w).2.2.tally counts := by
  refine chronicle_notes (L := fun log => w.tally counts ≤ log.countP counts) p ?_ a le_rfl
  intro event log _ hlog
  rw [List.countP_cons]
  exact hlog.trans (Nat.le_add_right _ _)

end Plan

namespace Forest

variable {f g : Forest} {k c : NodeKey} {p : Plan} {spec : NodeSpec} {plans : List Plan}
  {way : List ℕ}

/-- The child that a stepper is about. -/
theorem Sound.chronicle_child (hs : f.Sound) (hplan : f.plan? k = some (.node spec plans)) {i : ℕ}
    {step : Stepper (σ × Chronicle)}
    (hstep : (Plan.chronicleFrom ex plans (f.nodeAt k) 0)[i]? = some step) :
    ∃ c q, (f.children k)[i]? = some c ∧ f.plan? c = some q ∧
      step = q.chronicle ex (f.nodeAt c) := by
  obtain ⟨n, hn⟩ := hs.exists_node_of_plan? hplan
  obtain ⟨plans', hplan', hplans⟩ := hs.exists_plan hn
  obtain ⟨rfl, rfl⟩ : spec = n.spec ∧ plans = plans' :=
    Plan.node.inj (Option.some.inj (hplan.symm.trans hplan'))
  rw [Plan.getElem?_chronicleFrom, Nat.zero_add] at hstep
  obtain ⟨q, hq, rfl⟩ := Option.map_eq_some_iff.mp hstep
  obtain ⟨c, hc, hcq⟩ := exists_getElem? hplans hq
  have hname : (fun place => f.nodeAt k (i :: place)) = f.nodeAt c := by
    funext place
    rw [nodeAt, hc]
  exact ⟨c, q, hc, hcq, congrArg (q.chronicle ex) hname⟩

/-- Ticking a child of a node counts for nothing but what is below the child. -/
theorem Sound.tally_child (hs : f.Sound) (hcounts : About m counts) (hm : m ∉ f.subtree c)
    (q : Plan) (a : Progress) (w : World (σ × Chronicle)) :
    (q.chronicle ex (f.nodeAt c) a w).2.2.tally counts = w.tally counts :=
  q.tally_elsewhere hcounts (fun place heq => hm (heq ▸ hs.nodeAt_mem_subtree c place)) a w

/-- A tick of a node begins with the tick of the node itself, and there is no other one in it. -/
theorem Sound.ticksOf_self (hs : f.Sound) (hplan : f.plan? k = some p) (a : Progress)
    (w : World (σ × Chronicle)) :
    (p.chronicle ex (f.nodeAt k) a w).2.2.tally (begins k) = w.tally (begins k) + 1 := by
  obtain ⟨spec, plans⟩ := p
  obtain ⟨state, children⟩ := a
  rw [Plan.chronicle_node]
  refine Routine.run_world
    (L := fun v : World (σ × Chronicle) => v.tally (begins k) = w.tally (begins k) + 1)
    ?_ ?_ (fun _ _ h => h) _ (o := ⟨state.cursor, state.counter, children, _⟩) ?_
  · intro step hstep b v hv
    obtain ⟨i, hi⟩ := List.mem_iff_getElem?.mp hstep
    obtain ⟨c, q, hc, -, rfl⟩ := hs.chronicle_child hplan hi
    have hk : k ∉ f.subtree c := hs.not_mem_subtree_child (List.mem_of_getElem? hc)
    rw [hs.tally_child (about_begins k) hk, hv]
  · intro ticks v hv
    rw [World.tally, NodeSpec.execute_noting]
    split
    · exact hv
    · exact hv
  · exact List.countP_cons_of_pos (decide_eq_true rfl)

def AtMostOnce (f : Forest) (k : NodeKey) : Prop :=
  ∀ n, f.node? k = some n → n.spec.behavior.AtMostOnce

theorem AtMostOnce.of_plan (h : f.AtMostOnce k) (hs : f.Sound)
    (hplan : f.plan? k = some (.node spec plans)) : spec.behavior.AtMostOnce := by
  obtain ⟨n, hn⟩ := hs.exists_node_of_plan? hplan
  obtain ⟨plans', hplan', -⟩ := hs.exists_plan hn
  obtain ⟨rfl, -⟩ : spec = n.spec ∧ plans = plans' :=
    Plan.node.inj (Option.some.inj (hplan.symm.trans hplan'))
  exact h n hn

/-- A node whose behavior does so once at most asks once at most while it is ticked. -/
theorem Sound.requestsOf_self (hs : f.Sound) (hplan : f.plan? k = some p) (honce : f.AtMostOnce k)
    (a : Progress) (w : World (σ × Chronicle)) :
    (p.chronicle ex (f.nodeAt k) a w).2.2.tally (asks k) ≤ w.tally (asks k) + 1 := by
  obtain ⟨spec, plans⟩ := p
  obtain ⟨state, children⟩ := a
  rw [Plan.chronicle_node]
  refine (honce.of_plan hs hplan _ .code).run (Q := World.tally (asks k)) ?_ ?_ (fun _ _ => rfl)
    ⟨state.cursor, state.counter, children, w.note (.began k (.node state children))⟩
  · intro i step hstep b v
    obtain ⟨c, q, hc, -, rfl⟩ := hs.chronicle_child hplan hstep
    have hk : k ∉ f.subtree c := hs.not_mem_subtree_child (List.mem_of_getElem? hc)
    exact (hs.tally_child (about_asks k) hk q b v).le
  · intro ticks v
    rw [if_pos rfl, World.tally, NodeSpec.execute_noting]
    split
    · exact countP_cons_le _ _ _
    · exact Nat.le_succ _

/-- What is counted once at most while a child is ticked is counted, while its parent is ticked, as
often at most as the routine of the parent ticks that child. -/
theorem Sound.tally_parent (hs : f.Sound) (hcounts : About m counts) {i n : ℕ}
    (hc : (f.children k)[i]? = some c) (hm : m ∈ f.subtree c)
    (hchild : ∀ q, f.plan? c = some q → ∀ b (v : World (σ × Chronicle)),
      (q.chronicle ex (f.nodeAt c) b v).2.2.tally counts ≤ v.tally counts + 1)
    (hplan : f.plan? k = some (.node spec plans)) (a : Progress)
    (hmost : ∀ childCount,
      (spec.behavior.routine (spec.view a.state childCount)).AtMost (.child i) n)
    (w : World (σ × Chronicle)) :
    ((Plan.node spec plans).chronicle ex (f.nodeAt k) a w).2.2.tally counts ≤
      w.tally counts + n := by
  have hmem : c ∈ f.children k := List.mem_of_getElem? hc
  have hne : k ≠ m := by
    rintro rfl
    exact hs.not_mem_subtree_child hmem hm
  obtain ⟨state, children⟩ := a
  rw [Plan.chronicle_node]
  refine (hcounts.tally_note (.ended k _) hne _).trans_le ?_
  rw [← hcounts.tally_note (.began k (.node state children)) hne w]
  refine (hmost _).run (Q := World.tally counts) ?_ ?_ (fun _ _ => rfl)
    ⟨state.cursor, state.counter, children, _⟩
  · intro j step hstep b v
    obtain ⟨d, q, hd, hq, rfl⟩ := hs.chronicle_child hplan hstep
    by_cases hj : i = j
    · subst hj
      obtain rfl : c = d := Option.some.inj (hc.symm.trans hd)
      rw [if_pos rfl]
      exact hchild q hq b v
    · have hout : m ∉ f.subtree d := hs.not_mem_subtree_of_siblings hmem
        (List.mem_of_getElem? hd) (hs.ne_of_places hc hd hj) hm
      rw [hs.tally_child hcounts hout]
      exact Nat.le_add_right _ _
  · intro ticks v
    rw [World.tally, NodeSpec.execute_noting]
    split
    · exact (hcounts.countP_cons (.asked k ticks) hne _).trans_le (Nat.le_add_right _ _)
    · exact Nat.le_add_right _ _

/-- What is counted once at most while a node is ticked is counted once at most while one above it
is ticked. -/
theorem Sound.tally_above (hs : f.Sound) (hcounts : About m counts) (hway : f.Way k way m)
    (honce : ∀ j ∈ f.subtree k, f.AtMostOnce j)
    (hself : ∀ q, f.plan? m = some q → ∀ b (v : World (σ × Chronicle)),
      (q.chronicle ex (f.nodeAt m) b v).2.2.tally counts ≤ v.tally counts + 1)
    (hplan : f.plan? k = some p) (a : Progress) (w : World (σ × Chronicle)) :
    (p.chronicle ex (f.nodeAt k) a w).2.2.tally counts ≤ w.tally counts + 1 := by
  induction hway generalizing p a w with
  | here k => exact hself p hplan a w
  | @down k c m i way hc rest ih =>
    have hchild : c ∈ f.children k := List.mem_of_getElem? hc
    have hbelow : ∀ j ∈ f.subtree c, f.AtMostOnce j := fun j hj =>
      honce j (hs.subtree_trans (hs.child_mem_subtree hchild) hj)
    obtain ⟨spec, plans⟩ := p
    -- only what goes through the child on the way counts, and the node ticks that child once
    have hmost := (honce k List.mem_cons_self).of_plan hs hplan
    exact hs.tally_parent hcounts hc (hs.mem_subtree_of_way rest)
      (fun q hq b v => ih hcounts hbelow hself hq b v) hplan a (fun _ => hmost _ _) w

/-- What is counted of a node outside of the subtree stays as it is. -/
theorem Sound.chronicle_elsewhere (hs : f.Sound) (hcounts : About m counts) (hm : m ∉ f.subtree k)
    (w : World (σ × Chronicle)) : (f.chronicle ex k w).2.tally counts = w.tally counts := by
  unfold Forest.chronicle
  split
  · next plan progress _ _ => exact hs.tally_child hcounts hm plan progress w
  · rfl

theorem chronicle_mono (counts : Event Progress → Bool) (f : Forest) (k : NodeKey)
    (w : World (σ × Chronicle)) : w.tally counts ≤ (f.chronicle ex k w).2.tally counts := by
  unfold Forest.chronicle
  split
  · next plan progress _ _ => exact plan.tally_mono counts _ progress w
  · exact le_rfl

/-- A tick of a node is one event more. -/
theorem Sound.chronicle_self (hs : f.Sound) {n : Node} (hn : f.node? k = some n)
    (w : World (σ × Chronicle)) :
    (f.chronicle ex k w).2.tally (begins k) = w.tally (begins k) + 1 := by
  obtain ⟨plans, hplan, -⟩ := hs.exists_plan hn
  obtain ⟨a, hholds⟩ := Holds.exists_progress hs hplan
  rw [hholds.chronicle_eq]
  exact hs.ticksOf_self hplan a w

/-- A node is counted once at most while the subtree that it stands in is ticked, and else not. -/
theorem Sound.chronicle_le (hs : f.Sound) (hcounts : About m counts)
    (honce : ∀ j ∈ f.subtree k, f.AtMostOnce j)
    (hself : f.AtMostOnce m → ∀ q, f.plan? m = some q → ∀ b (v : World (σ × Chronicle)),
      (q.chronicle ex (f.nodeAt m) b v).2.2.tally counts ≤ v.tally counts + 1)
    (w : World (σ × Chronicle)) : (f.chronicle ex k w).2.tally counts ≤
      w.tally counts + if decide (m ∈ f.subtree k) then 1 else 0 := by
  by_cases hm : m ∈ f.subtree k
  · rw [if_pos (decide_eq_true hm)]
    unfold Forest.chronicle
    split
    · next plan progress hplan _ =>
      obtain ⟨way, hway⟩ := hs.exists_way hm
      exact hs.tally_above hcounts hway honce (hself (honce m hm)) hplan progress w
    · exact Nat.le_succ _
  · rw [hs.chronicle_elsewhere hcounts hm]
    exact Nat.le_add_right _ _

/-- A bound on what each tick counts, from above or from below, is one on what all of them do. -/
theorem tally_chronicleAll {R : ℕ → ℕ → Prop} [IsPreorder ℕ R]
    (hadd : ∀ a b c, R a b → R (a + c) (b + c)) {counted : NodeKey → Bool} {keys : List NodeKey}
    (h : ∀ g, f.SameButStates g → ∀ k ∈ keys, ∀ w : World (σ × Chronicle),
      R ((g.chronicle ex k w).2.tally counts) (w.tally counts + if counted k then 1 else 0))
    (w : World (σ × Chronicle)) :
    R ((chronicleAll ex keys f w).2.tally counts) (w.tally counts + keys.countP counted) := by
  induction keys generalizing f w with
  | nil => exact refl_of R _
  | cons k rest ih =>
    have hsame := chronicle_sameButStates ex f k w
    have hfirst := hadd _ _ (rest.countP counted) (h f (.refl f) k List.mem_cons_self w)
    have hrest := ih (fun g hg j hj => h g (hsame.trans hg) j (List.mem_cons_of_mem _ hj))
      (f.chronicle ex k w).2
    rw [List.countP_cons, Nat.add_comm (rest.countP counted), ← Nat.add_assoc]
    exact trans_of R hrest hfirst

theorem Sound.congr (hs : f.Sound) (hsame : f.SameButStates g) : g.Sound :=
  hs.of_same_links hsame.children hsame.parent?

theorem AtMostOnce.congr (h : f.AtMostOnce k) (hsame : f.SameButStates g) : g.AtMostOnce k := by
  intro n hn
  have hspec := hsame.spec? k
  rw [hn] at hspec
  obtain ⟨n', hn', hspec'⟩ := Option.map_eq_some_iff.mp hspec.symm
  have hbehavior : n'.spec.behavior = n.spec.behavior := congrArg NodeSpec.behavior hspec'
  rw [← hbehavior]
  exact h n' hn'

variable {keys : List NodeKey}

/-- Each listed node is ticked by the pass itself once. -/
theorem Sound.ticksOf_listed (hs : f.Sound) (hkeys : ∀ k ∈ keys, ∃ n, f.node? k = some n)
    (hk : k ∈ keys) (hsame : f.SameButStates g) (w : World (σ × Chronicle)) :
    (g.chronicle ex k w).2.tally (begins k) = w.tally (begins k) + 1 := by
  obtain ⟨n, hn⟩ := hkeys k hk
  obtain ⟨n', hn'⟩ := hsame.exists_node hn
  exact (hs.congr hsame).chronicle_self hn' w

/-- Each node of a list is ticked at least as often as it is listed. -/
theorem Sound.le_ticksOf (hs : f.Sound) (ex : Executor σ)
    (hkeys : ∀ k ∈ keys, ∃ n, f.node? k = some n) (s : NodeKey) (w : World (σ × Chronicle)) :
    w.tally (begins s) + keys.count s ≤ (chronicleAll ex keys f w).2.tally (begins s) := by
  refine tally_chronicleAll (R := (· ≥ ·)) (fun _ _ c h => Nat.add_le_add_right h c)
    (fun g hg k hk v => ?_) w
  by_cases hks : k = s
  · subst hks
    rw [hs.ticksOf_listed hkeys hk hg, beq_self_eq_true, if_pos rfl]
  · rw [if_neg (by simpa using hks)]
    exact chronicle_mono _ g k v

/-- A node in the subtree of no other node of the list is ticked at most as often as it is listed. -/
theorem Sound.ticksOf_le (hs : f.Sound) (ex : Executor σ)
    (hkeys : ∀ k ∈ keys, ∃ n, f.node? k = some n) {s : NodeKey}
    (halone : ∀ k ∈ keys, k ≠ s → s ∉ f.subtree k) (w : World (σ × Chronicle)) :
    (chronicleAll ex keys f w).2.tally (begins s) ≤ w.tally (begins s) + keys.count s := by
  refine tally_chronicleAll (R := (· ≤ ·)) (fun _ _ c h => Nat.add_le_add_right h c)
    (fun g hg k hk v => ?_) w
  by_cases hks : k = s
  · subst hks
    rw [hs.ticksOf_listed hkeys hk hg, beq_self_eq_true, if_pos rfl]
  · have hout : s ∉ g.subtree k := hg.subtree k ▸ halone k hk hks
    rw [(hs.congr hg).chronicle_elsewhere (about_begins s) hout]
    exact Nat.le_add_right _ _

/-- How many of the nodes have another one in their subtree. -/
def covers (f : Forest) (keys : List NodeKey) (m : NodeKey) : ℕ :=
  keys.countP fun k => m ∈ f.subtree k

/-- What is counted once at most while a node is ticked is counted once at most for each listed node
that has that node in its subtree. -/
theorem Sound.tally_le (hs : f.Sound) (hcounts : About m counts)
    (honce : ∀ k ∈ keys, ∀ j ∈ f.subtree k, f.AtMostOnce j)
    (hself : ∀ g : Forest, g.Sound → g.AtMostOnce m → ∀ q, g.plan? m = some q →
      ∀ b (v : World (σ × Chronicle)),
      (q.chronicle ex (g.nodeAt m) b v).2.2.tally counts ≤ v.tally counts + 1)
    (w : World (σ × Chronicle)) :
    (chronicleAll ex keys f w).2.tally counts ≤ w.tally counts + f.covers keys m := by
  refine tally_chronicleAll (R := (· ≤ ·)) (fun _ _ c h => Nat.add_le_add_right h c)
    (fun g hg k hk v => ?_) w
  have hsound := hs.congr hg
  rw [← hg.subtree]
  refine hsound.chronicle_le hcounts (fun j hj => ?_) (hself g hsound) v
  exact (honce k hk j (hg.subtree k ▸ hj)).congr hg

end Forest

namespace Engine

variable {e : Engine σ}

theorem entries_of_starts (h : e.startNodes ≠ []) : e.entries = e.startNodes := by
  unfold entries
  split
  · next hnil _ => exact absurd hnil h
  · next hnil _ => exact absurd hnil h
  · rfl

/-- Restarting a node writes nothing into the chronicle. -/
theorem memory_restart (e : Engine σ) (k : NodeKey) (status : Status) :
    (e.restart k status).memory = e.memory := by
  unfold restart
  split <;> rfl

theorem memory_restarts (ended : List (NodeKey × Status)) (e : Engine σ) :
    (ended.foldl (fun e p => e.restart p.1 p.2) e).memory = e.memory := by
  induction ended generalizing e with
  | nil => rfl
  | cons p rest ih => exact (ih (e.restart p.1 p.2)).trans (memory_restart e p.1 p.2)

/-- The executor goes through a pass as it does when a chronicle is kept. -/
theorem memory_tick (ex : Executor σ) (e : Engine σ) (log : Chronicle) :
    (e.tick ex).2.memory = (e.chronicle ex log).2.memory.1 := by
  have hnodes (keys : List NodeKey) :=
    (tickNodes_chronicle (e := e.countPass) ex keys (w := ⟨e.tree.board, (e.memory, log)⟩) rfl).2
  unfold tick chronicle entries
  cases e.startNodes with
  | nil =>
    cases e.tree.root with
    | none => rfl
    | some root => exact (memory_restart _ _ _).trans (hnodes [root])
  | cons start starts => exact (memory_restarts _ _).trans (hnodes (start :: starts))

def eventsOfPass (ex : Executor σ) (e : Engine σ) : Chronicle := (e.chronicle ex []).2.memory.2

/-- How often the nodes of an engine are visited by a pass that ticks start nodes. -/
structure Visits (ex : Executor σ) (e : Engine σ) : Prop where
  /-- The events are those of the pass, which is the same without them. -/
  pass : (e.tick ex).2.memory = (e.chronicle ex []).2.memory.1
  ticked : ∀ s ∈ e.startNodes, 1 ≤ ticksOf s (e.eventsOfPass ex)
  once : ∀ s ∈ e.startNodes, (∀ t ∈ e.startNodes, ¬ e.forest.IsAbove t s) →
    ticksOf s (e.eventsOfPass ex) = 1
  /-- Nodes that do not repeat anything by themselves are not visited for any other reason than that
  a start node has them in its subtree. -/
  bounded : (∀ s ∈ e.startNodes, ∀ j ∈ e.forest.subtree s, e.forest.AtMostOnce j) →
    ∀ m, ticksOf m (e.eventsOfPass ex) ≤ e.forest.covers e.startNodes m ∧
      requestsOf m (e.eventsOfPass ex) ≤ e.forest.covers e.startNodes m

/-- A pass that ticks start nodes visits every node as often as it should. -/
theorem visits (hs : e.forest.Sound) (hnodup : e.startNodes.Nodup)
    (hnode : ∀ s ∈ e.startNodes, ∃ n, e.forest.node? s = some n) (hstarts : e.startNodes ≠ [])
    (ex : Executor σ) : e.Visits ex := by
  let w : World (σ × Chronicle) := ⟨e.tree.board, (e.memory, [])⟩
  have hzero (counts : Event Progress → Bool) : w.tally counts = 0 := rfl
  have hevents (counts : Event Progress → Bool) : (e.eventsOfPass ex).countP counts =
      (Forest.chronicleAll ex e.startNodes e.forest w).2.tally counts := by
    rw [eventsOfPass, chronicle, entries_of_starts hstarts, World.tally]
  have hticked : ∀ s ∈ e.startNodes, 1 ≤ ticksOf s (e.eventsOfPass ex) := fun s hmem => by
    have hle := hs.le_ticksOf ex hnode s w
    rw [hzero, Nat.zero_add, List.count_eq_one_of_mem hnodup hmem] at hle
    rw [ticksOf, hevents]
    exact hle
  refine ⟨memory_tick ex e [], hticked, fun s hmem habove => ?_, fun honce m => ⟨?_, ?_⟩⟩
  · have halone : ∀ k ∈ e.startNodes, k ≠ s → s ∉ e.forest.subtree k := fun k hk hks hin =>
      (hs.mem_subtree.mp hin).elim (fun heq => hks heq.symm) (habove k hk)
    have hle := hs.ticksOf_le ex hnode halone w
    rw [hzero, Nat.zero_add, List.count_eq_one_of_mem hnodup hmem] at hle
    refine Nat.le_antisymm ?_ (hticked s hmem)
    rw [ticksOf, hevents]
    exact hle
  · rw [ticksOf, hevents, ← Nat.zero_add (e.forest.covers _ _)]
    exact hs.tally_le (about_begins m) honce (fun g hg _ q hq b v => (hg.ticksOf_self hq b v).le) w
  · rw [requestsOf, hevents, ← Nat.zero_add (e.forest.covers _ _)]
    exact hs.tally_le (about_asks m) honce
      (fun g hg hm q hq b v => hg.requestsOf_self hq hm b v) w

end Engine

end BehaviorTree
