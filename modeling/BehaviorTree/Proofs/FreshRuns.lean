import BehaviorTree.Proofs.Tracking

/-!
New runs. When a node begins a new run, the leaves below it have begun anew too, so the executor is
told that they have not been running. Of the leaves that are ticked through the node only, one that
a parallel has left running is the one exception.
-/
namespace BehaviorTree

variable {σ : Type} {α : Type}

/-- The leaf is asked for so many ticks after its start, for the first time since the node began a
tick with the snapshot. The tick of the node before that one had ended a run. -/
inductive FirstRequest (node leaf : NodeKey) (snapshot : α) (ticks : ℕ) : List (Event α) → Prop
  | intro {before pause quiet after : List (Event α)} {status : Status}
      (hended : status.isTerminal) (hpause : ∀ s, .ended node s ∉ pause)
      (hquiet : ∀ t, .asked leaf t ∉ quiet) :
      FirstRequest node leaf snapshot ticks
        (after ++ .asked leaf ticks :: quiet ++ .began node snapshot :: pause ++
          .ended node status :: before)

/-- A run has ended as long as nothing of the node has ended since. -/
theorem runEnded_append {node : NodeKey} {status : Status} {pause before : List (Event α)}
    (hended : status.isTerminal) (hpause : ∀ s, .ended node s ∉ pause) :
    RunEnded node (pause ++ .ended node status :: before) := by
  induction pause with
  | nil => simpa [RunEnded] using hended
  | cons event pause ih =>
    have hrest := ih fun s hs => hpause s (List.mem_cons_of_mem _ hs)
    cases event with
    | began n a => exact hrest
    | asked n t => exact hrest
    | ended n s =>
      have hne : n ≠ node := by
        rintro rfl
        exact hpause s List.mem_cons_self
      rw [List.cons_append, RunEnded, if_neg hne]
      exact hrest

theorem awaited_append {node leaf : NodeKey} {snapshot : α} {quiet before : List (Event α)}
    (hquiet : ∀ t, .asked leaf t ∉ quiet) :
    Awaited node leaf snapshot (quiet ++ .began node snapshot :: before) := by
  induction quiet with
  | nil => exact Or.inl ⟨rfl, rfl⟩
  | cons event quiet ih =>
    have hrest := ih fun t ht => hquiet t (List.mem_cons_of_mem _ ht)
    cases event with
    | began n a => exact Or.inr hrest
    | ended n s => exact hrest
    | asked n t =>
      refine ⟨?_, hrest⟩
      rintro rfl
      exact hquiet t List.mem_cons_self

theorem Explained.of_append {p : Plan} {way : List ℕ} {node leaf : NodeKey} {after log : Chronicle}
    (h : Explained p way node leaf (after ++ log)) : Explained p way node leaf log := by
  induction after with
  | nil => exact h
  | cons event after ih =>
    apply ih
    cases event with
    | began n a => exact h.2
    | asked n t => exact h.2
    | ended n s => exact h

/-- If everything has been explained, a leaf is asked for from its start, or a parallel has left it
running. -/
theorem FirstRequest.fresh_or_left {p : Plan} {way : List ℕ} {node leaf : NodeKey} {a : Progress}
    {ticks : ℕ} {log : Chronicle} (h : FirstRequest node leaf a ticks log)
    (hlog : Explained p way node leaf log) : ticks = 0 ∨ p.LeftRunning way a := by
  cases h with
  | @intro before pause quiet after status hended hpause hquiet =>
    simp only [List.append_assoc, List.cons_append] at hlog
    obtain ⟨hasked, hrest⟩ := hlog.of_append
    obtain ⟨hbegan, -⟩ := hrest.of_append
    obtain ⟨htidy, hstatus⟩ := hbegan rfl
    rcases hasked rfl a (awaited_append hquiet) with hzero | ⟨c, hc, hcounter⟩
    · exact Or.inl hzero
    · by_cases hzero : ticks = 0
      · exact Or.inl hzero
      · right
        apply htidy.left_of_counter (hstatus (runEnded_append hended hpause)) hc
        rwa [hcounter]

namespace Event

variable {event : Event α} {node : NodeKey}

theorem of_plain_began (h : event.plain = .began node ()) : ∃ a, event = .began node a := by
  cases event with
  | began n a =>
    cases h
    exact ⟨a, rfl⟩
  | asked n t => cases h
  | ended n s => cases h

theorem of_plain_asked {ticks : ℕ} (h : event.plain = .asked node ticks) :
    event = .asked node ticks := by
  cases event <;> cases h
  rfl

theorem of_plain_ended {status : Status} (h : event.plain = .ended node status) :
    event = .ended node status := by
  cases event <;> cases h
  rfl

end Event

/-- Without its snapshots a chronicle tells as much about requests. -/
theorem FirstRequest.of_plain {node leaf : NodeKey} {ticks : ℕ} {log : List (Event α)}
    (after quiet pause : List (Event Unit)) (status : Status) (before : List (Event Unit))
    (hlog : log.map Event.plain = after ++ .asked leaf ticks :: quiet ++ .began node () :: pause ++
      .ended node status :: before)
    (hended : status.isTerminal) (hpause : ∀ s, .ended node s ∉ pause)
    (hquiet : ∀ t, .asked leaf t ∉ quiet) : ∃ a, FirstRequest node leaf a ticks log := by
  obtain ⟨later, earliest, rfl, hlater, hearliest⟩ := List.map_eq_append_iff.mp hlog
  obtain ⟨last, before, rfl, hlast, -⟩ := List.map_eq_cons_iff.mp hearliest
  obtain ⟨latest, earlier, rfl, hlatest, hearlier⟩ := List.map_eq_append_iff.mp hlater
  obtain ⟨first, pause, rfl, hfirst, rfl⟩ := List.map_eq_cons_iff.mp hearlier
  obtain ⟨after, since, rfl, -, hsince⟩ := List.map_eq_append_iff.mp hlatest
  obtain ⟨request, quiet, rfl, hrequest, rfl⟩ := List.map_eq_cons_iff.mp hsince
  obtain ⟨a, rfl⟩ := Event.of_plain_began hfirst
  obtain rfl := Event.of_plain_asked hrequest
  obtain rfl := Event.of_plain_ended hlast
  refine ⟨a, .intro hended (fun s hs => ?_) fun t ht => ?_⟩
  · exact hpause s (List.mem_map_of_mem hs)
  · exact hquiet t (List.mem_map_of_mem ht)

/-- Only a parallel leaves anything running. -/
theorem Plan.Serial.not_leftRunning {p : Plan} (h : p.Serial) {way : List ℕ} (a : Progress) :
    ¬ p.LeftRunning way a := by
  intro hleft
  induction hleft with
  | ended hspec =>
    cases h with
    | node hkind hspec' => exact hkind (BuiltIn.behavior_injective (hspec'.symm.trans hspec))
  | deeper hq _ _ ih =>
    cases h with
    | node _ _ hplans => exact ih (hplans _ (List.mem_of_getElem? hq))

namespace Forest

def IsKind (f : Forest) (k : NodeKey) (kind : BuiltIn) : Prop :=
  ∃ node, f.node? k = some node ∧ node.spec.behavior = kind.behavior

variable {f : Forest} {n leaf : NodeKey} {p : Plan} {a : Progress} {way : List ℕ}

theorem Holds.behavior {kind : BuiltIn} (h : f.Holds n p a) (hkind : f.IsKind n kind) :
    p.spec.behavior = kind.behavior := by
  obtain ⟨spec, plans⟩ := p
  obtain ⟨state, children⟩ := a
  obtain ⟨node, hnode, hspec, -⟩ := h.exists_node
  obtain ⟨node', hnode', hbehavior⟩ := hkind
  obtain rfl : node = node' := Option.some.inj (hnode.symm.trans hnode')
  rw [Plan.spec, ← hspec]
  exact hbehavior

/-- A way is tidy before anything on it has begun. -/
theorem Holds.tidy_of_fresh (h : f.Holds n p a) (hway : f.Way n way leaf)
    (hfresh : ∀ m ∈ f.subtree n, f.runState m = .fresh)
    (hkinds : ∀ m ∈ f.subtree n, ∃ kind, f.IsKind m kind) (hleaf : f.IsKind leaf .script) :
    p.Tidy way a := by
  induction hway generalizing p a with
  | here k =>
    refine .leaf (h.behavior hleaf) fun _ => ?_
    rw [← h.runState, hfresh k List.mem_cons_self, RunState.fresh]
  | @down k c m i way hc rest ih =>
    obtain ⟨kind, hkind⟩ := hkinds k List.mem_cons_self
    have hbehavior := h.behavior hkind
    have hbelow : ∀ m ∈ f.subtree c, m ∈ f.subtree k := fun m =>
      h.sound.subtree_trans (h.sound.child_mem_subtree (List.mem_of_getElem? hc))
    obtain ⟨spec, plans⟩ := p
    obtain ⟨state, children⟩ := a
    obtain ⟨q, b, hq, hb, hchild⟩ := h.child hc
    have hidle : b.state.status = .idle := by
      rw [← hchild.runState, hfresh c (hbelow c List.mem_cons_self), RunState.fresh]
    refine .step hbehavior hq hb (fun hrunning => ?_) (ih hchild ?_ ?_ hleaf)
    · rw [hidle] at hrunning
      cases hrunning
    · exact fun m hm => hfresh m (hbelow m hm)
    · exact fun m hm => hkinds m (hbelow m hm)

end Forest

namespace Engine

open Forest

variable {n leaf : NodeKey} {p : Plan} {way : List ℕ} {i : ℕ} {e : Engine σ} {log : Chronicle}

/-- A pass keeps what is kept of the node. -/
theorem tracks_tick (h : e.forest.Tracks p (i :: way) n leaf log)
    (hway : e.forest.Way n (i :: way) leaf)
    (hreach : ∀ k ∈ e.entries, leaf ∈ e.forest.subtree k → n ∈ e.forest.subtree k)
    (ex : Executor σ) :
    (e.tick ex).2.forest.Tracks p (i :: way) n leaf (e.chronicle ex log).2.memory.2 := by
  obtain ⟨-, -, ended, hended, hforest⟩ := tick_forest ex e log
  have hsame := chronicleAll_sameButStates ex e.entries e.forest ⟨e.tree.board, (e.memory, log)⟩
  have hticked := Forest.Tracks.chronicleAll (w := ⟨e.tree.board, (e.memory, log)⟩) h hway hreach ex
  rw [hforest]
  refine hticked.resetAll (hsame.keeps_way hway) fun k hk => ?_
  rw [hsame.subtree]
  exact hreach k (hended k hk)

/-- Passes one after the other are explained by the history that they leave. -/
theorem explained_history (ex : Executor σ) (count : ℕ)
    (h : e.forest.Tracks p (i :: way) n leaf log) (hway : e.forest.Way n (i :: way) leaf)
    (hreach : ∀ k ∈ e.entries, leaf ∈ e.forest.subtree k → n ∈ e.forest.subtree k) :
    Explained p (i :: way) n leaf (e.history ex count log) := by
  induction count generalizing e log with
  | zero =>
    obtain ⟨a, -, hkept⟩ := h
    obtain ⟨c, -, hleaf⟩ := hkept.leaf
    exact hleaf.explained
  | succ count ih =>
    have hsame := tick_sameButStates ex e
    refine ih (tracks_tick h hway hreach ex) (hsame.keeps_way hway) ?_
    intro k hk
    rw [entries_tick] at hk
    rw [hsame.subtree]
    exact hreach k hk

/-- In a tree of built-in nodes that is driven by passes from the reset state, let a node begin a
new run. The first time that a leaf below it is asked for from then on, it is asked for as one that
has not been running, unless it has been left running by a parallel on the way down to it that has
ended. This goes for leaves that no pass reaches but through the node. -/
theorem first_request_fresh (hf : e.forest.Reachable)
    (hfresh : ∀ m ∈ e.forest.subtree n, e.forest.runState m = .fresh)
    (hkinds : ∀ m ∈ e.forest.subtree n, ∃ kind, e.forest.IsKind m kind)
    (hbelow : leaf ∈ e.forest.descendants n) (hleaf : e.forest.IsKind leaf .script)
    (hreach : ∀ k ∈ e.entries, leaf ∈ e.forest.subtree k → n ∈ e.forest.subtree k)
    (ex : Executor σ) (count : ℕ) {a : Progress} {ticks : ℕ}
    (h : FirstRequest n leaf a ticks (e.history ex count [])) :
    ticks = 0 ∨ ∃ p way, e.forest.plan? n = some p ∧ e.forest.Way n way leaf ∧
      p.LeftRunning way a := by
  have hs := hf.sound
  obtain ⟨way, hway⟩ := hs.exists_way (List.mem_cons_of_mem n hbelow)
  have habove : e.forest.IsAbove n leaf := hs.mem_descendants.mp hbelow
  obtain ⟨-, node, hnode, -⟩ := hkinds n List.mem_cons_self
  obtain ⟨plans, hplan, -⟩ := hs.exists_plan hnode
  obtain ⟨b, hholds⟩ := Forest.Holds.exists_progress hs hplan
  have htidy := hholds.tidy_of_fresh hway hfresh hkinds hleaf
  obtain ⟨-, c, -, hc, -⟩ := hholds.along hway
  cases way with
  | nil =>
    rw [hway.eq_of_nil] at habove
    exact absurd habove (hs.acyclic n)
  | cons i way =>
    have htracks : e.forest.Tracks (.node node.spec plans) (i :: way) n leaf [] :=
      ⟨b, hholds, htidy, fun hended => hended.elim, c, hc, fun _ hawaited => hawaited.elim, trivial⟩
    have hexplained := explained_history ex count htracks hway hreach
    exact (h.fresh_or_left hexplained).imp_right fun hleft => ⟨_, _, hplan, hway, hleft⟩

def ready (f : Forest) (nodes : List NodeKey) (answers : List Status) : Engine (List Status) :=
  ⟨{ root := some 0, nodes }, f, default, answers, []⟩

def shift : Forest :=
  .grown [workerSpec .parallel "shift", workerSpec .sequence "round", workerSpec .script "go",
    workerSpec .script "look"] [(0, 1), (1, 2), (0, 3)]

def roundPlan : Plan := .node (workerSpec .sequence "round") [.node (workerSpec .script "go") []]

theorem roundPlan_serial : roundPlan.Serial := by
  have hgo : (Plan.node (workerSpec .script "go") []).Serial :=
    .node (by decide) rfl fun p hp => by cases hp
  refine .node (by decide) rfl fun p hp => ?_
  obtain rfl := List.mem_singleton.mp hp
  exact hgo

def shiftReady : Engine (List Status) := ready shift [] [.success, .running, .success, .running]

/-- The action of the shift is asked for afresh in its second round. -/
theorem shift_request :
    ∃ a, FirstRequest 1 2 a 0 (shiftReady.history .scripted 2 []) := by
  apply FirstRequest.of_plain
    [.ended 0 .running, .ended 3 .running, .asked 3 1, .began 3 (), .ended 1 .success,
      .ended 2 .success]
    [.began 2 ()]
    [.began 0 (), .ended 0 .running, .ended 3 .running, .asked 3 0, .began 3 ()]
    .success
    [.ended 2 .success, .asked 2 0, .began 2 (), .began 1 (), .began 0 ()]
  · decide +kernel
  · rfl
  · simp
  · simp

/-- The action of the second round is asked for as one that has not been running. -/
theorem first_request_fresh_shift :
    shift.Reachable ∧ ∃ a ticks, FirstRequest 1 2 a ticks (shiftReady.history .scripted 2 []) ∧
      ticks = 0 := by
  have hreachable : shift.Reachable := grown_reachable (by decide)
  have hkinds : ∀ m ∈ shift.subtree 1, ∃ kind, shift.IsKind m kind := by
    have hsubtree : shift.subtree 1 = [1, 2] := by decide +kernel
    rw [hsubtree]
    simp only [List.forall_mem_cons, List.not_mem_nil]
    exact ⟨⟨.sequence, _, rfl, rfl⟩, ⟨.script, _, rfl, rfl⟩, fun _ h => h.elim⟩
  obtain ⟨a, ha⟩ := shift_request
  refine ⟨hreachable, a, 0, ha, ?_⟩
  rcases first_request_fresh (e := shiftReady) hreachable (by decide +kernel) hkinds
    (by decide +kernel) ⟨_, rfl, rfl⟩ (by decide +kernel) Executor.scripted 2 ha with
    hzero | ⟨p, way, hp, -, hleft⟩
  · exact hzero
  · have hround : shift.plan? 1 = some roundPlan := by rfl
    obtain rfl := Option.some.inj (hround.symm.trans hp)
    exact absurd hleft (roundPlan_serial.not_leftRunning _)

def nested : Forest :=
  .grown [workerSpec .parallel "both",
    { workerSpec .parallel "either" with config := Dict.empty.insert "minSuccess" (Json.int 1) },
    workerSpec .script "go", workerSpec .script "look", workerSpec .script "wait"]
    [(0, 1), (1, 2), (1, 3), (0, 4)]

def nestedReady : Engine (List Status) :=
  ready nested [] [.success, .running, .running, .success, .running, .running]

def startWithin : Forest :=
  .grown [workerSpec .start "Start", workerSpec .parallel "both", workerSpec .sequence "round",
    workerSpec .start "Start", workerSpec .script "go", workerSpec .script "wait"]
    [(0, 1), (1, 2), (2, 3), (3, 4), (1, 5)]

def startWithinReady : Engine (List Status) :=
  ready startWithin [0, 3] [.success, .running, .running, .running, .running, .running]

/-- A parallel that has ended begins a new run, and so does a sequence that has ended, with a leaf
below that has been running: the parallel has left it so, or a start node of its own has set it
going. -/
theorem first_request_not_fresh :
    (nested.Reachable ∧ (∀ m ∈ nested.subtree 0, nested.runState m = .fresh) ∧
      ∃ a, FirstRequest 1 3 a 1 (nestedReady.history .scripted 2 [])) ∧
    startWithin.Reachable ∧ (∀ m ∈ startWithin.subtree 0, startWithin.runState m = .fresh) ∧
      ∃ a, FirstRequest 2 4 a 1 (startWithinReady.history .scripted 2 []) := by
  refine ⟨⟨grown_reachable (by decide), by decide +kernel, ?_⟩, grown_reachable (by decide),
    by decide +kernel, ?_⟩
  · apply FirstRequest.of_plain
      [.ended 0 .running, .ended 4 .running, .asked 4 1, .began 4 (), .ended 1 .success,
        .ended 3 .running]
      [.began 3 (), .ended 2 .success, .asked 2 0, .began 2 ()]
      [.began 0 (), .ended 0 .running, .ended 4 .running, .asked 4 0, .began 4 ()]
      .success
      [.ended 3 .running, .asked 3 0, .began 3 (), .ended 2 .success, .asked 2 0, .began 2 (),
        .began 1 (), .began 0 ()]
    · decide +kernel
    · rfl
    · simp
    · simp
  · apply FirstRequest.of_plain
      [.ended 3 .running, .ended 4 .running, .asked 4 2, .began 4 (), .began 3 (),
        .ended 0 .running, .ended 1 .running, .ended 5 .running, .asked 5 1, .began 5 (),
        .ended 2 .running, .ended 3 .running, .ended 4 .running]
      [.began 4 (), .began 3 ()]
      [.began 1 (), .began 0 (), .ended 3 .running, .ended 4 .running, .asked 4 0, .began 4 (),
        .began 3 (), .ended 0 .running, .ended 1 .running, .ended 5 .running, .asked 5 0,
        .began 5 ()]
      .success
      [.ended 3 .success, .ended 4 .success, .asked 4 0, .began 4 (), .began 3 (), .began 2 (),
        .began 1 (), .began 0 ()]
    · decide +kernel
    · rfl
    · simp
    · simp

end Engine

end BehaviorTree
