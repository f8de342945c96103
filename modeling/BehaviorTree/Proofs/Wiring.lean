import BehaviorTree.Proofs.Planting

/-!
The second pass of loading attaches the children that the records list. One parent after the other
is served, and each of its children may be missing, be refused, be there already, or be taken from
a parent that has been served before. A refused child stays refused until its parent has been
served, so a parent gets its children in the order in which its record mentions them first, and
afterwards it can only lose some.
-/
namespace BehaviorTree.Loading

open Forest Relation

variable {registry : Registry} {f g h : Forest} {kept : Kept} {p c : NodeKey}

/-- Attempts to attach new nodes to each other lead from the planted forest `g` to the forest `h`.
The nodes of the old forest `f` stay as they are. -/
structure Wired (f g h : Forest) : Prop where
  reachable : h.Reachable
  size : h.size = g.size
  same : ∀ k, (h.node? k).map (fun n => (n.spec, n.state)) =
    (g.node? k).map fun n => (n.spec, n.state)
  old : ∀ k < f.size, h.node? k = f.node? k
  apart : ∀ p c, h.IsParent p c → (f.size ≤ p ↔ f.size ≤ c)
  within : ∀ k, f.size ≤ k → h.WithinCapacity k

/-- Every planted node is still there, in the same words and the same state. -/
theorem Wired.exists_node (hw : Wired f g h) {k : NodeKey} {m : Node} (hm : g.node? k = some m) :
    ∃ n, h.node? k = some n ∧ n.spec = m.spec ∧ n.state = m.state := by
  have hsame := hw.same k
  rw [hm] at hsame
  obtain ⟨n, hn, hfields⟩ := Option.map_eq_some_iff.mp hsame
  exact ⟨n, hn, Prod.mk.inj hfields⟩

theorem spec?_of_specState {k : NodeKey} (hsame : (h.node? k).map (fun n => (n.spec, n.state)) =
    (g.node? k).map fun n => (n.spec, n.state)) :
    (h.node? k).map (·.spec) = (g.node? k).map (·.spec) := by
  have hspec := congrArg (Option.map Prod.fst) hsame
  simp only [Option.map_map] at hspec
  exact hspec

theorem Wired.spec? (hw : Wired f g h) (k : NodeKey) :
    (h.node? k).map (·.spec) = (g.node? k).map (·.spec) :=
  spec?_of_specState (hw.same k)

theorem Wired.id? (hw : Wired f g h) (k : NodeKey) : h.id? k = g.id? k := by
  have hk := congrArg (Option.map NodeSpec.id) (hw.spec? k)
  simp only [Option.map_map] at hk
  exact hk

theorem Wired.capacity (hw : Wired f g h) (k : NodeKey) : h.capacity k = g.capacity k :=
  capacity_of_spec? (hw.spec? k)

theorem Planted.exists_entry (hp : Planted registry f g kept) {k : NodeKey} (hold : f.size ≤ k)
    (hk : k < g.size) : ∃ e ∈ kept, e.2 = k := by
  have hmem : k ∈ kept.map (·.2) := by
    rw [hp.keys, List.mem_range'_1]
    exact ⟨hold, hp.size ▸ hk⟩
  exact List.mem_map.mp hmem

theorem Planted.wired (hp : Planted registry f g kept) (hf : f.Reachable) : Wired f g g where
  reachable := hf.trans hp.run
  size := rfl
  same _ := rfl
  old := hp.old
  apart p c hpc := by
    by_cases hc : c < f.size
    · have hold : f.IsParent p c := by
        rw [IsParent, parent?, ← hp.old c hc]
        exact hpc
      have hparent := hf.sound.parent_lt_size hold
      exact ⟨fun h => absurd hparent (Nat.not_lt.mpr h), fun h => absurd hc (Nat.not_lt.mpr h)⟩
    · obtain ⟨e, he, rfl⟩ := hp.exists_entry (Nat.le_of_not_lt hc) (lt_size_of_isParent hpc)
      obtain ⟨spec, -, hnode⟩ := hp.node e he
      simp [IsParent, parent?_eq hnode] at hpc
  within k hk := by
    refine withinCapacity_of_nil ?_
    by_cases hlt : k < g.size
    · obtain ⟨e, he, rfl⟩ := hp.exists_entry hk hlt
      obtain ⟨spec, -, hnode⟩ := hp.node e he
      rw [children_eq hnode]
    · exact children_of_size_le (Nat.le_of_not_lt hlt)

/-- An attempt leaves nodes alone that are neither its parent nor its child nor the child's former
parent. -/
theorem node?_adopt_of_ne (hs : h.Sound) {k : NodeKey} (hkp : k ≠ p) (hkc : k ≠ c)
    (hformer : h.parent? c ≠ some k) : (h.adopt p c).2.node? k = h.node? k := by
  rcases adopt_forest h p c with hadopt | ⟨-, -, -, hadopt⟩
  · rw [hadopt]
  · rw [hadopt, node?_release_link hs]
    cases h.node? k with
    | none => rfl
    | some n => simp [hkp, hkc, hformer]

theorem specState_adopt (hs : h.Sound) (p c k : NodeKey) :
    ((h.adopt p c).2.node? k).map (fun n => (n.spec, n.state)) =
      (h.node? k).map fun n => (n.spec, n.state) := by
  rcases adopt_forest h p c with hadopt | ⟨-, -, -, hadopt⟩
  · rw [hadopt]
  · rw [hadopt, node?_release_link hs, Option.map_map]
    rfl

/-- The child that is attached is the only node with another parent than before. -/
theorem parent?_release_link (hs : h.Sound) (hc : c < h.size) (k : NodeKey) :
    ((h.release c).link p c).parent? k = if k = c then some p else h.parent? k := by
  rw [parent?_link (by rwa [size_release]), parent?_release hs]
  split_ifs <;> rfl

/-- No attempt makes another link than the one that it is about. -/
theorem isParent_of_adopt (hs : h.Sound) (hc : c < h.size) {q d : NodeKey}
    (hqd : (h.adopt p c).2.IsParent q d) : h.IsParent q d ∨ q = p ∧ d = c := by
  rcases adopt_forest h p c with hadopt | ⟨-, -, -, hadopt⟩
  · exact Or.inl (by simpa [hadopt] using hqd)
  · rw [hadopt, IsParent, parent?_release_link hs hc] at hqd
    split_ifs at hqd with hdc
    · exact Or.inr ⟨(Option.some.inj hqd).symm, hdc⟩
    · exact Or.inl hqd

/-- All that happens on the way from one forest to another is that these parents take children. -/
structure Taking (h g : Forest) (parents : List NodeKey) : Prop where
  capacity : ∀ k, g.capacity k = h.capacity k
  fewer : ∀ q, q ∉ parents → (g.children q).Sublist (h.children q)
  /-- A child stays where it is unless it is taken. -/
  moved : ∀ q d, h.IsParent q d → g.IsParent q d ∨ ∃ p ∈ parents, g.IsParent p d

theorem Taking.refl (h : Forest) (parents : List NodeKey) : Taking h h parents :=
  ⟨fun _ => rfl, fun _ _ => List.Sublist.refl _, fun _ _ => Or.inl⟩

/-- What some parents have taken others may take from them. -/
theorem Taking.trans {i : Forest} {parents later : List NodeKey} (hhg : Taking h g parents)
    (hgi : Taking g i later) : Taking h i (parents ++ later) where
  capacity k := (hgi.capacity k).trans (hhg.capacity k)
  fewer q hq := by
    obtain ⟨hparents, hlater⟩ := not_or.mp (mt List.mem_append.mpr hq)
    exact (hgi.fewer q hlater).trans (hhg.fewer q hparents)
  moved q d hqd := by
    have hthen : ∀ p, g.IsParent p d → i.IsParent p d ∨ ∃ r ∈ parents ++ later, i.IsParent r d := by
      intro p hpd
      rcases hgi.moved p d hpd with hstays | ⟨r, hr, hrd⟩
      · exact Or.inl hstays
      · exact Or.inr ⟨r, List.mem_append_right _ hr, hrd⟩
    rcases hhg.moved q d hqd with hstays | ⟨p, hp, hpd⟩
    · exact hthen q hstays
    · rcases hthen p hpd with hpd | htaken
      · exact Or.inr ⟨p, List.mem_append_left _ hp, hpd⟩
      · exact Or.inr htaken

theorem Taking.mono {parents more : List NodeKey} (hhg : Taking h g parents)
    (hsub : parents ⊆ more) : Taking h g more where
  capacity := hhg.capacity
  fewer q hq := hhg.fewer q fun hmem => hq (hsub hmem)
  moved q d hqd := (hhg.moved q d hqd).imp_right fun ⟨p, hp, hpd⟩ => ⟨p, hsub hp, hpd⟩

/-- An attempt among the new nodes leaves the old ones alone. -/
theorem Wired.adopt (hw : Wired f g h) (hp : f.size ≤ p) (hp' : p < h.size) (hc : f.size ≤ c)
    (hc' : c < h.size) : Wired f g (h.adopt p c).2 where
  reachable := hw.reachable.tail (Step.adopt hp' hc')
  size := (size_adopt h p c).trans hw.size
  same k := (specState_adopt hw.reachable.sound p c k).trans (hw.same k)
  old k hk := by
    rw [node?_adopt_of_ne hw.reachable.sound (Nat.ne_of_lt (Nat.lt_of_lt_of_le hk hp))
      (Nat.ne_of_lt (Nat.lt_of_lt_of_le hk hc)), hw.old k hk]
    intro hformer
    exact Nat.not_le.mpr hk ((hw.apart k c hformer).mpr hc)
  apart q d hqd := by
    rcases isParent_of_adopt hw.reachable.sound hc' hqd with hqd | ⟨rfl, rfl⟩
    · exact hw.apart q d hqd
    · exact ⟨fun _ => hc, fun _ => hp⟩
  within k hk := withinCapacity_adopt hw.reachable.sound (hw.within k hk) hp'

/-- The children that a parent has been served for so far: those that it has are listed in the
order of their first mention, and those that it lacks would be refused again. -/
structure Served (kept : Kept) (h : Forest) (p : NodeKey) (done : List String) : Prop where
  listed : ((h.children p).map h.id?).Sublist (done.eraseDups.map some)
  settled : ∀ id ∈ done, ∀ c, find? kept id = some c →
    c = p ∨ c ∈ h.children p ∨ h.IsFull p ∨ h.IsAbove c p

theorem eraseDups_snoc {done : List String} {id : String} (hid : id ∉ done) :
    (done ++ [id]).eraseDups = done.eraseDups ++ [id] := by
  simp [List.eraseDups_append, List.removeAll, hid, List.eraseDups_cons]

theorem sublist_eraseDups_snoc (done : List String) (id : String) :
    done.eraseDups.Sublist (done ++ [id]).eraseDups := by
  rw [List.eraseDups_append]
  exact List.sublist_append_left _ _

theorem find?_mem {id : String} (hfind : find? kept id = some c) :
    ∃ record, (record, c) ∈ kept ∧ record.id = id := by
  obtain ⟨e, he, rfl⟩ := Option.map_eq_some_iff.mp hfind
  exact ⟨e.1, List.mem_of_find?_eq_some he, by simpa using List.find?_some he⟩

/-- The ways up from the new parent stay, since the new child is on none of them. -/
theorem isAbove_release_link (hs : h.Sound) (hc : c < h.size) (hpc : p ≠ c)
    (hnot : ¬ h.IsAbove c p) {a : NodeKey} (ha : h.IsAbove a p) :
    ((h.release c).link p c).IsAbove a p := by
  have hstep : ∀ {x y}, y ≠ c → h.IsParent x y → ((h.release c).link p c).IsParent x y := by
    intro x y hyc hxy
    rw [IsParent, parent?_release_link hs hc, if_neg hyc]
    exact hxy
  induction ha using TransGen.head_induction_on with
  | single hap => exact TransGen.single (hstep hpc hap)
  | head hab hbp ih => exact TransGen.head (hstep (fun hbc => hnot (hbc ▸ hbp)) hab) ih

theorem children_adopt_sublist (hs : h.Sound) (hp : p < h.size) {q : NodeKey} (hqp : q ≠ p) :
    ((h.adopt p c).2.children q).Sublist (h.children q) := by
  rcases adopt_forest h p c with hadopt | ⟨hpc, hc, hnone, -⟩
  · rw [hadopt]
  · have hok : (h.adopt p c).1 = .ok () := by rw [adopt_of_no_refusal? hpc hc hnone]
    rw [children_of_adopt hs hp hok hc, if_neg hqp, List.append_nil]
    split_ifs
    · exact List.filter_sublist
    · exact List.Sublist.refl _

/-- In an attempt the one parent may take a child. -/
theorem taking_adopt (hs : h.Sound) (hp : p < h.size) (hc : c < h.size) :
    Taking h (h.adopt p c).2 [p] where
  capacity k := capacity_of_spec? (spec?_of_specState (specState_adopt hs p c k))
  fewer q hq := children_adopt_sublist hs hp fun hqp => hq (List.mem_singleton.mpr hqp)
  moved q d hqd := by
    rcases adopt_forest h p c with hadopt | ⟨-, -, -, hadopt⟩
    · rw [hadopt]
      exact Or.inl hqd
    · simp only [hadopt, IsParent, parent?_release_link hs hc]
      split_ifs
      · exact Or.inr ⟨p, List.mem_singleton_self p, rfl⟩
      · exact Or.inl hqd

/-- An attempt that changes nothing was to no purpose or was refused. -/
theorem refused_of_unchanged (hs : h.Sound) (hp : p < h.size) (hadopt : (h.adopt p c).2 = h) :
    c = p ∨ c ∈ h.children p ∨ h.IsFull p ∨ h.IsAbove c p := by
  by_contra hcontra
  simp only [not_or] at hcontra
  obtain ⟨hcp, hnot, hroom, habove⟩ := hcontra
  have hok := (adoption_of_sound hs p c).ok (Ne.symm hcp) hnot hroom habove
  have hchildren := children_adopt_self hs hp hok hnot
  rw [hadopt] at hchildren
  exact hnot (hchildren ▸ List.mem_append_right _ (List.mem_singleton_self c))

/-- A child that is not refused is not above its new parent. -/
theorem not_isAbove_of_refusal? (hs : h.Sound) (hnone : h.refusal? p c = none) :
    ¬ h.IsAbove c p := by
  intro ha
  have hfalse := not_isAncestor_of_refusal? hnone
  rw [hs.isAncestor_iff.mpr ha] at hfalse
  exact Bool.noConfusion hfalse

/-- Where the parent stays as it is, one listed child more needs to be accounted for. -/
theorem Served.snoc {done : List String} {id : String} (hdone : Served kept h p done)
    (hid : ∀ c, find? kept id = some c → c = p ∨ c ∈ h.children p ∨ h.IsFull p ∨ h.IsAbove c p) :
    Served kept h p (done ++ [id]) := by
  refine ⟨hdone.listed.trans ((sublist_eraseDups_snoc done id).map some), ?_⟩
  intro i hi c hc
  rcases List.mem_append.mp hi with hi | hi
  · exact hdone.settled i hi c hc
  · exact hid c (List.mem_singleton.mp hi ▸ hc)

section Serving

variable (hplant : Planted registry f g kept)
include hplant

theorem Planted.key_bounds {e : Record × NodeKey} (he : e ∈ kept) :
    f.size ≤ e.2 ∧ e.2 < g.size := by
  have hmem : e.2 ∈ kept.map (·.2) := List.mem_map_of_mem he
  rw [hplant.keys, List.mem_range'_1, ← hplant.size] at hmem
  exact hmem

theorem Planted.id?_eq {e : Record × NodeKey} (he : e ∈ kept) : g.id? e.2 = some e.1.id := by
  obtain ⟨spec, ⟨fresh, -, rfl⟩, hnode⟩ := hplant.node e he
  simp [id?, hnode, Record.applyTo]

/-- A child that is attached has not been listed before, and those that were refused before would
be refused again. -/
theorem served_attached (hw : Wired f g h) (hw' : Wired f g (h.adopt p c).2) (hp : p < h.size)
    (hc : c < h.size) {done : List String} (hdone : Served kept h p done) {id : String}
    (hfind : find? kept id = some c) (hpc : p ≠ c) (hnot : c ∉ h.children p)
    (hnone : h.refusal? p c = none) (hadopt : (h.adopt p c).2 = (h.release c).link p c) :
    Served kept (h.adopt p c).2 p (done ++ [id]) := by
  have hs : h.Sound := hw.reachable.sound
  have hroom : ¬ h.IsFull p := not_isFull_of_refusal? hnone
  have habove : ¬ h.IsAbove c p := not_isAbove_of_refusal? hs hnone
  have hfirst : id ∉ done := fun hid => by
    rcases hdone.settled id hid c hfind with hcp | hmem | hfull | ha
    · exact hpc hcp.symm
    · exact hnot hmem
    · exact hroom hfull
    · exact habove ha
  have hok : (h.adopt p c).1 = .ok () := by rw [adopt_of_no_refusal? hpc hnot hnone]
  have hchildren := children_adopt_self hs hp hok hnot
  have hids : ((h.adopt p c).2.children p).map (h.adopt p c).2.id? =
      (h.children p).map h.id? ++ [some id] := by
    obtain ⟨record, hmem, hrecord⟩ := find?_mem hfind
    have hid : g.id? c = some id := hrecord ▸ hplant.id?_eq hmem
    have hold : (h.children p).map (h.adopt p c).2.id? = (h.children p).map h.id? :=
      List.map_congr_left fun k _ => (hw'.id? k).trans (hw.id? k).symm
    rw [hchildren, List.map_append, hold, List.map_singleton, hw'.id?, hid]
  constructor
  · rw [hids, eraseDups_snoc hfirst, List.map_append]
    exact hdone.listed.append (List.Sublist.refl _)
  · intro i hi d hd
    rw [hchildren]
    rcases List.mem_append.mp hi with hi | hi
    · rcases hdone.settled i hi d hd with hdp | hmem | hfull | ha
      · exact Or.inl hdp
      · exact Or.inr (Or.inl (List.mem_append_left _ hmem))
      · exact absurd hfull hroom
      · refine Or.inr (Or.inr (Or.inr ?_))
        rw [hadopt]
        exact isAbove_release_link hs hc hpc habove ha
    · have hdc : c = d := Option.some.inj (hfind.symm.trans (List.mem_singleton.mp hi ▸ hd))
      exact Or.inr (Or.inl (List.mem_append_right _ (by simp [hdc])))

/-- One listed child has been looked at. -/
theorem served_wireChild (hw : Wired f g h) (hp : f.size ≤ p) (hp' : p < g.size)
    {done : List String} (hdone : Served kept h p done) (id : String) :
    Wired f g (wireChild kept p h id) ∧ Served kept (wireChild kept p h id) p (done ++ [id]) ∧
      Taking h (wireChild kept p h id) [p] := by
  cases hfind : find? kept id with
  | none =>
    simp only [wireChild, hfind]
    exact ⟨hw, hdone.snoc (by simp [hfind]), .refl h [p]⟩
  | some c =>
    simp only [wireChild, hfind]
    obtain ⟨record, hmem, -⟩ := find?_mem hfind
    obtain ⟨hc, hc'⟩ := hplant.key_bounds hmem
    have hs : h.Sound := hw.reachable.sound
    have hph : p < h.size := hw.size ▸ hp'
    have hch : c < h.size := hw.size ▸ hc'
    have hw' : Wired f g (h.adopt p c).2 := hw.adopt hp hph hc hch
    refine ⟨hw', ?_, taking_adopt hs hph hch⟩
    rcases adopt_forest h p c with hadopt | ⟨hpc, hnot, hnone, hadopt⟩
    · rw [hadopt]
      refine hdone.snoc fun d hd => ?_
      obtain rfl : c = d := Option.some.inj (hfind.symm.trans hd)
      exact refused_of_unchanged hs hph hadopt
    · exact served_attached hplant hw hw' hph hch hdone hfind hpc hnot hnone hadopt

/-- All children of a record have been looked at, in their order. -/
theorem served_foldl (hp : f.size ≤ p) (hp' : p < g.size) (ids : List String)
    {done : List String} (hw : Wired f g h) (hdone : Served kept h p done) :
    Wired f g (ids.foldl (wireChild kept p) h) ∧
      Served kept (ids.foldl (wireChild kept p) h) p (done ++ ids) ∧
      Taking h (ids.foldl (wireChild kept p) h) [p] := by
  induction ids generalizing h done with
  | nil => exact ⟨hw, by simpa using hdone, .refl h [p]⟩
  | cons id rest ih =>
    obtain ⟨hw', hdone', htaking⟩ := served_wireChild hplant hw hp hp' hdone id
    obtain ⟨hw'', hdone'', hlater⟩ := ih hw' hdone'
    rw [List.foldl_cons]
    refine ⟨hw'', ?_, (htaking.trans hlater).mono (List.append_subset.mpr ⟨.refl _, .refl _⟩)⟩
    simpa only [List.append_assoc, List.singleton_append] using hdone''

end Serving

/-- The parents that have been served have some of the children that their records list, and the
others have none yet. What a parent lacks has been taken by a later one, or was refused when it was
served. -/
structure ServedAll (f : Forest) (kept done : Kept) (h : Forest) : Prop where
  listed : ∀ e ∈ done, ((h.children e.2).map h.id?).Sublist (e.1.children.eraseDups.map some)
  waiting : ∀ k, f.size ≤ k → k ∉ done.map (·.2) → h.children k = []
  settled : ∀ before e after, done = before ++ e :: after →
    ∃ i : Forest, i.Sound ∧ Served kept i e.2 e.1.children ∧ Taking i h (after.map (·.2))

/-- Serving one parent more takes from those before at most. -/
theorem servedAll_wireRecord (hplant : Planted registry f g kept) {done : Kept}
    {e : Record × NodeKey} (he : e ∈ kept) (hnew : e.2 ∉ done.map (·.2)) (hw : Wired f g h)
    (hdone : ServedAll f kept done h) :
    Wired f g (wireRecord kept h e) ∧ ServedAll f kept (done ++ [e]) (wireRecord kept h e) := by
  obtain ⟨hold, hlt⟩ := hplant.key_bounds he
  have hnil : h.children e.2 = [] := hdone.waiting e.2 hold hnew
  have hstart : Served kept h e.2 [] := ⟨by simp [hnil], by simp⟩
  obtain ⟨hw', hserved, htaking⟩ := served_foldl hplant hold hlt e.1.children hw hstart
  refine ⟨hw', fun d hd => ?_, fun k hk hnot => ?_, fun before d after hsplit => ?_⟩
  · rcases List.mem_append.mp hd with hd | hd
    · have hne : d.2 ≠ e.2 := fun heq => hnew (heq ▸ List.mem_map_of_mem hd)
      have hids : ((wireRecord kept h e).children d.2).map (wireRecord kept h e).id? =
          ((wireRecord kept h e).children d.2).map h.id? :=
        List.map_congr_left fun k _ => (hw'.id? k).trans (hw.id? k).symm
      rw [hids]
      have hless := htaking.fewer d.2 (mt List.mem_singleton.mp hne)
      exact (hless.map h.id?).trans (hdone.listed d hd)
    · rw [List.mem_singleton.mp hd]
      exact hserved.listed
  · simp only [List.map_append, List.map_cons, List.map_nil, List.mem_append] at hnot
    have hless := htaking.fewer k fun hmem => hnot (Or.inr hmem)
    rw [hdone.waiting k hk fun hmem => hnot (Or.inl hmem)] at hless
    exact List.sublist_nil.mp hless
  · rcases List.eq_nil_or_concat after with rfl | ⟨between, last, rfl⟩
    · obtain ⟨-, hlast⟩ := List.append_inj' hsplit rfl
      obtain rfl := List.singleton_inj.mp hlast
      exact ⟨_, hw'.reachable.sound, hserved, .refl _ _⟩
    · rw [List.concat_eq_append, ← List.cons_append, ← List.append_assoc] at hsplit
      obtain ⟨hbefore, hlast⟩ := List.append_inj' hsplit rfl
      obtain rfl := List.singleton_inj.mp hlast
      obtain ⟨i, hi, hthen, htaken⟩ := hdone.settled before d between hbefore
      refine ⟨i, hi, hthen, ?_⟩
      rw [List.concat_eq_append, List.map_append]
      exact htaken.trans htaking

/-- All parents are served one after the other. -/
theorem servedAll_foldl (hplant : Planted registry f g kept) (rest : Kept) {done : Kept}
    (hsplit : kept = done ++ rest) (hw : Wired f g h) (hdone : ServedAll f kept done h) :
    Wired f g (rest.foldl (wireRecord kept) h) ∧
      ServedAll f kept kept (rest.foldl (wireRecord kept) h) := by
  induction rest generalizing h done with
  | nil =>
    rw [List.append_nil] at hsplit
    exact ⟨hw, hsplit ▸ hdone⟩
  | cons e rest ih =>
    have he : e ∈ kept := hsplit ▸ List.mem_append_right _ List.mem_cons_self
    -- no two entries have one key, so this entry has not been served before
    have hnew : e.2 ∉ done.map (·.2) := by
      have hnodup : (kept.map (·.2)).Nodup := hplant.keys ▸ List.nodup_range'
      rw [hsplit, List.map_append, List.map_cons] at hnodup
      intro hmem
      exact (List.nodup_append.mp hnodup).2.2 _ hmem _ List.mem_cons_self rfl
    obtain ⟨hw', hdone'⟩ := servedAll_wireRecord hplant he hnew hw hdone
    exact ih (by rw [hsplit, List.append_assoc, List.singleton_append]) hw' hdone'

/-- The second pass among freshly planted nodes. -/
theorem servedAll_of_planted (hplant : Planted registry f g kept) (hf : f.Reachable) :
    Wired f g (kept.foldl (wireRecord kept) g) ∧
      ServedAll f kept kept (kept.foldl (wireRecord kept) g) := by
  have hstart : ServedAll f kept [] g := by
    refine ⟨by simp, fun k hk _ => ?_, by simp⟩
    by_cases hlt : k < g.size
    · obtain ⟨e, he, rfl⟩ := hplant.exists_entry hk hlt
      obtain ⟨spec, -, hnode⟩ := hplant.node e he
      rw [children_eq hnode]
    · exact children_of_size_le (Nat.le_of_not_lt hlt)
  exact servedAll_foldl hplant kept rfl (hplant.wired hf) hstart

/-- The children of new nodes are new. -/
theorem Planted.exists_child_entry (hplant : Planted registry f g kept) (hf : f.Reachable)
    {e : Record × NodeKey} (he : e ∈ kept)
    (hc : c ∈ (kept.foldl (wireRecord kept) g).children e.2) : ∃ d ∈ kept, d.2 = c := by
  obtain ⟨hw, -⟩ := servedAll_of_planted hplant hf
  have hs : (kept.foldl (wireRecord kept) g).Sound := hw.reachable.sound
  have hold : f.size ≤ c := (hw.apart e.2 c (hs.mem_children.mp hc)).mp (hplant.key_bounds he).1
  exact hplant.exists_entry hold (hw.size ▸ hs.child_lt_size hc)

end BehaviorTree.Loading
