import BehaviorTree.Proofs.Wiring

/-!
Records that describe a forest already: every child that they list exists, has no other parent and
is listed once, and no record is above itself. Then loading refuses no edge for lack of a free
child: nobody else asks for the children of a record. What is left is the room. The children so far
are those that were listed before, so that a node gets the first ones of its record, as many as it
may have. Where no record lists more than that, it gets all of them.
-/
namespace BehaviorTree

namespace Capacity

variable {α β : Type} {capacity : Capacity} {xs : List α}

def fitting : Capacity → List α → List α
  | atMost limit, xs => xs.take limit
  | unlimited, xs => xs

theorem fitting_nil (capacity : Capacity) : capacity.fitting ([] : List α) = [] := by
  cases capacity with
  | atMost limit => exact List.take_nil
  | unlimited => rfl

theorem map_fitting (f : α → β) (capacity : Capacity) (xs : List α) :
    (capacity.fitting xs).map f = capacity.fitting (xs.map f) := by
  cases capacity with
  | atMost limit => exact List.map_take
  | unlimited => rfl

theorem fitting_sublist (capacity : Capacity) (xs : List α) : (capacity.fitting xs).Sublist xs := by
  cases capacity with
  | atMost limit => exact List.take_sublist limit xs
  | unlimited => exact List.Sublist.refl xs

/-- All elements fit if there are no more than there is room for. -/
theorem fitting_eq_self_iff :
    capacity.fitting xs = xs ↔ ∀ limit, capacity = .atMost limit → xs.length ≤ limit := by
  cases capacity with
  | atMost limit =>
    simp only [fitting, atMost.injEq, forall_eq']
    refine ⟨fun h => ?_, List.take_of_length_le⟩
    have hlength := congrArg List.length h
    rw [List.length_take] at hlength
    omega
  | unlimited => simp [fitting]

/-- Where the limit has been reached, one element more does not fit. -/
theorem fitting_snoc_of_full {limit : ℕ} (hlimit : capacity = .atMost limit)
    (hfull : limit ≤ (capacity.fitting xs).length) (x : α) :
    capacity.fitting (xs ++ [x]) = capacity.fitting xs := by
  subst hlimit
  simp only [fitting, List.length_take] at hfull ⊢
  exact List.take_append_of_le_length (by omega)

theorem fitting_snoc_of_room
    (hroom : ∀ limit, capacity = .atMost limit → (capacity.fitting xs).length < limit) (x : α) :
    capacity.fitting (xs ++ [x]) = capacity.fitting xs ++ [x] := by
  have hall : ∀ limit, capacity = .atMost limit → xs.length < limit := by
    rintro limit rfl
    have hlt := hroom limit rfl
    simp only [fitting, List.length_take] at hlt
    omega
  rw [fitting_eq_self_iff.mpr fun limit hlimit => Nat.le_of_lt (hall limit hlimit)]
  refine fitting_eq_self_iff.mpr fun limit hlimit => ?_
  rw [List.length_append, List.length_singleton]
  exact hall limit hlimit

end Capacity

namespace Loading

open Forest Relation

variable {registry : Registry} {f g h : Forest} {kept : Kept} {e : Record × NodeKey}
  {c : NodeKey} {id : String}

def Lists (records : List Record) (a b : String) : Prop :=
  ∃ r ∈ records, r.id = a ∧ b ∈ r.children

structure Tidy (registry : Registry) (records : List Record) : Prop where
  known : ∀ r ∈ records, ∀ id ∈ r.children, id ∈ records.map (·.id)
  once : ∀ r ∈ records, r.children.Nodup
  one_parent : ∀ r ∈ records, ∀ s ∈ records, ∀ id, id ∈ r.children → id ∈ s.children → r.id = s.id
  acyclic : ∀ id, ¬ TransGen (Lists records) id id
  room : ∀ r ∈ records, ∀ spec, Describes registry r spec → ∀ limit,
    spec.capacity = .atMost limit → r.children.length ≤ limit

/-- Tidy but for the room. -/
structure Treelike (records : List Record) : Prop where
  known : ∀ r ∈ records, ∀ id ∈ r.children, id ∈ records.map (·.id)
  once : ∀ r ∈ records, r.children.Nodup
  one_parent : ∀ r ∈ records, ∀ s ∈ records, ∀ id, id ∈ r.children → id ∈ s.children → r.id = s.id
  acyclic : ∀ id, ¬ TransGen (Lists records) id id

theorem Tidy.treelike {records : List Record} (h : Tidy registry records) : Treelike records :=
  ⟨h.known, h.once, h.one_parent, h.acyclic⟩

def Truthful (kept : Kept) (h : Forest) : Prop :=
  ∀ e ∈ kept, ∀ c ∈ h.children e.2, ∃ id ∈ e.1.children, find? kept id = some c

/-- From the forest `h` to the forest `h'`, a node `p` has got the children with the given ids, and
all other nodes have kept theirs. -/
structure Attached (f g : Forest) (kept : Kept) (h h' : Forest) (p : NodeKey)
    (ids : List String) : Prop where
  wired : Wired f g h'
  truthful : Truthful kept h'
  children : (h'.children p).map g.id? = ids.map some
  others : ∀ q, q ≠ p → h'.children q = h.children q

/-- Who is above whom among the nodes is listed by the records. -/
theorem Truthful.lists_of_isAbove (htrue : Truthful kept h) (hs : h.Sound) (he : e ∈ kept)
    {k : NodeKey} (hk : h.IsAbove e.2 k) :
    ∃ d ∈ kept, d.2 = k ∧ TransGen (Lists (kept.map (·.1))) e.1.id d.1.id := by
  have hstep : ∀ d ∈ kept, ∀ c, h.IsParent d.2 c →
      ∃ b ∈ kept, b.2 = c ∧ Lists (kept.map (·.1)) d.1.id b.1.id := by
    intro d hd c hdc
    obtain ⟨id, hid, hfind⟩ := htrue d hd c (hs.mem_children.mpr hdc)
    obtain ⟨record, hmem, rfl⟩ := find?_mem hfind
    exact ⟨_, hmem, rfl, d.1, List.mem_map_of_mem hd, rfl, hid⟩
  induction hk with
  | single hec =>
    obtain ⟨b, hb, hbc, hlists⟩ := hstep e he _ hec
    exact ⟨b, hb, hbc, TransGen.single hlists⟩
  | tail _ hxc ih =>
    obtain ⟨d, hd, rfl, hrun⟩ := ih
    obtain ⟨b, hb, hbc, hlists⟩ := hstep d hd _ hxc
    exact ⟨b, hb, hbc, hrun.tail hlists⟩

section Serving

variable (hplant : Planted registry f g kept)
include hplant

theorem Planted.entry_of_key {d : Record × NodeKey} (he : e ∈ kept) (hd : d ∈ kept)
    (hkey : e.2 = d.2) : e = d := by
  have hnodup : (kept.map (·.2)).Nodup := hplant.keys ▸ List.nodup_range'
  exact List.inj_on_of_nodup_map hnodup he hd hkey

theorem Planted.entry_of_id {d : Record × NodeKey} (he : e ∈ kept) (hd : d ∈ kept)
    (hid : e.1.id = d.1.id) : e = d :=
  List.inj_on_of_nodup_map hplant.ids he hd hid

variable (ht : Treelike (kept.map (·.1)))
include ht

/-- A listed child that is attached somewhere is attached to the node of the record listing it. -/
theorem Treelike.only_parent (htrue : Truthful kept h) {d : Record × NodeKey} (hd : d ∈ kept)
    (he : e ∈ kept) (hc : c ∈ h.children d.2) (hfind : find? kept id = some c)
    (hid : id ∈ e.1.children) : d = e := by
  obtain ⟨i, hi, hfindi⟩ := htrue d hd c hc
  obtain ⟨r, hr, rfl⟩ := find?_mem hfindi
  obtain ⟨record, hmem, rfl⟩ := find?_mem hfind
  have hsame : r = record := (Prod.mk.inj (hplant.entry_of_key hr hmem rfl)).1
  exact hplant.entry_of_id hd he (ht.one_parent d.1 (List.mem_map_of_mem hd) e.1
    (List.mem_map_of_mem he) record.id (hsame ▸ hi) hid)

theorem Treelike.ne_child (he : e ∈ kept) (hfind : find? kept id = some c)
    (hid : id ∈ e.1.children) : e.2 ≠ c := by
  rintro rfl
  obtain ⟨record, hmem, rfl⟩ := find?_mem hfind
  have hself : e = (record, e.2) := hplant.entry_of_key he hmem rfl
  refine ht.acyclic record.id (TransGen.single ⟨e.1, List.mem_map_of_mem he, ?_, hid⟩)
  rw [hself]

theorem Treelike.not_isAbove (htrue : Truthful kept h) (hs : h.Sound) (he : e ∈ kept)
    (hfind : find? kept id = some c) (hid : id ∈ e.1.children) : ¬ h.IsAbove c e.2 := by
  intro ha
  obtain ⟨record, hmem, rfl⟩ := find?_mem hfind
  obtain ⟨d, hd, hkey, hrun⟩ := htrue.lists_of_isAbove hs hmem ha
  rw [hplant.entry_of_key hd he hkey] at hrun
  exact ht.acyclic record.id (hrun.tail ⟨e.1, List.mem_map_of_mem he, rfl, hid⟩)

/-- A listed child has no parent before the record that lists it attaches it. -/
theorem Treelike.parent?_ne (hw : Wired f g h) (htrue : Truthful kept h) (he : e ∈ kept)
    (hnot : c ∉ h.children e.2) (hfind : find? kept id = some c) (hid : id ∈ e.1.children)
    (k : NodeKey) : h.parent? c ≠ some k := by
  intro hk
  have hs : h.Sound := hw.reachable.sound
  obtain ⟨record, hmem, -⟩ := find?_mem hfind
  obtain ⟨d, hd, rfl⟩ := hplant.exists_entry ((hw.apart k c hk).mpr (hplant.key_bounds hmem).1)
    (hw.size ▸ hs.parent_lt_size hk)
  have hcd : c ∈ h.children d.2 := hs.mem_children.mpr hk
  exact hnot (ht.only_parent hplant htrue hd he hcd hfind hid ▸ hcd)

/-- A listed child that comes up while there is room is attached behind those before it. -/
theorem attached_adopt (hw : Wired f g h) (htrue : Truthful kept h) (he : e ∈ kept)
    (hfind : find? kept id = some c) (hid : id ∈ e.1.children) (hnot : c ∉ h.children e.2)
    (hroom : ¬ h.IsFull e.2) {ids : List String}
    (hids : (h.children e.2).map g.id? = ids.map some) :
    Attached f g kept h (h.adopt e.2 c).2 e.2 (ids ++ [id]) := by
  have hs : h.Sound := hw.reachable.sound
  obtain ⟨record, hmem, hrecord⟩ := find?_mem hfind
  have hgid : g.id? c = some id := hrecord ▸ hplant.id?_eq hmem
  obtain ⟨hp, hp'⟩ := hplant.key_bounds he
  obtain ⟨hc, hc'⟩ := hplant.key_bounds hmem
  have hph : e.2 < h.size := hw.size ▸ hp'
  have hch : c < h.size := hw.size ▸ hc'
  have hok : (h.adopt e.2 c).1 = .ok () :=
    (adoption_of_sound hs e.2 c).ok (ht.ne_child hplant he hfind hid) hnot hroom
      (ht.not_isAbove hplant htrue hs he hfind hid)
  have hchildren : ∀ k, (h.adopt e.2 c).2.children k =
      h.children k ++ if k = e.2 then [c] else [] := fun k => by
    have hfree := ht.parent?_ne hplant hw htrue he hnot hfind hid k
    rw [children_of_adopt hs hph hok hnot, if_neg hfree]
  refine ⟨hw.adopt hp hph hc hch, fun d hd a ha => ?_, ?_, fun q hq => ?_⟩
  · rw [hchildren] at ha
    rcases List.mem_append.mp ha with ha | ha
    · exact htrue d hd a ha
    · split_ifs at ha with hkey
      · rw [hplant.entry_of_key hd he hkey, List.mem_singleton.mp ha]
        exact ⟨id, hid, hfind⟩
      · simp at ha
  · rw [hchildren, if_pos rfl, List.map_append, List.map_append, hids, List.map_singleton,
      List.map_singleton, hgid]
  · rw [hchildren, if_neg hq, List.append_nil]

/-- No id is listed twice, so what comes next is not there already. -/
theorem Treelike.not_mem_of_next (he : e ∈ kept) (hfind : find? kept id = some c)
    {before after : List String} (hsplit : e.1.children = before ++ id :: after)
    (hbefore : (h.children e.2).map g.id? = ((g.capacity e.2).fitting before).map some) :
    c ∉ h.children e.2 := by
  intro hc
  obtain ⟨record, hmem, hrecord⟩ := find?_mem hfind
  have hin : g.id? c ∈ (h.children e.2).map g.id? := List.mem_map_of_mem hc
  rw [hplant.id?_eq hmem, hrecord, hbefore] at hin
  have hbeforeid : id ∈ before := (Capacity.fitting_sublist _ _).mem (by simpa using hin)
  have honce := ht.once e.1 (List.mem_map_of_mem he)
  rw [hsplit] at honce
  exact (List.nodup_append.mp honce).2.2 id hbeforeid id List.mem_cons_self rfl

/-- The next child of a record is attached behind those before it, if there is room for it. -/
theorem attached_wireChild (hw : Wired f g h) (htrue : Truthful kept h) (he : e ∈ kept)
    {before after : List String} (hsplit : e.1.children = before ++ id :: after)
    (hbefore : (h.children e.2).map g.id? = ((g.capacity e.2).fitting before).map some) :
    Attached f g kept h (wireChild kept e.2 h id) e.2
      ((g.capacity e.2).fitting (before ++ [id])) := by
  have hs : h.Sound := hw.reachable.sound
  have hid : id ∈ e.1.children := hsplit ▸ List.mem_append_right _ List.mem_cons_self
  have hknown := ht.known e.1 (List.mem_map_of_mem he) id hid
  rw [List.map_map] at hknown
  obtain ⟨c, hfind⟩ := Option.isSome_iff_exists.mp (find?_isSome.mpr hknown)
  have hnot : c ∉ h.children e.2 := ht.not_mem_of_next hplant he hfind hsplit hbefore
  have hlength : (h.children e.2).length = ((g.capacity e.2).fitting before).length := by
    simpa using congrArg List.length hbefore
  simp only [wireChild, hfind]
  by_cases hfull : h.IsFull e.2
  · have hsame : (h.adopt e.2 c).2 = h :=
      adopt_of_isFull hs (ht.ne_child hplant he hfind hid) hnot hfull
    obtain ⟨limit, hlimit, hle⟩ := hfull
    rw [hw.capacity] at hlimit
    rw [hsame, Capacity.fitting_snoc_of_full hlimit (hlength ▸ hle)]
    exact ⟨hw, htrue, hbefore, fun _ _ => rfl⟩
  · have hroom : ∀ limit, g.capacity e.2 = .atMost limit →
        ((g.capacity e.2).fitting before).length < limit := by
      intro limit hlimit
      rw [← hlength]
      exact Nat.lt_of_not_le fun hle => hfull ⟨limit, (hw.capacity e.2).trans hlimit, hle⟩
    rw [Capacity.fitting_snoc_of_room hroom]
    exact attached_adopt hplant ht hw htrue he hfind hid hnot hfull hbefore

/-- All children of a record for which there is room are attached. -/
theorem attached_foldl (before ids : List String) (hw : Wired f g h) (htrue : Truthful kept h)
    (he : e ∈ kept) (hsplit : e.1.children = before ++ ids)
    (hbefore : (h.children e.2).map g.id? = ((g.capacity e.2).fitting before).map some) :
    Attached f g kept h (ids.foldl (wireChild kept e.2) h) e.2
      ((g.capacity e.2).fitting e.1.children) := by
  induction ids generalizing before h with
  | nil =>
    rw [List.append_nil] at hsplit
    exact ⟨hw, htrue, hsplit ▸ hbefore, fun _ _ => rfl⟩
  | cons id rest ih =>
    have hfirst := attached_wireChild hplant ht hw htrue he hsplit hbefore
    have hsplit' : e.1.children = (before ++ [id]) ++ rest := by simpa using hsplit
    have hall := ih (before ++ [id]) hfirst.wired hfirst.truthful hsplit' hfirst.children
    exact ⟨hall.wired, hall.truthful, hall.children,
      fun q hq => (hall.others q hq).trans (hfirst.others q hq)⟩

/-- A record attaches as many of its children as there is room for. -/
theorem attached_wireRecord (hw : Wired f g h) (htrue : Truthful kept h) (he : e ∈ kept)
    (hnil : h.children e.2 = []) :
    Attached f g kept h (wireRecord kept h e) e.2 ((g.capacity e.2).fitting e.1.children) :=
  attached_foldl hplant ht [] e.1.children hw htrue he rfl (by simp [hnil, Capacity.fitting_nil])

/-- All children of all records for which there is room are attached. -/
theorem attached_all (done rest : Kept) (hsplit : kept = done ++ rest)
    (hw : Wired f g h) (htrue : Truthful kept h)
    (hdone : ∀ e ∈ done, (h.children e.2).map g.id? =
      ((g.capacity e.2).fitting e.1.children).map some)
    (hrest : ∀ e ∈ rest, h.children e.2 = []) :
    ∀ e ∈ kept, ((rest.foldl (wireRecord kept) h).children e.2).map g.id? =
      ((g.capacity e.2).fitting e.1.children).map some := by
  induction rest generalizing done h with
  | nil => simpa [hsplit] using hdone
  | cons d rest ih =>
    have hd : d ∈ kept := hsplit ▸ List.mem_append_right _ List.mem_cons_self
    have hkeys : ((done ++ d :: rest).map (·.2)).Nodup :=
      hsplit ▸ hplant.keys ▸ List.nodup_range'
    rw [List.map_append, List.map_cons, List.nodup_append, List.nodup_cons] at hkeys
    obtain ⟨-, ⟨hlater, -⟩, hearlier⟩ := hkeys
    have hnext := attached_wireRecord hplant ht hw htrue hd (hrest d List.mem_cons_self)
    refine ih (done ++ [d]) (by simpa using hsplit) hnext.wired hnext.truthful ?_ ?_
    · intro e he
      rcases List.mem_append.mp he with he | he
      · have hne : e.2 ≠ d.2 :=
          hearlier e.2 (List.mem_map_of_mem he) d.2 List.mem_cons_self
        rw [hnext.others e.2 hne, hdone e he]
      · rw [List.mem_singleton.mp he, hnext.children]
    · intro e he
      have hne : e.2 ≠ d.2 := fun hkey => hlater (hkey ▸ List.mem_map_of_mem he)
      rw [hnext.others e.2 hne, hrest e (List.mem_cons_of_mem _ he)]

/-- Loading gives every node the first children that its record lists, as many as it may have. -/
theorem children_of_treelike (hf : f.Reachable) (he : e ∈ kept) :
    ((kept.foldl (wireRecord kept) g).children e.2).map g.id? =
      ((g.capacity e.2).fitting e.1.children).map some := by
  have hnil : ∀ d ∈ kept, g.children d.2 = [] := by
    intro d hd
    obtain ⟨spec, -, hnode⟩ := hplant.node d hd
    rw [children_eq hnode]
  have htrue : Truthful kept g := fun d hd c hc => by simp [hnil d hd] at hc
  exact attached_all hplant ht [] kept rfl (hplant.wired hf) htrue (by simp) hnil e he

omit ht in
/-- Loading tidy records gives every node the children that its record lists, in their order. -/
theorem children_of_tidy (ht : Tidy registry (kept.map (·.1))) (hf : f.Reachable) (he : e ∈ kept) :
    ((kept.foldl (wireRecord kept) g).children e.2).map g.id? = e.1.children.map some := by
  rw [children_of_treelike hplant ht.treelike hf he]
  refine congrArg (List.map some) (Capacity.fitting_eq_self_iff.mpr fun limit hlimit => ?_)
  obtain ⟨spec, hspec, hnode⟩ := hplant.node e he
  have hcap : spec.capacity = .atMost limit := by simpa [capacity, hnode] using hlimit
  exact ht.room e.1 (List.mem_map_of_mem he) spec hspec limit hcap

end Serving

end Loading

end BehaviorTree
