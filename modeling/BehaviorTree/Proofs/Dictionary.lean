import BehaviorTree.Dict
import Mathlib.Data.List.Sort
import Mathlib.Tactic.SplitIfs

/-!
Look-ups in dictionaries. An entry of a dictionary is found under its key and nothing else is, so a
dictionary says the same by its entries and by its look-ups. Entries in ascending order make the
dictionary that they are taken from.
-/
namespace BehaviorTree.Dict

universe u

variable {α β : Type u}

theorem eq_of_entries_eq {d e : Dict α} (h : d.entries = e.entries) : d = e := by
  cases d
  cases e
  cases h
  rfl

theorem lookup_cons (key k : String) (value : α) (rest : List (String × α)) :
    ((k, value) :: rest).lookup key = if key = k then some value else rest.lookup key := by
  rw [List.lookup_cons]
  by_cases hk : key = k
  · simp [hk]
  · rw [if_neg hk, beq_false_of_ne hk]

theorem keys_ascending (d : Dict α) : d.keys.Pairwise (· < ·) := List.pairwise_map.mpr d.ascending

theorem keys_nodup (d : Dict α) : d.keys.Nodup := by
  refine d.keys_ascending.imp fun {a b} hlt heq => ?_
  rw [heq] at hlt
  exact String.lt_irrefl b hlt

theorem lookup_eq_some_of_mem {key : String} {value : α} {entries : List (String × α)}
    (hnames : (entries.map (·.1)).Nodup) (h : (key, value) ∈ entries) :
    entries.lookup key = some value := by
  induction entries with
  | nil => cases h
  | cons head rest ih =>
    obtain ⟨hhead, hrest⟩ := List.nodup_cons.1 hnames
    rw [lookup_cons]
    rcases List.mem_cons.1 h with rfl | h
    · rw [if_pos rfl]
    · have hne : key ≠ head.1 := fun heq => hhead (List.mem_map.2 ⟨(key, value), h, heq⟩)
      rw [if_neg hne, ih hrest h]

theorem mem_of_lookup {key : String} {value : α} {entries : List (String × α)}
    (h : entries.lookup key = some value) : (key, value) ∈ entries := by
  obtain ⟨before, after, rfl, -⟩ := List.lookup_eq_some_iff.1 h
  exact List.mem_append_right _ List.mem_cons_self

theorem get?_eq_some {d : Dict α} {key : String} {value : α} :
    d.get? key = some value ↔ (key, value) ∈ d.entries :=
  ⟨mem_of_lookup, lookup_eq_some_of_mem d.keys_nodup⟩

/-- A dictionary is told by its look-ups. -/
theorem eq_of_get?_eq {d e : Dict α} (h : ∀ key, d.get? key = e.get? key) : d = e := by
  let Before : String × α → String × α → Prop := fun a b => a.1 < b.1
  have hirrefl : Std.Irrefl Before := ⟨fun a => String.lt_irrefl a.1⟩
  have hantisymm : Std.Antisymm Before :=
    ⟨fun a b hab hba => absurd (String.lt_trans hab hba) (String.lt_irrefl a.1)⟩
  have hmem : ∀ entry, entry ∈ d.entries ↔ entry ∈ e.entries := by
    rintro ⟨key, value⟩
    rw [← get?_eq_some, ← get?_eq_some, h]
  have hd : d.entries.Pairwise Before := d.ascending
  have he : e.entries.Pairwise Before := e.ascending
  exact eq_of_entries_eq (hd.eq_of_mem_iff he hmem)

@[simp] theorem get?_empty (key : String) : (empty : Dict α).get? key = none := rfl

theorem lookup_insertEntry (key : String) (value : α) (k : String) (entries : List (String × α)) :
    (insertEntry key value entries).lookup k =
      if k = key then some value else entries.lookup k := by
  induction entries with
  | nil => exact lookup_cons k key value []
  | cons head rest ih =>
    obtain ⟨j, v⟩ := head
    by_cases hlt : key < j
    · rw [insertEntry, if_pos hlt, lookup_cons]
    · by_cases heq : key = j
      · rw [insertEntry, if_neg hlt, if_pos heq, lookup_cons, lookup_cons, heq]
        split_ifs <;> rfl
      · rw [insertEntry, if_neg hlt, if_neg heq, lookup_cons, lookup_cons, ih]
        split_ifs with hj hk hk
        · exact absurd (hk.symm.trans hj) heq
        all_goals rfl

/-- What is inserted is found under its key, and nothing else has changed. -/
@[simp] theorem get?_insert (d : Dict α) (key : String) (value : α) (k : String) :
    (d.insert key value).get? k = if k = key then some value else d.get? k :=
  lookup_insertEntry key value k d.entries

@[simp] theorem get?_map (f : String → α → β) (d : Dict α) (k : String) :
    (d.map f).get? k = (d.get? k).map (f k) := by
  simp only [get?, map]
  induction d.entries with
  | nil => rfl
  | cons head rest ih =>
    rw [List.map_cons, lookup_cons, lookup_cons, ih]
    split_ifs with hk
    · rw [hk, Option.map_some]
    · rfl

theorem map_eq_self {change : α → α} {d : Dict α} (h : ∀ e ∈ d.entries, change e.2 = e.2) :
    d.map (fun _ => change) = d := by
  have hentries : d.entries.map (fun e => (e.1, change e.2)) = d.entries.map id :=
    List.map_congr_left fun e he => Prod.ext rfl (h e he)
  exact eq_of_entries_eq (hentries.trans (List.map_id d.entries))

/-- A modification concerns one key, and only if it has a value. -/
@[simp] theorem get?_modify (d : Dict α) (key : String) (change : α → α) (k : String) :
    (d.modify key change).get? k = (d.get? k).map fun v => if k = key then change v else v :=
  get?_map _ d k

theorem contains_insert (d : Dict α) (key : String) (value : α) (k : String) :
    (d.insert key value).contains k = true ↔ k = key ∨ d.contains k = true := by
  rw [contains, get?_insert]
  by_cases hk : k = key
  · simp [hk]
  · simp [hk, contains]

theorem contains_modify (d : Dict α) (key : String) (change : α → α) (k : String) :
    (d.modify key change).contains k = d.contains k := by
  rw [contains, get?_modify, Option.isSome_map, contains]

def All (P : String → α → Prop) (d : Dict α) : Prop :=
  ∀ key value, d.get? key = some value → P key value

namespace All

variable {P : String → α → Prop} {d : Dict α}

theorem insert (h : d.All P) {key : String} {value : α} (hvalue : P key value) :
    (d.insert key value).All P := by
  intro k v hv
  rw [get?_insert] at hv
  split_ifs at hv with hk
  · cases hv
    rwa [hk]
  · exact h k v hv

theorem modify (h : d.All P) (key : String) {change : α → α}
    (hchange : ∀ k v, P k v → P k (change v)) : (d.modify key change).All P := by
  intro k v hv
  rw [get?_modify] at hv
  obtain ⟨old, hold, rfl⟩ := Option.map_eq_some_iff.mp hv
  split_ifs
  · exact hchange k old (h k old hold)
  · exact h k old hold

end All

theorem insertEntry_of_lt {key : String} {value : α} {entries : List (String × α)}
    (h : ∀ e ∈ entries, e.1 < key) :
    insertEntry key value entries = entries ++ [(key, value)] := by
  induction entries with
  | nil => rfl
  | cons head rest ih =>
    have hlt : head.1 < key := h head List.mem_cons_self
    have hnot : ¬ key < head.1 := fun hgt => String.lt_irrefl _ (String.lt_trans hlt hgt)
    have hne : key ≠ head.1 := fun heq => String.lt_irrefl key (heq ▸ hlt)
    have hrest := ih fun e he => h e (List.mem_cons_of_mem _ he)
    simp [insertEntry, hnot, hne, hrest]

theorem foldl_insert_entries {entries : List (String × α)} (d : Dict α)
    (h : (d.entries ++ entries).Pairwise fun a b => a.1 < b.1) :
    (entries.foldl (fun d e => d.insert e.1 e.2) d).entries = d.entries ++ entries := by
  induction entries generalizing d with
  | nil => simp
  | cons head rest ih =>
    have hlt : ∀ e ∈ d.entries, e.1 < head.1 := fun e he =>
      (List.pairwise_append.1 h).2.2 e he head List.mem_cons_self
    have hinsert : (d.insert head.1 head.2).entries = d.entries ++ [head] :=
      insertEntry_of_lt hlt
    rw [List.foldl_cons, ih (d.insert head.1 head.2) (by simpa [hinsert] using h), hinsert,
      List.append_assoc, List.singleton_append]

/-- Entries that ascend already make up the dictionary as they are. -/
theorem entries_ofList {entries : List (String × α)}
    (h : entries.Pairwise fun a b => a.1 < b.1) : (ofList entries).entries = entries :=
  foldl_insert_entries empty h

@[simp] theorem ofList_entries (d : Dict α) : ofList d.entries = d :=
  eq_of_entries_eq (entries_ofList d.ascending)

theorem mem_foldl_insert {entries : List (String × α)} {e : String × α} (d : Dict α)
    (h : e ∈ (entries.foldl (fun d e => d.insert e.1 e.2) d).entries) :
    e ∈ d.entries ∨ e ∈ entries := by
  induction entries generalizing d with
  | nil => exact Or.inl h
  | cons head rest ih =>
    rcases ih (d.insert head.1 head.2) h with hinsert | hrest
    · rcases mem_insertEntry hinsert with rfl | hold
      · exact Or.inr List.mem_cons_self
      · exact Or.inl hold
    · exact Or.inr (List.mem_cons_of_mem _ hrest)

/-- A dictionary made of a list has no entries but those of the list. -/
theorem mem_of_mem_ofList {entries : List (String × α)} {e : String × α}
    (h : e ∈ (ofList entries).entries) : e ∈ entries :=
  (mem_foldl_insert empty h).resolve_left List.not_mem_nil

end BehaviorTree.Dict
