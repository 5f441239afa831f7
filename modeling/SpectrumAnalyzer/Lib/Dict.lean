import Mathlib.Data.List.Nodup

/-!
# Dictionaries that remember insertion order

A finite map whose entries stand in the order in which their keys were first set.
Setting a key that is present replaces its value in place; a new key goes to the end; a
key that was erased and set again is new.  That every key stands once is part of the
type.

## Main definitions

* `Dict` — the entries, with the proof that no key repeats.
* `Dict.get?`, `Dict.set`, `Dict.erase` — lookup and update.
* `Dict.oldest` — the first key.
-/

/-- A dictionary: entries in insertion order, no key twice. -/
@[ext] structure Dict (κ ν : Type*) where
  entries : List (κ × ν)
  nodup : (entries.map Prod.fst).Nodup

namespace Dict

variable {κ ν : Type*}

instance [DecidableEq κ] [DecidableEq ν] : DecidableEq (Dict κ ν) := fun d e =>
  decidable_of_iff (d.entries = e.entries) (by cases d; cases e; simp)

/-- The empty dictionary. -/
def empty : Dict κ ν := ⟨[], List.nodup_nil⟩

/-- The keys, oldest first. -/
def keys (d : Dict κ ν) : List κ := d.entries.map Prod.fst

/-- The values, in the order of their keys. -/
def values (d : Dict κ ν) : List ν := d.entries.map Prod.snd

def size (d : Dict κ ν) : ℕ := d.entries.length

/-- The key that was set first. -/
def oldest (d : Dict κ ν) : Option κ := d.keys.head?

theorem nodup_keys (d : Dict κ ν) : d.keys.Nodup := d.nodup

@[simp] theorem keys_empty : (empty : Dict κ ν).keys = [] := rfl

@[simp] theorem length_keys (d : Dict κ ν) : d.keys.length = d.size := by simp [keys, size]

variable [DecidableEq κ]

/-- The value of a key, if it is present. -/
def get? (d : Dict κ ν) (k : κ) : Option ν := d.entries.lookup k

/-- Replace the value of a key, or append the key. -/
def set (d : Dict κ ν) (k : κ) (v : ν) : Dict κ ν :=
  if h : k ∈ d.keys then
    ⟨d.entries.map fun e => if e.1 = k then (k, v) else e, by
      have hkeys : (d.entries.map fun e => if e.1 = k then (k, v) else e).map Prod.fst =
          d.entries.map Prod.fst := by
        rw [List.map_map]
        apply List.map_congr_left
        intro e _
        by_cases he : e.1 = k <;> simp [he]
      rw [hkeys]
      exact d.nodup⟩
  else
    ⟨d.entries ++ [(k, v)], by
      rw [List.map_append, List.map_singleton, ← List.concat_eq_append]
      exact d.nodup.concat h⟩

/-- Remove a key. -/
def erase (d : Dict κ ν) (k : κ) : Dict κ ν :=
  ⟨d.entries.filter fun e => e.1 ≠ k, d.nodup.sublist (List.filter_sublist.map _)⟩

theorem get?_eq_none_iff (d : Dict κ ν) (k : κ) : d.get? k = none ↔ k ∉ d.keys := by
  rw [get?, List.lookup_eq_none_iff, keys, List.mem_map]
  constructor
  · rintro h ⟨e, he, rfl⟩
    simpa using h e he
  · intro h e he
    exact bne_iff_ne.mpr fun hk => h ⟨e, he, hk.symm⟩

theorem get?_empty (k : κ) : (empty : Dict κ ν).get? k = none := rfl

theorem entries_set_of_mem {d : Dict κ ν} {k : κ} (h : k ∈ d.keys) (v : ν) :
    (d.set k v).entries = d.entries.map fun e => if e.1 = k then (k, v) else e := by
  rw [set, dif_pos h]

theorem entries_set_of_notMem {d : Dict κ ν} {k : κ} (h : k ∉ d.keys) (v : ν) :
    (d.set k v).entries = d.entries ++ [(k, v)] := by
  rw [set, dif_neg h]

theorem keys_set_of_mem {d : Dict κ ν} {k : κ} (h : k ∈ d.keys) (v : ν) :
    (d.set k v).keys = d.keys := by
  rw [keys, entries_set_of_mem h, List.map_map]
  apply List.map_congr_left
  intro e _
  by_cases he : e.1 = k <;> simp [he]

theorem keys_set_of_notMem {d : Dict κ ν} {k : κ} (h : k ∉ d.keys) (v : ν) :
    (d.set k v).keys = d.keys ++ [k] := by
  rw [keys, entries_set_of_notMem h, List.map_append]
  rfl

theorem mem_keys_set {d : Dict κ ν} {k j : κ} {v : ν} :
    j ∈ (d.set k v).keys ↔ j = k ∨ j ∈ d.keys := by
  by_cases h : k ∈ d.keys
  · rw [keys_set_of_mem h]
    exact ⟨.inr, fun hj => hj.elim (fun e => e ▸ h) id⟩
  · rw [keys_set_of_notMem h, List.mem_append, List.mem_singleton, or_comm]

theorem lookup_cons_ite (a j : κ) (b : ν) (rest : List (κ × ν)) :
    ((a, b) :: rest).lookup j = if j = a then some b else rest.lookup j := by
  rw [List.lookup_cons]
  by_cases h : j = a
  · simp [h]
  · rw [beq_false_of_ne h, if_neg h]

theorem lookup_map_update (entries : List (κ × ν)) (k j : κ) (v : ν) :
    (entries.map fun e => if e.1 = k then (k, v) else e).lookup j =
      if j = k then (entries.lookup j).map fun _ => v else entries.lookup j := by
  induction entries with
  | nil => simp
  | cons e rest ih =>
      obtain ⟨a, b⟩ := e
      rw [List.map_cons]
      by_cases ha : a = k
      · subst ha
        rw [if_pos rfl, lookup_cons_ite, lookup_cons_ite, ih]
        by_cases hj : j = a <;> simp [hj]
      · rw [if_neg ha, lookup_cons_ite, lookup_cons_ite, ih]
        by_cases hj : j = a
        · have hk : j ≠ k := fun h => ha (hj ▸ h)
          simp [hj, ha]
        · simp [hj]

theorem get?_set (d : Dict κ ν) (k j : κ) (v : ν) :
    (d.set k v).get? j = if j = k then some v else d.get? j := by
  by_cases h : k ∈ d.keys
  · rw [get?, entries_set_of_mem h, lookup_map_update]
    by_cases hj : j = k
    · subst hj
      cases hv : d.entries.lookup j with
      | none => exact absurd h ((d.get?_eq_none_iff j).mp hv)
      | some b => simp
    · simp [hj, get?]
  · rw [get?, entries_set_of_notMem h, List.lookup_append]
    have hk := (d.get?_eq_none_iff k).mpr h
    by_cases hj : j = k
    · subst hj
      rw [get?] at hk
      simp [hk]
    · rw [lookup_cons_ite, if_neg hj, if_neg hj, List.lookup_nil, Option.or_none, get?]

theorem get?_set_self (d : Dict κ ν) (k : κ) (v : ν) : (d.set k v).get? k = some v := by
  rw [get?_set, if_pos rfl]

theorem get?_set_of_ne (d : Dict κ ν) {k j : κ} (h : j ≠ k) (v : ν) :
    (d.set k v).get? j = d.get? j := by
  rw [get?_set, if_neg h]

/-- Setting a key twice sets it once. -/
theorem set_set (d : Dict κ ν) (k : κ) (v w : ν) : (d.set k v).set k w = d.set k w := by
  have hmem : k ∈ (d.set k v).keys := mem_keys_set.mpr (.inl rfl)
  apply Dict.ext
  rw [entries_set_of_mem hmem]
  by_cases h : k ∈ d.keys
  · rw [entries_set_of_mem h, entries_set_of_mem h, List.map_map]
    apply List.map_congr_left
    intro e _
    by_cases he : e.1 = k <;> simp [he]
  · have hself : (d.entries.map fun e => if e.1 = k then (k, w) else e) = d.entries := by
      conv_rhs => rw [← List.map_id d.entries]
      apply List.map_congr_left
      intro e he
      have hk : e.1 ≠ k := fun hk => h (List.mem_map.mpr ⟨e, he, hk⟩)
      rw [if_neg hk, id]
    rw [entries_set_of_notMem h, entries_set_of_notMem h, List.map_append, hself]
    simp

theorem size_set_of_mem {d : Dict κ ν} {k : κ} (h : k ∈ d.keys) (v : ν) :
    (d.set k v).size = d.size := by
  rw [size, entries_set_of_mem h, List.length_map, size]

theorem size_set_of_notMem {d : Dict κ ν} {k : κ} (h : k ∉ d.keys) (v : ν) :
    (d.set k v).size = d.size + 1 := by
  rw [size, entries_set_of_notMem h, List.length_append, List.length_singleton, size]

theorem mem_keys_erase {d : Dict κ ν} {k j : κ} : j ∈ (d.erase k).keys ↔ j ≠ k ∧ j ∈ d.keys := by
  simp only [keys, erase, List.mem_map, List.mem_filter]
  constructor
  · rintro ⟨e, ⟨he, hk⟩, rfl⟩
    exact ⟨by simpa using hk, e, he, rfl⟩
  · rintro ⟨hk, e, he, rfl⟩
    exact ⟨e, ⟨he, by simpa using hk⟩, rfl⟩

theorem get?_erase_self (d : Dict κ ν) (k : κ) : (d.erase k).get? k = none := by
  rw [get?_eq_none_iff, mem_keys_erase]
  simp

theorem size_erase_le (d : Dict κ ν) (k : κ) : (d.erase k).size ≤ d.size :=
  List.length_filter_le _ _

omit [DecidableEq κ] in
theorem exists_oldest {d : Dict κ ν} (h : 0 < d.size) : ∃ k, d.oldest = some k ∧ k ∈ d.keys := by
  have hne : d.keys ≠ [] := by
    intro he
    rw [← length_keys, he] at h
    simp at h
  exact ⟨d.keys.head hne, List.head?_eq_some_head hne, List.head_mem hne⟩

theorem keys_erase (d : Dict κ ν) (k : κ) : (d.erase k).keys = d.keys.erase k := by
  rw [d.nodup_keys.erase_eq_filter, keys, keys, erase, List.filter_map]
  congr 1
  apply List.filter_congr
  intro e _
  simp [bne, beq_eq_decide]

theorem keys_erase_sublist (d : Dict κ ν) (k : κ) : (d.erase k).keys.Sublist d.keys := by
  rw [keys_erase]
  exact List.erase_sublist

theorem get?_erase (d : Dict κ ν) (k j : κ) :
    (d.erase k).get? j = if j = k then none else d.get? j := by
  by_cases hj : j = k
  · rw [if_pos hj, hj, get?_erase_self]
  · rw [if_neg hj]
    change (d.entries.filter fun e => e.1 ≠ k).lookup j = d.entries.lookup j
    induction d.entries with
    | nil => rfl
    | cons e rest ih =>
        obtain ⟨a, b⟩ := e
        by_cases ha : a = k
        · have hne : j ≠ a := fun h => hj (h.trans ha)
          rw [List.filter_cons_of_neg (by simpa using ha), ih, lookup_cons_ite, if_neg hne]
        · rw [List.filter_cons_of_pos (by simpa using ha), lookup_cons_ite, lookup_cons_ite, ih]

/-- Removing a key that is present removes one entry. -/
theorem size_erase_of_mem {d : Dict κ ν} {k : κ} (h : k ∈ d.keys) :
    (d.erase k).size + 1 = d.size := by
  rw [← length_keys, ← length_keys, keys_erase, List.length_erase_of_mem h]
  have hpos := List.length_pos_of_mem h
  omega

/-- What was set does not matter to a key that is then removed. -/
theorem erase_set_self (d : Dict κ ν) (k : κ) (v : ν) : (d.set k v).erase k = d.erase k := by
  apply Dict.ext
  change (d.set k v).entries.filter (fun e => e.1 ≠ k) = d.entries.filter fun e => e.1 ≠ k
  by_cases h : k ∈ d.keys
  · rw [entries_set_of_mem h]
    induction d.entries with
    | nil => rfl
    | cons e rest ih =>
        rw [List.map_cons]
        by_cases he : e.1 = k
        · rw [if_pos he, List.filter_cons_of_neg (by simp), List.filter_cons_of_neg (by simpa),
            ih]
        · rw [if_neg he, List.filter_cons_of_pos (by simpa), List.filter_cons_of_pos (by simpa),
            ih]
  · rw [entries_set_of_notMem h, List.filter_append]
    simp

theorem mem_keys_iff (d : Dict κ ν) (k : κ) : k ∈ d.keys ↔ ∃ v, d.get? k = some v := by
  rw [← not_iff_not, ← get?_eq_none_iff, ← Option.isSome_iff_exists]
  simp

theorem mem_keys_of_get? {d : Dict κ ν} {k : κ} {v : ν} (h : d.get? k = some v) : k ∈ d.keys :=
  (d.mem_keys_iff k).mpr ⟨v, h⟩

/-- The entries are what the keys lead to. -/
theorem mem_entries_iff (d : Dict κ ν) (k : κ) (v : ν) :
    (k, v) ∈ d.entries ↔ d.get? k = some v := by
  rw [get?, List.lookup_eq_some_iff]
  constructor
  · intro h
    obtain ⟨front, back, hsplit⟩ := List.append_of_mem h
    refine ⟨front, back, hsplit, ?_⟩
    intro e he
    have hnodup := d.nodup
    rw [hsplit, List.map_append, List.map_cons, List.nodup_middle, List.nodup_cons] at hnodup
    apply bne_iff_ne.mpr
    intro hk
    exact hnodup.1 (List.mem_append_left _ (List.mem_map.mpr ⟨e, he, hk.symm⟩))
  · rintro ⟨front, back, hsplit, -⟩
    rw [hsplit]
    exact List.mem_append_right _ List.mem_cons_self

theorem mem_values_iff (d : Dict κ ν) (v : ν) : v ∈ d.values ↔ ∃ k, d.get? k = some v := by
  rw [values, List.mem_map]
  constructor
  · rintro ⟨⟨k, _⟩, he, rfl⟩
    exact ⟨k, (d.mem_entries_iff k _).mp he⟩
  · rintro ⟨k, hk⟩
    exact ⟨(k, v), (d.mem_entries_iff k v).mpr hk, rfl⟩

theorem eq_or_mem_values_of_set {d : Dict κ ν} {k : κ} {v w : ν} (h : w ∈ (d.set k v).values) :
    w = v ∨ w ∈ d.values := by
  obtain ⟨j, hj⟩ := ((d.set k v).mem_values_iff w).mp h
  rw [get?_set] at hj
  split at hj
  · exact .inl (Option.some.inj hj).symm
  · exact .inr ((d.mem_values_iff w).mpr ⟨j, hj⟩)

theorem size_set_le (d : Dict κ ν) (k : κ) (v : ν) : (d.set k v).size ≤ d.size + 1 := by
  by_cases h : k ∈ d.keys
  · rw [size_set_of_mem h]
    exact Nat.le_succ _
  · exact Nat.le_of_eq (size_set_of_notMem h v)

theorem size_le_set (d : Dict κ ν) (k : κ) (v : ν) : d.size ≤ (d.set k v).size := by
  by_cases h : k ∈ d.keys
  · exact Nat.le_of_eq (size_set_of_mem h v).symm
  · rw [size_set_of_notMem h]
    exact Nat.le_succ _

end Dict
