import Mathlib.Data.List.Perm.Subperm
import SpectrumAnalyzer.Host.Assembler

/-!
# What a push can do

Any chunk pushed into any sound assembler.  `push_cases` names the exits of
`SpectrumAssembler.push`: the chunk opens a group, opens one in the place of the oldest,
is rejected together with its group, joins its group, or completes it.  What is said of
whole histories of pushes is derived from it.

## Main definitions

* `OpenGroup`, `Sound` — the representation invariant of the assembler.
* `Pushed`, `push_cases` — the exits of a push.
* `sound_after` — every history of pushes leaves a sound assembler.
-/

namespace SpectrumAnalyzer.Host

/-! ## The representation invariant -/

/-- A group that waits for more chunks. -/
structure OpenGroup (key : ℕ × ℕ) (parts : Dict ℕ SpectrumChunk) : Prop where
  nonempty : 1 ≤ parts.size
  incomplete : parts.size ≤ 3
  indexed : ∀ i d, parts.get? i = some d → i < 4 ∧ d.chunkIndex = i
  keyed : ∀ d ∈ parts.values, d.key = key
  agrees : ∀ d ∈ parts.values, ∀ e ∈ parts.values, d.invariant = e.invariant

/-- What holds of an assembler between two pushes. -/
structure Sound (a : SpectrumAssembler) : Prop where
  bounded : a.pending.size ≤ maxPendingSpectra
  groups : ∀ key parts, a.pending.get? key = some parts → OpenGroup key parts

/-- A group of one chunk. -/
def single (c : SpectrumChunk) : Dict ℕ SpectrumChunk := Dict.empty.set c.chunkIndex c

theorem size_single (c : SpectrumChunk) : (single c).size = 1 := rfl

theorem get?_single (c : SpectrumChunk) (i : ℕ) :
    (single c).get? i = if i = c.chunkIndex then some c else none := by
  rw [single, Dict.get?_set, Dict.get?_empty]

theorem OpenGroup.single {c : SpectrumChunk} (hc : c.chunkIndex < 4) :
    OpenGroup c.key (single c) := by
  have hvalues : (Host.single c).values = [c] := rfl
  constructor
  · exact le_rfl
  · rw [size_single]
    decide
  · intro i d hd
    rw [get?_single] at hd
    split at hd
    · next hi =>
        cases hd
        exact ⟨hi ▸ hc, hi.symm⟩
    · cases hd
  · intro d hd
    rw [hvalues, List.mem_singleton] at hd
    rw [hd]
  · intro d hd e he
    rw [hvalues, List.mem_singleton] at hd he
    rw [hd, he]

/-- A chunk of the same spectrum keeps a group open unless it completes it. -/
theorem OpenGroup.set {key : ℕ × ℕ} {parts : Dict ℕ SpectrumChunk} {c reference : SpectrumChunk}
    (h : OpenGroup key parts) (hc : c.chunkIndex < 4) (hkey : c.key = key)
    (href : reference ∈ parts.values) (heq : c.invariant = reference.invariant)
    (hsize : (parts.set c.chunkIndex c).size ≠ 4) :
    OpenGroup key (parts.set c.chunkIndex c) := by
  have hagrees : ∀ d ∈ (parts.set c.chunkIndex c).values, d.invariant = reference.invariant := by
    intro d hd
    rcases Dict.eq_or_mem_values_of_set hd with rfl | hd
    · exact heq
    · exact h.agrees d hd reference href
  constructor
  · exact h.nonempty.trans (parts.size_le_set _ _)
  · have hle := parts.size_set_le c.chunkIndex c
    have hfew := h.incomplete
    omega
  · intro i d hd
    rw [Dict.get?_set] at hd
    split at hd
    · next hi =>
        cases hd
        exact ⟨hi ▸ hc, hi.symm⟩
    · exact h.indexed i d hd
  · intro d hd
    rcases Dict.eq_or_mem_values_of_set hd with rfl | hd
    · exact hkey
    · exact h.keyed d hd
  · intro d hd e he
    rw [hagrees d hd, hagrees e he]

/-- With one more chunk, the indices of a group are still below four. -/
theorem OpenGroup.keys_lt {key : ℕ × ℕ} {parts : Dict ℕ SpectrumChunk} {c : SpectrumChunk}
    (h : OpenGroup key parts) (hc : c.chunkIndex < 4) :
    ∀ i ∈ (parts.set c.chunkIndex c).keys, i < 4 := by
  intro i hi
  rcases Dict.mem_keys_set.mp hi with rfl | hi
  · exact hc
  · obtain ⟨d, hd⟩ := (parts.mem_keys_iff i).mp hi
    exact (h.indexed i d hd).1

/-- With one more chunk of its spectrum, whatever a group holds is in its place. -/
theorem OpenGroup.placed {key : ℕ × ℕ} {parts : Dict ℕ SpectrumChunk} {c : SpectrumChunk}
    (h : OpenGroup key parts) (hkey : c.key = key) {i : ℕ} {d : SpectrumChunk}
    (hd : (parts.set c.chunkIndex c).get? i = some d) : d.key = key ∧ d.chunkIndex = i := by
  rw [Dict.get?_set] at hd
  split at hd
  · next hi =>
      cases hd
      exact ⟨hkey, hi.symm⟩
  · exact ⟨h.keyed d ((parts.mem_values_iff d).mpr ⟨i, hd⟩), (h.indexed i d hd).2⟩

/-- Setting a group. -/
theorem Sound.set {a b : SpectrumAssembler} (h : Sound a) {key : ℕ × ℕ}
    {parts : Dict ℕ SpectrumChunk} (hparts : OpenGroup key parts)
    (hpending : b.pending = a.pending.set key parts) (hsize : b.pending.size ≤ maxPendingSpectra) :
    Sound b := by
  refine ⟨hsize, ?_⟩
  intro k p hp
  rw [hpending, Dict.get?_set] at hp
  split at hp
  · next hk =>
      cases hp
      exact hk ▸ hparts
  · exact h.groups k p hp

/-- Removing a group. -/
theorem Sound.erase {a b : SpectrumAssembler} (h : Sound a) {key : ℕ × ℕ}
    (hpending : b.pending = a.pending.erase key) : Sound b := by
  constructor
  · rw [hpending]
    exact (a.pending.size_erase_le key).trans h.bounded
  · intro k p hp
    rw [hpending, Dict.get?_erase] at hp
    split at hp
    · cases hp
    · exact h.groups k p hp

/-! ## The exits of a push -/

namespace SpectrumAssembler

variable {a : SpectrumAssembler} {c : SpectrumChunk}

/-- The duplicates after `c` was stored into `parts`. -/
def duplicatesWith (a : SpectrumAssembler) (parts : Dict ℕ SpectrumChunk) (c : SpectrumChunk) :
    ℕ :=
  if c.chunkIndex ∈ parts.keys then a.duplicateChunks + 1 else a.duplicateChunks

/-- The exits of a push, with the state and the outcome of each. -/
inductive Pushed (a : SpectrumAssembler) (c : SpectrumChunk) :
    SpectrumAssembler × PushOutcome → Prop
  | opened (hnew : c.key ∉ a.pending.keys) (hroom : a.pending.size < maxPendingSpectra) :
      Pushed a c ({ a with pending := a.pending.set c.key (single c) }, .none)
  | evicted (oldest : ℕ × ℕ) (hnew : c.key ∉ a.pending.keys)
      (hfull : maxPendingSpectra ≤ a.pending.size) (hold : a.pending.oldest = some oldest) :
      Pushed a c ({ a with
        pending := (a.pending.erase oldest).set c.key (single c)
        incompleteEvictions := a.incompleteEvictions + 1 }, .none)
  | rejected (parts : Dict ℕ SpectrumChunk) (reference : SpectrumChunk)
      (hget : a.pending.get? c.key = some parts) (href : reference ∈ parts.values)
      (hne : c.invariant ≠ reference.invariant) :
      Pushed a c ({ a with
        pending := a.pending.erase c.key
        inconsistentChunks := a.inconsistentChunks + 1 }, .none)
  | joined (parts : Dict ℕ SpectrumChunk) (reference : SpectrumChunk)
      (hget : a.pending.get? c.key = some parts) (href : reference ∈ parts.values)
      (heq : c.invariant = reference.invariant)
      (hsize : (parts.set c.chunkIndex c).size ≠ 4) :
      Pushed a c ({ a with
        pending := a.pending.set c.key (parts.set c.chunkIndex c)
        duplicateChunks := a.duplicatesWith parts c }, .none)
  | completed (parts : Dict ℕ SpectrumChunk) (reference : SpectrumChunk) (chunk : ℕ → SpectrumChunk)
      (hget : a.pending.get? c.key = some parts) (href : reference ∈ parts.values)
      (heq : c.invariant = reference.invariant)
      (hsize : (parts.set c.chunkIndex c).size = 4)
      (hchunk : ∀ i < 4, (parts.set c.chunkIndex c).get? i = some (chunk i)) :
      Pushed a c ({ a with
        pending := a.pending.erase c.key
        duplicateChunks := a.duplicatesWith parts c },
        .frame (assemble (chunk 0) ((List.range 4).map chunk)))

/-- Four chunks with indices below four are one of each. -/
theorem exists_chunks {parts : Dict ℕ SpectrumChunk} (hindex : ∀ i ∈ parts.keys, i < 4)
    (hsize : parts.size = 4) :
    ∃ chunk : ℕ → SpectrumChunk, ∀ i < 4, parts.get? i = some (chunk i) := by
  have hperm : parts.keys.Perm (List.range 4) := by
    apply (List.subperm_of_subset parts.nodup_keys _).perm_of_length_le
    · rw [Dict.length_keys, hsize, List.length_range]
    · intro i hi
      exact List.mem_range.mpr (hindex i hi)
  have hall : ∀ i, i < 4 → (parts.get? i).isSome := by
    intro i hi
    obtain ⟨d, hd⟩ := (parts.mem_keys_iff i).mp (hperm.mem_iff.mpr (List.mem_range.mpr hi))
    rw [hd]
    rfl
  obtain ⟨d, -⟩ := Option.isSome_iff_exists.mp (hall 0 (by decide))
  refine ⟨fun i => (parts.get? i).getD d, ?_⟩
  intro i hi
  obtain ⟨e, he⟩ := Option.isSome_iff_exists.mp (hall i hi)
  change _ = some ((parts.get? i).getD d)
  rw [he, Option.getD_some]

/-- Storing a chunk that agrees with its group. -/
theorem pushed_store {parts : Dict ℕ SpectrumChunk} {reference : SpectrumChunk}
    (hc : c.chunkIndex < 4) (hget : a.pending.get? c.key = some parts)
    (hgroup : OpenGroup c.key parts) (href : reference ∈ parts.values)
    (heq : c.invariant = reference.invariant) : Pushed a c (a.store parts c) := by
  by_cases hsize : (parts.set c.chunkIndex c).size = 4
  · obtain ⟨chunk, hchunk⟩ := exists_chunks (hgroup.keys_lt hc) hsize
    have hordered : (List.range chunkCountPerSpectrum).mapM (parts.set c.chunkIndex c).get? =
        some (chunk 0 :: [chunk 1, chunk 2, chunk 3]) := by
      simp [chunkCountPerSpectrum, List.range_succ, hchunk]
    have hstore : a.store parts c = ({ a with
        pending := a.pending.erase c.key
        duplicateChunks := a.duplicatesWith parts c },
        .frame (assemble (chunk 0) ((List.range 4).map chunk))) := by
      have hcount : (parts.set c.chunkIndex c).size = chunkCountPerSpectrum := hsize
      rw [store]
      simp only [hcount, hordered, ne_eq, not_true_eq_false, if_false, Dict.erase_set_self]
      rfl
    rw [hstore]
    exact .completed parts reference chunk hget href heq hsize hchunk
  · have hstore : a.store parts c = ({ a with
        pending := a.pending.set c.key (parts.set c.chunkIndex c)
        duplicateChunks := a.duplicatesWith parts c }, .none) := by
      rw [store]
      simp only [chunkCountPerSpectrum, hsize, ne_eq, not_false_eq_true, if_true]
      rfl
    rw [hstore]
    exact .joined parts reference hget href heq hsize

/-- A chunk that opens a group is stored into it. -/
theorem store_new (a : SpectrumAssembler) (c : SpectrumChunk) :
    ({ a with pending := a.pending.set c.key .empty } : SpectrumAssembler).store .empty c =
      ({ a with pending := a.pending.set c.key (single c) }, .none) := by
  have hsize : (single c).size ≠ chunkCountPerSpectrum := by
    rw [size_single]
    decide
  rw [store]
  simp only [← single.eq_1, hsize, ne_eq, not_false_eq_true, if_true, Dict.set_set,
    Dict.keys_empty, List.not_mem_nil, if_false]

/-- **The exits of a push.** -/
theorem push_cases (ha : Sound a) (hc : c.chunkIndex < 4) : Pushed a c (a.push c) := by
  by_cases hkey : c.key ∈ a.pending.keys
  · obtain ⟨parts, hget⟩ := (a.pending.mem_keys_iff c.key).mp hkey
    have hgroup := ha.groups c.key parts hget
    rw [push]
    simp only [makeRoom_of_mem hkey, setDefault_of_mem hkey, hget, Option.getD_some]
    split
    · next reference hhead =>
        have href : reference ∈ parts.values := List.mem_of_head? hhead
        split
        · next hne => exact .rejected parts reference hget href hne
        · next heq => exact pushed_store hc hget hgroup href (not_not.mp heq)
    · next hhead =>
        have hnone := hgroup.nonempty
        rw [List.head?_eq_none_iff, Dict.values, List.map_eq_nil_iff] at hhead
        rw [Dict.size, hhead] at hnone
        exact absurd hnone (by decide)
  · have hopen : ∀ b : SpectrumAssembler, c.key ∉ b.pending.keys → a.makeRoom c.key = b →
        a.push c = ({ b with pending := b.pending.set c.key (single c) }, .none) := by
      intro b hb hroom
      have hget : (b.pending.set c.key .empty).get? c.key = some (.empty : Dict ℕ SpectrumChunk) :=
        Dict.get?_set_self _ _ _
      rw [push]
      simp only [hroom, setDefault_of_notMem hb, hget, Option.getD_some]
      exact store_new b c
    by_cases hfull : maxPendingSpectra ≤ a.pending.size
    · obtain ⟨oldest, hold, -⟩ := Dict.exists_oldest (d := a.pending) (by
        rw [maxPendingSpectra] at hfull
        omega)
      have hroom : a.makeRoom c.key = { a with
          pending := a.pending.erase oldest
          incompleteEvictions := a.incompleteEvictions + 1 } := by
        rw [makeRoom, if_pos ⟨hkey, hfull⟩, hold]
      rw [hopen _ (fun h => hkey (Dict.mem_keys_erase.mp h).2) hroom]
      exact .evicted oldest hkey hfull hold
    · have hroom : a.makeRoom c.key = a := by
        rw [makeRoom, if_neg (fun h => hfull h.2)]
      rw [hopen a hkey hroom]
      exact .opened hkey (Nat.lt_of_not_le hfull)

/-! ## Histories -/

theorem sound_init : Sound init := by
  constructor
  · exact Nat.zero_le _
  · intro key parts hget
    cases hget

/-- Every exit of a push restores the invariant. -/
theorem Pushed.sound {r : SpectrumAssembler × PushOutcome} (h : Pushed a c r) (ha : Sound a)
    (hc : c.chunkIndex < 4) : Sound r.1 := by
  cases h with
  | opened hnew hroom =>
      refine ha.set (OpenGroup.single hc) rfl ?_
      rw [Dict.size_set_of_notMem hnew]
      exact hroom
  | evicted oldest hnew hfull hold =>
      have hmem : oldest ∈ a.pending.keys := List.mem_of_head? hold
      have hcard := Dict.size_erase_of_mem hmem
      have hbound := ha.bounded
      have hrest : Sound { a with pending := a.pending.erase oldest } := ha.erase rfl
      refine hrest.set (OpenGroup.single hc) rfl ?_
      have hle := (a.pending.erase oldest).size_set_le c.key (single c)
      exact hle.trans (hcard.trans_le hbound)
  | rejected parts reference hget href hne => exact ha.erase rfl
  | joined parts reference hget href heq hsize =>
      have hgroup := (ha.groups c.key parts hget).set hc rfl href heq hsize
      refine ha.set hgroup rfl ?_
      rw [Dict.size_set_of_mem (Dict.mem_keys_of_get? hget)]
      exact ha.bounded
  | completed parts reference chunk hget href heq hsize hchunk => exact ha.erase rfl

/-- The assembler after a history of pushes. -/
def after (history : List SpectrumChunk) : SpectrumAssembler := Machine.final push init history

theorem after_snoc (history : List SpectrumChunk) (c : SpectrumChunk) :
    after (history ++ [c]) = ((after history).push c).1 := Machine.final_snoc push init history c

/-- An invariant of histories of chunks whose indices are valid. -/
theorem after_induction {P : List SpectrumChunk → SpectrumAssembler → Prop} (h0 : P [] init)
    (hstep : ∀ history c, c.chunkIndex < 4 → Sound (after history) →
      P history (after history) → P (history ++ [c]) ((after history).push c).1)
    {history : List SpectrumChunk} (hindex : ∀ d ∈ history, d.chunkIndex < 4) :
    Sound (after history) ∧ P history (after history) := by
  induction history using List.reverseRecOn with
  | nil => exact ⟨sound_init, h0⟩
  | append_singleton history c ih =>
      have hc := hindex c (List.mem_append_right _ (List.mem_singleton_self c))
      obtain ⟨hsound, hP⟩ := ih fun d hd => hindex d (List.mem_append_left _ hd)
      rw [after_snoc]
      exact ⟨(push_cases hsound hc).sound hsound hc, hstep history c hc hsound hP⟩

theorem sound_after {history : List SpectrumChunk} (hindex : ∀ d ∈ history, d.chunkIndex < 4) :
    Sound (after history) :=
  (after_induction (P := fun _ _ => True) trivial (fun _ _ _ _ _ => trivial) hindex).1

end SpectrumAssembler

end SpectrumAnalyzer.Host
