import Mathlib.Data.List.Dedup
import SpectrumAnalyzer.Host.Histories

/-!
# Interleaved spectra

Spectra whose chunks arrive in any order, mixed with one another, each chunk once.  As
long as no more than sixteen are begun and not finished, the assembler holds of each
exactly the chunks that have arrived, and emits each with its last.

## Main definitions

* `Interleaving` — the chunks of some spectra in any order.
* `arrived`, `unfinished` — the spectra that are begun and not finished.
* `Collects` — what the assembler holds on the way.
* `interleaving_complete` — every spectrum is emitted once, with its last chunk.
-/

namespace SpectrumAnalyzer.Host

/-- The chunks of the spectra `part key`, in any order. -/
structure Interleaving (keys : List (ℕ × ℕ)) (part : ℕ × ℕ → ℕ → SpectrumChunk)
    (pushes : List SpectrumChunk) : Prop where
  nodup : keys.Nodup
  orderly : ∀ key ∈ keys, Orderly key (part key)
  perm : pushes.Perm (keys.flatMap fun key => (List.range 4).map (part key))

/-- How many chunks of a key have arrived. -/
def arrived (key : ℕ × ℕ) (past : List SpectrumChunk) : ℕ := past.countP fun c => c.key = key

/-- The keys that are begun and not finished. -/
def unfinished (past : List SpectrumChunk) : List (ℕ × ℕ) :=
  (past.map SpectrumChunk.key).dedup.filter fun key => arrived key past < 4

theorem arrived_append (key : ℕ × ℕ) (past future : List SpectrumChunk) :
    arrived key (past ++ future) = arrived key past + arrived key future := List.countP_append

theorem arrived_snoc (key : ℕ × ℕ) (past : List SpectrumChunk) (c : SpectrumChunk) :
    arrived key (past ++ [c]) = arrived key past + if c.key = key then 1 else 0 := by
  rw [arrived_append, arrived, arrived, List.countP_singleton]
  simp only [decide_eq_true_eq]

theorem arrived_pos_iff {key : ℕ × ℕ} {past : List SpectrumChunk} :
    0 < arrived key past ↔ ∃ c ∈ past, c.key = key := by
  rw [arrived, List.countP_pos_iff]
  simp only [decide_eq_true_eq]

theorem mem_unfinished_iff {key : ℕ × ℕ} {past : List SpectrumChunk} :
    key ∈ unfinished past ↔ 0 < arrived key past ∧ arrived key past < 4 := by
  rw [unfinished, List.mem_filter, List.mem_dedup, List.mem_map, arrived_pos_iff,
    decide_eq_true_eq]

theorem nodup_unfinished (past : List SpectrumChunk) : (unfinished past).Nodup :=
  (List.nodup_dedup _).filter _

namespace Interleaving

variable {keys : List (ℕ × ℕ)} {part : ℕ × ℕ → ℕ → SpectrumChunk} {pushes : List SpectrumChunk}

theorem mem_iff (h : Interleaving keys part pushes) (c : SpectrumChunk) :
    c ∈ pushes ↔ ∃ key ∈ keys, ∃ i < 4, part key i = c := by
  rw [h.perm.mem_iff, List.mem_flatMap]
  simp only [List.mem_map, List.mem_range]

/-- A chunk is the one of its spectrum at its index. -/
theorem eq_part (h : Interleaving keys part pushes) {c : SpectrumChunk} (hc : c ∈ pushes) :
    c.key ∈ keys ∧ c.chunkIndex < 4 ∧ part c.key c.chunkIndex = c := by
  obtain ⟨key, hkey, i, hi, rfl⟩ := (h.mem_iff c).mp hc
  have horderly := h.orderly key hkey
  rw [horderly.key_eq i hi, horderly.chunkIndex_eq i hi]
  exact ⟨hkey, hi, rfl⟩

theorem invariant_eq (h : Interleaving keys part pushes) {c d : SpectrumChunk} (hc : c ∈ pushes)
    (hd : d ∈ pushes) (hkey : c.key = d.key) : c.invariant = d.invariant := by
  obtain ⟨hmem, hci, hcp⟩ := h.eq_part hc
  obtain ⟨-, hdi, hdp⟩ := h.eq_part hd
  have horderly := h.orderly c.key hmem
  rw [← hcp, ← hdp, ← hkey, horderly.invariant_eq _ hci, horderly.invariant_eq _ hdi]

theorem nodup_pushes (h : Interleaving keys part pushes) : pushes.Nodup := by
  rw [h.perm.nodup_iff, List.nodup_flatMap]
  constructor
  · intro key hkey
    have horderly := h.orderly key hkey
    refine List.nodup_range.map_on ?_
    intro i hi j hj heq
    rw [← horderly.chunkIndex_eq i (List.mem_range.mp hi), heq,
      horderly.chunkIndex_eq j (List.mem_range.mp hj)]
  · refine h.nodup.imp_of_mem ?_
    intro j k hj hk hne c hcj hck
    obtain ⟨m, hm, rfl⟩ := List.mem_map.mp hcj
    obtain ⟨n, hn, heq⟩ := List.mem_map.mp hck
    apply hne
    rw [← (h.orderly j hj).key_eq m (List.mem_range.mp hm), ← heq,
      (h.orderly k hk).key_eq n (List.mem_range.mp hn)]

theorem arrived_spectrum (h : Interleaving keys part pushes) (key : ℕ × ℕ) {k : ℕ × ℕ}
    (hk : k ∈ keys) : arrived key ((List.range 4).map (part k)) = if k = key then 4 else 0 := by
  have hown : ∀ c ∈ (List.range 4).map (part k), c.key = k := by
    intro c hc
    obtain ⟨i, hi, rfl⟩ := List.mem_map.mp hc
    exact (h.orderly k hk).key_eq i (List.mem_range.mp hi)
  rw [arrived]
  by_cases hkk : k = key
  · rw [if_pos hkk, List.countP_eq_length.mpr, List.length_map, List.length_range]
    intro c hc
    simp [hown c hc, hkk]
  · rw [if_neg hkk, List.countP_eq_zero]
    intro c hc
    simp [hown c hc, hkk]

/-- Four chunks of every spectrum arrive. -/
theorem arrived_pushes (h : Interleaving keys part pushes) {key : ℕ × ℕ} (hkey : key ∈ keys) :
    arrived key pushes = 4 := by
  have hspectra : ∀ ks : List (ℕ × ℕ), ks.Nodup → (∀ k ∈ ks, k ∈ keys) →
      arrived key (ks.flatMap fun k => (List.range 4).map (part k)) =
        if key ∈ ks then 4 else 0 := by
    intro ks hnodup hks
    induction ks with
    | nil => rfl
    | cons k ks ih =>
        obtain ⟨hk, hnodup⟩ := List.nodup_cons.mp hnodup
        rw [List.flatMap_cons, arrived_append, h.arrived_spectrum key (hks k List.mem_cons_self),
          ih hnodup fun j hj => hks j (List.mem_cons_of_mem k hj)]
        by_cases hkk : k = key
        · subst hkk
          simp [hk]
        · simp [hkk, Ne.symm hkk]
  rw [arrived, h.perm.countP_eq]
  exact (hspectra keys h.nodup fun _ hk => hk).trans (if_pos hkey)

/-- No more spectra are unfinished than there are. -/
theorem length_unfinished_le (h : Interleaving keys part pushes) {past : List SpectrumChunk}
    (hinit : past <+: pushes) : (unfinished past).length ≤ keys.length := by
  refine (List.subperm_of_subset (nodup_unfinished past) ?_).length_le
  intro key hkey
  obtain ⟨c, hc, rfl⟩ := arrived_pos_iff.mp (mem_unfinished_iff.mp hkey).1
  exact (h.eq_part (hinit.subset hc)).1

end Interleaving

/-! ## What the assembler holds on the way -/

/-- The groups hold exactly the chunks of the unfinished spectra. -/
structure Collects (past : List SpectrumChunk)
    (pending : Dict (ℕ × ℕ) (Dict ℕ SpectrumChunk)) : Prop where
  keys : ∀ key, key ∈ pending.keys ↔ key ∈ unfinished past
  size : ∀ key parts, pending.get? key = some parts → parts.size = arrived key past
  chunks : ∀ key parts, pending.get? key = some parts → ∀ d ∈ parts.values, d ∈ past

/-- Nothing was evicted, repeated or rejected. -/
def Calm (a : SpectrumAssembler) : Prop :=
  a.incompleteEvictions = 0 ∧ a.duplicateChunks = 0 ∧ a.inconsistentChunks = 0

namespace Collects

variable {past : List SpectrumChunk} {c : SpectrumChunk}
  {pending : Dict (ℕ × ℕ) (Dict ℕ SpectrumChunk)}

/-- A chunk does not touch the other spectra. -/
theorem mem_unfinished_snoc {key : ℕ × ℕ} (hkey : key ≠ c.key) :
    key ∈ unfinished (past ++ [c]) ↔ key ∈ unfinished past := by
  rw [mem_unfinished_iff, mem_unfinished_iff, arrived_snoc, if_neg hkey.symm, Nat.add_zero]

/-- After a push it is enough to look at the spectrum of the chunk. -/
theorem of_own (h : Collects past pending) {pending' : Dict (ℕ × ℕ) (Dict ℕ SpectrumChunk)}
    (hother : ∀ key, key ≠ c.key → pending'.get? key = pending.get? key)
    (hkeys : c.key ∈ pending'.keys ↔ c.key ∈ unfinished (past ++ [c]))
    (hown : ∀ parts, pending'.get? c.key = some parts →
      parts.size = arrived c.key (past ++ [c]) ∧ ∀ d ∈ parts.values, d ∈ past ++ [c]) :
    Collects (past ++ [c]) pending' := by
  constructor
  · intro key
    by_cases hkey : key = c.key
    · rw [hkey]
      exact hkeys
    · rw [mem_unfinished_snoc hkey, ← h.keys key, Dict.mem_keys_iff, Dict.mem_keys_iff,
        hother key hkey]
  · intro key parts hget
    by_cases hkey : key = c.key
    · subst hkey
      exact (hown parts hget).1
    · rw [hother key hkey] at hget
      rw [arrived_snoc, if_neg (Ne.symm hkey), Nat.add_zero, h.size key parts hget]
  · intro key parts hget
    by_cases hkey : key = c.key
    · subst hkey
      exact (hown parts hget).2
    · rw [hother key hkey] at hget
      intro d hd
      exact List.mem_append_left _ (h.chunks key parts hget d hd)

/-- The spectrum of the chunk stays unfinished. -/
theorem set (h : Collects past pending) {parts : Dict ℕ SpectrumChunk}
    (hsize : parts.size = arrived c.key (past ++ [c])) (hless : arrived c.key (past ++ [c]) < 4)
    (hchunks : ∀ d ∈ parts.values, d ∈ past ++ [c]) :
    Collects (past ++ [c]) (pending.set c.key parts) := by
  apply h.of_own
  · intro key hkey
    exact Dict.get?_set_of_ne _ hkey _
  · have hpos : 0 < arrived c.key (past ++ [c]) := by
      rw [arrived_snoc, if_pos rfl]
      exact Nat.succ_pos _
    exact iff_of_true (Dict.mem_keys_set.mpr (.inl rfl)) (mem_unfinished_iff.mpr ⟨hpos, hless⟩)
  · intro p hget
    rw [Dict.get?_set_self, Option.some_inj] at hget
    rw [← hget]
    exact ⟨hsize, hchunks⟩

/-- The spectrum of the chunk is finished. -/
theorem erase (h : Collects past pending) (hlast : 4 ≤ arrived c.key (past ++ [c])) :
    Collects (past ++ [c]) (pending.erase c.key) := by
  apply h.of_own
  · intro key hkey
    rw [Dict.get?_erase, if_neg hkey]
  · refine iff_of_false (fun hmem => (Dict.mem_keys_erase.mp hmem).1 rfl) ?_
    intro hmem
    exact Nat.not_lt_of_le hlast (mem_unfinished_iff.mp hmem).2
  · intro p hget
    rw [Dict.get?_erase_self] at hget
    cases hget

end Collects

/-! ## One push of an interleaving -/

section Push
variable {keys : List (ℕ × ℕ)} {part : ℕ × ℕ → ℕ → SpectrumChunk} {past future : List SpectrumChunk}
  {c : SpectrumChunk} {a : SpectrumAssembler}

/-- The frame of a spectrum. -/
def frameOfParts (part : ℕ × ℕ → ℕ → SpectrumChunk) (key : ℕ × ℕ) : SpectrumFrame :=
  SpectrumAssembler.assemble (part key 0) ((List.range 4).map (part key))

/-- A group does not hold the chunk that is pushed. -/
theorem index_fresh (h : Interleaving keys part (past ++ c :: future)) (hsound : Sound a)
    (ha : Collects past a.pending) {parts : Dict ℕ SpectrumChunk}
    (hget : a.pending.get? c.key = some parts) : c.chunkIndex ∉ parts.keys := by
  intro hmem
  obtain ⟨d, hd⟩ := (parts.mem_keys_iff _).mp hmem
  have hgroup := hsound.groups c.key parts hget
  have hvalue : d ∈ parts.values := (parts.mem_values_iff d).mpr ⟨_, hd⟩
  have hpast : d ∈ past := ha.chunks c.key parts hget d hvalue
  have hdpart := (h.eq_part (List.mem_append_left _ hpast)).2.2
  have hcpart := (h.eq_part (List.mem_append_right past List.mem_cons_self)).2.2
  rw [hgroup.keyed d hvalue, (hgroup.indexed _ d hd).2, hcpart] at hdpart
  have hnodup := h.nodup_pushes
  rw [List.nodup_middle, List.nodup_cons] at hnodup
  rw [hdpart] at hnodup
  exact hnodup.1 (List.mem_append_left _ hpast)

/-- There is room for one more group. -/
theorem size_lt_of_new (ha : Collects past a.pending) (hnew : c.key ∉ a.pending.keys)
    (hbegun : c.key ∈ unfinished (past ++ [c]))
    (hbound : (unfinished (past ++ [c])).length ≤ maxPendingSpectra) :
    a.pending.size < maxPendingSpectra := by
  have hnodup : (c.key :: a.pending.keys).Nodup :=
    List.nodup_cons.mpr ⟨hnew, a.pending.nodup_keys⟩
  have hsub : c.key :: a.pending.keys ⊆ unfinished (past ++ [c]) := by
    intro key hkey
    rcases List.mem_cons.mp hkey with rfl | hkey
    · exact hbegun
    · have hne : key ≠ c.key := fun heq => hnew (heq ▸ hkey)
      exact (Collects.mem_unfinished_snoc hne).mpr ((ha.keys key).mp hkey)
  have hlength := (List.subperm_of_subset hnodup hsub).length_le
  rw [List.length_cons, Dict.length_keys] at hlength
  omega

/-- A push of an interleaving: the group grows, and is emitted with its last chunk. -/
theorem push_interleaved (h : Interleaving keys part (past ++ c :: future)) (hsound : Sound a)
    (ha : Collects past a.pending) (hcalm : Calm a)
    (hbound : (unfinished (past ++ [c])).length ≤ maxPendingSpectra)
    (hpush : SpectrumAssembler.Pushed a c (a.push c)) :
    Collects (past ++ [c]) (a.push c).1.pending ∧ Calm (a.push c).1 ∧
      (a.push c).2 = if arrived c.key future = 0 then .frame (frameOfParts part c.key)
        else .none := by
  have hc : c ∈ past ++ c :: future := List.mem_append_right past List.mem_cons_self
  have hearlier : ∀ d ∈ past ++ [c], d ∈ past ++ c :: future := by
    intro d hd
    rw [← List.singleton_append, ← List.append_assoc]
    exact List.mem_append_left _ hd
  have htotal := h.arrived_pushes (h.eq_part hc).1
  have hgrown : arrived c.key (past ++ [c]) = arrived c.key past + 1 := by
    rw [arrived_snoc, if_pos rfl]
  rw [← List.singleton_append, ← List.append_assoc, arrived_append, hgrown] at htotal
  -- a key that has no group has no chunk yet
  have hnone : c.key ∉ a.pending.keys → arrived c.key past = 0 := by
    intro hnew
    by_contra hsome
    exact hnew ((ha.keys c.key).mpr (mem_unfinished_iff.mpr (by omega)))
  have hsingle : ∀ d ∈ (single c).values, d ∈ past ++ [c] := by
    intro d hd
    exact List.mem_append_right past hd
  have hjoined : ∀ parts, a.pending.get? c.key = some parts →
      (parts.set c.chunkIndex c).size = arrived c.key (past ++ [c]) ∧
      (∀ d ∈ (parts.set c.chunkIndex c).values, d ∈ past ++ [c]) ∧
      a.duplicatesWith parts c = a.duplicateChunks := by
    intro parts hget
    have hfresh := index_fresh h hsound ha hget
    refine ⟨?_, ?_, if_neg hfresh⟩
    · rw [Dict.size_set_of_notMem hfresh, ha.size c.key parts hget, hgrown]
    · intro d hd
      rcases Dict.eq_or_mem_values_of_set hd with rfl | hd
      · exact List.mem_append_right past (List.mem_singleton_self d)
      · exact List.mem_append_left _ (ha.chunks c.key parts hget d hd)
  generalize a.push c = r at hpush ⊢
  cases hpush with
  | opened hnew hroom =>
      have hzero := hnone hnew
      rw [if_neg (by omega)]
      refine ⟨ha.set ?_ (by omega) hsingle, hcalm, rfl⟩
      rw [size_single, hgrown, hzero]
  | evicted oldest hnew hfull hold =>
      have hzero := hnone hnew
      have hroom := size_lt_of_new ha hnew (mem_unfinished_iff.mpr (by omega)) hbound
      omega
  | rejected parts reference hget href hne =>
      have hkey := (hsound.groups c.key parts hget).keyed reference href
      have hpast := hearlier reference (List.mem_append_left _ (ha.chunks c.key parts hget _ href))
      exact absurd (h.invariant_eq hc hpast hkey.symm) hne
  | joined parts reference hget href heq hsize =>
      obtain ⟨hcount, hchunks, hduplicates⟩ := hjoined parts hget
      rw [if_neg (by omega)]
      refine ⟨ha.set hcount (by omega) hchunks, ?_, rfl⟩
      exact ⟨hcalm.1, hduplicates.trans hcalm.2.1, hcalm.2.2⟩
  | completed parts reference chunk hget href heq hsize hchunk =>
      obtain ⟨hcount, hchunks, hduplicates⟩ := hjoined parts hget
      have hpart : ∀ i < 4, chunk i = part c.key i := by
        intro i hi
        have hvalue : chunk i ∈ (parts.set c.chunkIndex c).values :=
          (Dict.mem_values_iff _ _).mpr ⟨i, hchunk i hi⟩
        obtain ⟨hkey, hindex⟩ := (hsound.groups c.key parts hget).placed rfl (hchunk i hi)
        have hsame := (h.eq_part (hearlier _ (hchunks _ hvalue))).2.2
        rw [hkey, hindex] at hsame
        exact hsame.symm
      rw [if_pos (by omega)]
      refine ⟨ha.erase (by omega), ⟨hcalm.1, hduplicates.trans hcalm.2.1, hcalm.2.2⟩, ?_⟩
      rw [frameOfParts, hpart 0 (by decide), List.map_congr_left]
      intro i hi
      exact hpart i (List.mem_range.mp hi)

end Push

/-! ## Whole interleavings -/

section Run
variable {keys : List (ℕ × ℕ)} {part : ℕ × ℕ → ℕ → SpectrumChunk} {pushes : List SpectrumChunk}

open SpectrumAssembler

/-- At every moment the assembler holds what has arrived of the unfinished spectra. -/
theorem collects_after (h : Interleaving keys part pushes)
    (hbound : ∀ past, past <+: pushes → (unfinished past).length ≤ maxPendingSpectra)
    (past future : List SpectrumChunk) (hsplit : pushes = past ++ future) :
    Sound (after past) ∧ Collects past (after past).pending ∧ Calm (after past) := by
  have hsound : ∀ past future, pushes = past ++ future → Sound (after past) := by
    intro past future hsplit
    apply sound_after
    intro d hd
    exact (h.eq_part (hsplit ▸ List.mem_append_left _ hd)).2.1
  refine ⟨hsound past future hsplit, ?_⟩
  induction past using List.reverseRecOn generalizing future with
  | nil =>
      refine ⟨⟨?_, ?_, ?_⟩, rfl, rfl, rfl⟩
      · intro key
        exact iff_of_false List.not_mem_nil List.not_mem_nil
      · intro key parts hget
        cases hget
      · intro key parts hget
        cases hget
  | append_singleton past c ih =>
      have hsplit' : pushes = past ++ c :: future := by
        rw [hsplit, List.append_assoc, List.singleton_append]
      obtain ⟨hcollects, hcalm⟩ := ih (c :: future) hsplit'
      have hpast := hsound past (c :: future) hsplit'
      have hindex := (h.eq_part (hsplit' ▸ List.mem_append_right past List.mem_cons_self)).2.1
      have hstep := push_interleaved (hsplit' ▸ h) hpast hcollects hcalm
        (hbound _ ⟨future, hsplit.symm⟩) (push_cases hpast hindex)
      rw [after_snoc]
      exact ⟨hstep.1, hstep.2.1⟩

/-- What the push of one chunk of an interleaving returns. -/
theorem outcome_after (h : Interleaving keys part pushes)
    (hbound : ∀ past, past <+: pushes → (unfinished past).length ≤ maxPendingSpectra)
    {past future : List SpectrumChunk} {c : SpectrumChunk} (hsplit : pushes = past ++ c :: future) :
    ((after past).push c).2 =
      if arrived c.key future = 0 then .frame (frameOfParts part c.key) else .none := by
  obtain ⟨hsound, hcollects, hcalm⟩ := collects_after h hbound past (c :: future) hsplit
  have hinit : past ++ [c] <+: pushes := ⟨future, by rw [hsplit]; simp⟩
  have hindex := (h.eq_part (hsplit ▸ List.mem_append_right past List.mem_cons_self)).2.1
  exact (push_interleaved (hsplit ▸ h) hsound hcollects hcalm (hbound _ hinit)
    (push_cases hsound hindex)).2.2

/-- The spectra whose chunks have all arrived. -/
def finished (keys : List (ℕ × ℕ)) (past : List SpectrumChunk) : List (ℕ × ℕ) :=
  keys.filter fun key => arrived key past = 4

theorem mem_finished_iff {key : ℕ × ℕ} {past : List SpectrumChunk} :
    key ∈ finished keys past ↔ key ∈ keys ∧ arrived key past = 4 := by
  rw [finished, List.mem_filter, decide_eq_true_eq]

/-- A spectrum is finished by its last chunk. -/
theorem finished_snoc (h : Interleaving keys part pushes) {past future : List SpectrumChunk}
    {c : SpectrumChunk} (hsplit : pushes = past ++ c :: future) :
    (finished keys (past ++ [c])).Perm
      ((if arrived c.key future = 0 then [c.key] else []) ++ finished keys past) := by
  have hkey := (h.eq_part (hsplit ▸ List.mem_append_right past List.mem_cons_self)).1
  have htotal := h.arrived_pushes hkey
  rw [hsplit, ← List.singleton_append, ← List.append_assoc, arrived_append, arrived_snoc,
    if_pos rfl] at htotal
  have hnew : c.key ∉ finished keys past := by
    rw [mem_finished_iff]
    omega
  have hmem : ∀ key, key ∈ finished keys (past ++ [c]) ↔
      (key = c.key ∧ arrived c.key future = 0) ∨ key ∈ finished keys past := by
    intro key
    rw [mem_finished_iff, mem_finished_iff, arrived_snoc]
    by_cases hc : c.key = key
    · subst hc
      rw [if_pos rfl]
      simp only [hkey, true_and]
      omega
    · simp [hc, Ne.symm hc]
  have hnodup : ∀ past, (finished keys past).Nodup := fun past => h.nodup.filter _
  by_cases hlast : arrived c.key future = 0
  · rw [if_pos hlast, List.singleton_append, List.perm_ext_iff_of_nodup (hnodup _)
      (List.nodup_cons.mpr ⟨hnew, hnodup _⟩)]
    intro key
    rw [hmem, List.mem_cons]
    simp [hlast]
  · rw [if_neg hlast, List.nil_append, List.perm_ext_iff_of_nodup (hnodup _) (hnodup _)]
    intro key
    rw [hmem]
    simp [hlast]

/-- The frames so far are those of the finished spectra. -/
theorem frames_after (h : Interleaving keys part pushes)
    (hbound : ∀ past, past <+: pushes → (unfinished past).length ≤ maxPendingSpectra)
    (past future : List SpectrumChunk) (hsplit : pushes = past ++ future) :
    (Machine.yields push PushOutcome.frame? init past).Perm
      ((finished keys past).map (frameOfParts part)) := by
  induction past using List.reverseRecOn generalizing future with
  | nil =>
      have hnone : finished keys [] = [] := List.filter_eq_nil_iff.mpr fun _ _ => by simp [arrived]
      rw [hnone]
      exact List.Perm.nil
  | append_singleton past c ih =>
      have hsplit' : pushes = past ++ c :: future := by
        rw [hsplit, List.append_assoc, List.singleton_append]
      have hyields : Machine.yields push PushOutcome.frame? init (past ++ [c]) =
          Machine.yields push PushOutcome.frame? init past ++
            ((after past).push c).2.frame?.toList := Machine.yields_snoc _ _ _ _ _
      rw [hyields, outcome_after h hbound hsplit']
      refine List.Perm.trans ?_ ((finished_snoc h hsplit').map _).symm
      rw [List.map_append]
      refine List.perm_append_comm.trans (List.Perm.append ?_ (ih (c :: future) hsplit'))
      by_cases hlast : arrived c.key future = 0
      · rw [if_pos hlast, if_pos hlast]
        rfl
      · rw [if_neg hlast, if_neg hlast]
        rfl

/-- **Interleaved spectra are complete.**  With no more than sixteen spectra begun and
not finished at any moment, every spectrum is emitted once, by the push of its last
chunk, with a frame that does not depend on the order; nothing is evicted, repeated or
rejected, and nothing stays pending. -/
theorem interleaving_complete (h : Interleaving keys part pushes)
    (hbound : ∀ past, past <+: pushes → (unfinished past).length ≤ maxPendingSpectra) :
    (∀ past c future, pushes = past ++ c :: future →
      ((after past).push c).2 =
        if ∀ d ∈ future, d.key ≠ c.key then .frame (frameOfParts part c.key) else .none) ∧
      (Machine.yields push PushOutcome.frame? init pushes).Perm (keys.map (frameOfParts part)) ∧
      (∀ past, past <+: pushes → Calm (after past)) ∧ (after pushes).pending.keys = [] := by
  have hwhole : pushes = pushes ++ [] := (List.append_nil pushes).symm
  refine ⟨?_, ?_, ?_, ?_⟩
  · intro past c future hsplit
    rw [outcome_after h hbound hsplit]
    refine if_congr ?_ rfl rfl
    rw [arrived, List.countP_eq_zero]
    simp only [decide_eq_true_eq, ne_eq]
  · have hall : finished keys pushes = keys := by
      refine List.filter_eq_self.mpr ?_
      intro key hkey
      exact decide_eq_true (h.arrived_pushes hkey)
    have hframes := frames_after h hbound pushes [] hwhole
    rwa [hall] at hframes
  · rintro past ⟨future, hsplit⟩
    exact (collects_after h hbound past future hsplit.symm).2.2
  · obtain ⟨-, hcollects, -⟩ := collects_after h hbound pushes [] hwhole
    rw [List.eq_nil_iff_forall_not_mem]
    intro key hmem
    obtain ⟨hpos, hless⟩ := mem_unfinished_iff.mp ((hcollects.keys key).mp hmem)
    obtain ⟨c, hc, rfl⟩ := arrived_pos_iff.mp hpos
    have hfour := h.arrived_pushes (h.eq_part hc).1
    omega

end Run

/-- The chunks of a channel of silence. -/
def silence (key : ℕ × ℕ) : ℕ → SpectrumChunk :=
  chunksOf .zero (if key.2 = 0 then (Fin.last 1).rev else Fin.last 1) 0

/-- Both channels of silence, turn by turn. -/
def alternating : List SpectrumChunk :=
  (List.range 4).flatMap fun i => [silence (0, 0) i] ++ [silence (0, 1) i]

theorem interleaving_alternating : Interleaving [(0, 0), (0, 1)] silence alternating := by
  constructor
  · decide
  · intro key hkey
    rcases List.mem_pair.mp hkey with rfl | rfl
    · exact orderly_chunksOf .zero (Fin.last 1).rev 0
    · exact orderly_chunksOf .zero (Fin.last 1) 0
  · refine (List.flatMap_append_perm _ _ _).symm.trans ?_
    simp [← List.map_eq_flatMap]

/-- The two frames of silence. -/
theorem interleaving_complete_alternating :
    (Machine.yields SpectrumAssembler.push PushOutcome.frame? SpectrumAssembler.init
      alternating).Perm ([(0, 0), (0, 1)].map (frameOfParts silence)) :=
  (interleaving_complete interleaving_alternating fun _ hinit =>
    (interleaving_alternating.length_unfinished_le hinit).trans (by decide)).2.1

end SpectrumAnalyzer.Host
