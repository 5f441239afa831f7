import SpectrumAnalyzer.Host.Packet
import SpectrumAnalyzer.Lib.Dict
import SpectrumAnalyzer.Lib.Machine

/-!
# Reassembly of spectra

`SpectrumAssembler.push`: chunks of one spectrum are grouped by timestamp and channel,
at most sixteen groups stay open, and the oldest gives way.  A group emits its frame with
its fourth chunk.

## Main definitions

* `SpectrumAssembler`, `SpectrumAssembler.push` — the open groups and one chunk.
* `group` — the chunks of one spectrum that have arrived in order.
* `push_first`, `push_more`, `push_last` — the three kinds of push of an orderly spectrum.
* `push_orderly` — a spectrum that arrives in order, whole or cut short.
-/

namespace SpectrumAnalyzer.Host

/-- `SpectrumFrame`, with integers in place of the scaled floats. -/
structure SpectrumFrame where
  timestampUs : ℕ
  status : ℕ
  channel : ℕ
  sampleRateHz : ℕ
  rmsQ15 : ℕ
  peakQ15 : ℕ
  dominantMillihz : ℕ
  processingUs : ℕ
  droppedBlocks : ℕ
  magnitudesU8 : List ℕ
  previewQ15 : List ℤ
  deriving DecidableEq, Repr

def maxPendingSpectra : ℕ := 16

namespace SpectrumChunk

/-- The key of a chunk's group. -/
def key (c : SpectrumChunk) : ℕ × ℕ := (c.timestampUs, c.channel)

/-- What the chunks of one spectrum have in common. -/
def invariant (c : SpectrumChunk) : ℕ × ℕ × ℕ × ℕ × ℕ × ℕ × ℕ :=
  (c.status, c.sampleRateHz, c.rmsQ15, c.peakQ15, c.dominantMillihz, c.processingUs,
    c.droppedBlocks)

end SpectrumChunk

/-- `SpectrumAssembler`. -/
structure SpectrumAssembler where
  pending : Dict (ℕ × ℕ) (Dict ℕ SpectrumChunk)
  incompleteEvictions : ℕ
  duplicateChunks : ℕ
  inconsistentChunks : ℕ
  deriving DecidableEq

/-- What a push returns. -/
inductive PushOutcome where
  | none
  | frame (frame : SpectrumFrame)
  | raised
  deriving DecidableEq, Repr

def PushOutcome.frame? : PushOutcome → Option SpectrumFrame
  | .frame f => some f
  | _ => Option.none

namespace SpectrumAssembler

/-- `SpectrumAssembler.__init__`. -/
def init : SpectrumAssembler := ⟨.empty, 0, 0, 0⟩

/-- Evict the oldest group if a new one would be the seventeenth. -/
def makeRoom (a : SpectrumAssembler) (key : ℕ × ℕ) : SpectrumAssembler :=
  if key ∉ a.pending.keys ∧ a.pending.size ≥ maxPendingSpectra then
    match a.pending.oldest with
    | some oldest =>
        { a with
          pending := a.pending.erase oldest
          incompleteEvictions := a.incompleteEvictions + 1 }
    | none => a
  else a

/-- `pending.setdefault(key, {})`. -/
def setDefault (a : SpectrumAssembler) (key : ℕ × ℕ) : SpectrumAssembler :=
  if key ∈ a.pending.keys then a else { a with pending := a.pending.set key .empty }

/-- The frame of four chunks in index order. -/
def assemble (first : SpectrumChunk) (ordered : List SpectrumChunk) : SpectrumFrame where
  timestampUs := first.timestampUs
  status := first.status
  channel := first.channel
  sampleRateHz := first.sampleRateHz
  rmsQ15 := first.rmsQ15
  peakQ15 := first.peakQ15
  dominantMillihz := first.dominantMillihz
  processingUs := first.processingUs
  droppedBlocks := first.droppedBlocks
  magnitudesU8 := ordered.flatMap SpectrumChunk.magnitudesU8
  previewQ15 := ordered.flatMap SpectrumChunk.previewQ15

/-- The end of `push`: store the chunk, and emit the frame if it was the fourth. -/
def store (a : SpectrumAssembler) (parts : Dict ℕ SpectrumChunk) (chunk : SpectrumChunk) :
    SpectrumAssembler × PushOutcome :=
  let parts' := parts.set chunk.chunkIndex chunk
  let a' : SpectrumAssembler :=
    { a with
      pending := a.pending.set chunk.key parts'
      duplicateChunks :=
        if chunk.chunkIndex ∈ parts.keys then a.duplicateChunks + 1 else a.duplicateChunks }
  if parts'.size ≠ chunkCountPerSpectrum then (a', .none)
  else
    match (List.range chunkCountPerSpectrum).mapM parts'.get? with
    | some (first :: rest) =>
        ({ a' with pending := a'.pending.erase chunk.key },
          .frame (assemble first (first :: rest)))
    | _ => (a', .raised)

/-- `SpectrumAssembler.push`. -/
def push (a : SpectrumAssembler) (chunk : SpectrumChunk) : SpectrumAssembler × PushOutcome :=
  let a := (a.makeRoom chunk.key).setDefault chunk.key
  let parts := (a.pending.get? chunk.key).getD .empty
  match parts.values.head? with
  | some reference =>
      if chunk.invariant ≠ reference.invariant then
        ({ a with
            pending := a.pending.erase chunk.key
            inconsistentChunks := a.inconsistentChunks + 1 }, .none)
      else a.store parts chunk
  | none => a.store parts chunk

end SpectrumAssembler

/-! ## Spectra that arrive in order -/

/-- The chunks of one spectrum: one key, one invariant, each at its index. -/
structure Orderly (key : ℕ × ℕ) (c : ℕ → SpectrumChunk) : Prop where
  key_eq : ∀ i, i < 4 → (c i).key = key
  invariant_eq : ∀ i, i < 4 → (c i).invariant = (c 0).invariant
  chunkIndex_eq : ∀ i, i < 4 → (c i).chunkIndex = i

/-- The group after the first `n` chunks. -/
def group (c : ℕ → SpectrumChunk) (n : ℕ) : Dict ℕ SpectrumChunk :=
  (List.range n).foldl (fun parts i => parts.set i (c i)) .empty

theorem group_succ (c : ℕ → SpectrumChunk) (n : ℕ) :
    group c (n + 1) = (group c n).set n (c n) := by
  simp [group, List.range_succ]

theorem keys_group (c : ℕ → SpectrumChunk) (n : ℕ) : (group c n).keys = List.range n := by
  induction n with
  | zero => rfl
  | succ n ih =>
      have hn : n ∉ (group c n).keys := by simp [ih]
      rw [group_succ, Dict.keys_set_of_notMem hn, ih, List.range_succ]

theorem entries_group (c : ℕ → SpectrumChunk) (n : ℕ) :
    (group c n).entries = (List.range n).map fun i => (i, c i) := by
  induction n with
  | zero => rfl
  | succ n ih =>
      have hn : n ∉ (group c n).keys := by simp [keys_group]
      rw [group_succ, Dict.entries_set_of_notMem hn, ih, List.range_succ, List.map_append]
      rfl

theorem size_group (c : ℕ → SpectrumChunk) (n : ℕ) : (group c n).size = n := by
  rw [← Dict.length_keys, keys_group, List.length_range]

theorem get?_group (c : ℕ → SpectrumChunk) {n i : ℕ} (h : i < n) :
    (group c n).get? i = some (c i) := by
  induction n with
  | zero => omega
  | succ n ih =>
      rw [group_succ, Dict.get?_set]
      by_cases hi : i = n
      · rw [if_pos hi, hi]
      · rw [if_neg hi, ih (by omega)]

theorem values_group (c : ℕ → SpectrumChunk) (n : ℕ) :
    (group c n).values = (List.range n).map c := by
  rw [Dict.values, entries_group, List.map_map]
  rfl

namespace SpectrumAssembler

theorem makeRoom_of_mem {a : SpectrumAssembler} {key : ℕ × ℕ} (h : key ∈ a.pending.keys) :
    a.makeRoom key = a := by
  rw [makeRoom, if_neg (by simp [h])]

/-- Making room adds no group. -/
theorem keys_makeRoom (a : SpectrumAssembler) (key : ℕ × ℕ) :
    ∀ k ∈ (a.makeRoom key).pending.keys, k ∈ a.pending.keys := by
  intro k hk
  rw [makeRoom] at hk
  split at hk
  · split at hk
    · exact (Dict.mem_keys_erase.mp hk).2
    · exact hk
  · exact hk

theorem setDefault_of_mem {a : SpectrumAssembler} {key : ℕ × ℕ} (h : key ∈ a.pending.keys) :
    a.setDefault key = a := if_pos h

theorem setDefault_of_notMem {a : SpectrumAssembler} {key : ℕ × ℕ} (h : key ∉ a.pending.keys) :
    a.setDefault key = { a with pending := a.pending.set key .empty } := if_neg h

variable {a : SpectrumAssembler} {key : ℕ × ℕ} {c : ℕ → SpectrumChunk}

/-- Storing the next chunk of an orderly spectrum, before the last. -/
theorem store_more (hc : Orderly key c) {n : ℕ} (hn : n < 3) :
    a.store (group c n) (c n) =
      ({ a with pending := a.pending.set key (group c (n + 1)) }, .none) := by
  have hindex := hc.chunkIndex_eq n (by omega)
  have hfresh : n ∉ (group c n).keys := by simp [keys_group]
  have hsize : (group c (n + 1)).size ≠ chunkCountPerSpectrum := by
    rw [size_group, chunkCountPerSpectrum]
    omega
  rw [store]
  simp only [hindex, hc.key_eq n (by omega), hfresh, ← group_succ, hsize, ne_eq,
    not_false_eq_true, if_true, if_false]

/-- Storing the last chunk of an orderly spectrum. -/
theorem store_last (hc : Orderly key c) :
    a.store (group c 3) (c 3) =
      ({ a with pending := (a.pending.set key (group c 4)).erase key },
        .frame (assemble (c 0) ((List.range 4).map c))) := by
  have hindex := hc.chunkIndex_eq 3 (by omega)
  have hfresh : 3 ∉ (group c 3).keys := by simp [keys_group]
  have hsize : (group c 4).size = chunkCountPerSpectrum := size_group c 4
  have hordered : (List.range chunkCountPerSpectrum).mapM (group c 4).get? =
      some (c 0 :: [c 1, c 2, c 3]) := by
    simp [chunkCountPerSpectrum, List.range_succ, get?_group]
  rw [store]
  simp only [hindex, hc.key_eq 3 (by omega), hfresh, ← group_succ, hsize, ne_eq,
    not_true_eq_false, if_false, hordered]
  rfl

/-- The first chunk of a spectrum opens its group. -/
theorem push_first (hc : Orderly key c) (hkey : key ∉ a.pending.keys) :
    a.push (c 0) =
      ({ a.makeRoom key with
          pending := (a.makeRoom key).pending.set key (group c 1) }, .none) := by
  have hroom : key ∉ (a.makeRoom key).pending.keys := fun h => hkey (keys_makeRoom a key key h)
  have hget : ((a.makeRoom key).pending.set key .empty).get? key = some (group c 0) :=
    Dict.get?_set_self _ _ _
  rw [push]
  simp only [hc.key_eq 0 (by omega), setDefault_of_notMem hroom, hget, Option.getD_some]
  rw [values_group, List.range_zero, List.map_nil, List.head?_nil]
  dsimp only
  rw [store_more hc (by omega)]
  dsimp only
  rw [Dict.set_set]

/-- A further chunk joins the group. -/
theorem push_more (hc : Orderly key c) {n : ℕ} (h0 : 0 < n) (hn : n < 4)
    (hget : a.pending.get? key = some (group c n)) :
    a.push (c n) = a.store (group c n) (c n) := by
  have hmem : key ∈ a.pending.keys := by
    by_contra h
    rw [(a.pending.get?_eq_none_iff key).mpr h] at hget
    cases hget
  obtain ⟨m, rfl⟩ := Nat.exists_eq_succ_of_ne_zero h0.ne'
  have hhead : (group c (m + 1)).values.head? = some (c 0) := by
    rw [values_group, List.range_succ_eq_map]
    rfl
  rw [push]
  simp only [hc.key_eq (m + 1) hn, makeRoom_of_mem hmem, setDefault_of_mem hmem, hget,
    Option.getD_some, Nat.succ_eq_add_one, hhead, hc.invariant_eq (m + 1) hn, ne_eq,
    not_true_eq_false, if_false]

/-- The state while an orderly spectrum is incomplete. -/
theorem final_partial (hc : Orderly key c) (hkey : key ∉ a.pending.keys) {n : ℕ} (hn : n < 3) :
    Machine.final push a ((List.range (n + 1)).map c) =
        { a.makeRoom key with pending := (a.makeRoom key).pending.set key (group c (n + 1)) } ∧
      Machine.yields push PushOutcome.frame? a ((List.range (n + 1)).map c) = [] := by
  induction n with
  | zero =>
      have hlist : (List.range (0 + 1)).map c = [] ++ [c 0] := rfl
      rw [hlist, Machine.final_snoc, Machine.yields_snoc, Machine.final_nil, push_first hc hkey]
      exact ⟨rfl, rfl⟩
  | succ n ih =>
      obtain ⟨hfinal, hyield⟩ := ih (by omega)
      have hpush : push (Machine.final push a ((List.range (n + 1)).map c)) (c (n + 1)) =
          ({ a.makeRoom key with
              pending := (a.makeRoom key).pending.set key (group c (n + 2)) }, .none) := by
        rw [hfinal, push_more hc (by omega) (by omega) (Dict.get?_set_self _ _ _),
          store_more hc (by omega)]
        dsimp only
        rw [Dict.set_set]
      rw [List.range_succ, List.map_append, List.map_singleton, Machine.final_snoc,
        Machine.yields_snoc, hpush, hyield]
      exact ⟨rfl, rfl⟩

/-- **An orderly spectrum.**  Its first `n` chunks, pushed one after the other, emit its
frame exactly when they are all four; a group stays open only when some are missing. -/
theorem push_orderly (hc : Orderly key c) (hkey : key ∉ a.pending.keys) {n : ℕ} (hn : n ≤ 4) :
    Machine.yields push PushOutcome.frame? a ((List.range n).map c) =
        (if n = 4 then [assemble (c 0) ((List.range 4).map c)] else []) ∧
      ∀ k ∈ (Machine.final push a ((List.range n).map c)).pending.keys,
        k ∈ a.pending.keys ∨ (n ≠ 4 ∧ k = key) := by
  rcases n with _ | n
  · exact ⟨rfl, fun k hk => .inl hk⟩
  by_cases hlast : n = 3
  · subst hlast
    obtain ⟨hfinal, hyield⟩ := final_partial hc hkey (n := 2) (by omega)
    rw [List.range_succ, List.map_append, List.map_singleton, Machine.final_snoc,
      Machine.yields_snoc, hyield, hfinal,
      push_more hc (by omega) (by omega) (Dict.get?_set_self _ _ _), store_last hc]
    refine ⟨rfl, fun k hk => .inl ?_⟩
    obtain ⟨hne, hk⟩ := Dict.mem_keys_erase.mp hk
    have hk := (Dict.mem_keys_set.mp hk).resolve_left hne
    exact keys_makeRoom a key k ((Dict.mem_keys_set.mp hk).resolve_left hne)
  · obtain ⟨hfinal, hyield⟩ := final_partial hc hkey (n := n) (by omega)
    rw [hfinal, hyield, if_neg (by omega)]
    refine ⟨rfl, ?_⟩
    intro k hk
    rcases Dict.mem_keys_set.mp hk with rfl | hk
    · exact .inr ⟨by omega, rfl⟩
    · exact .inl (keys_makeRoom a key k hk)

end SpectrumAssembler

end SpectrumAnalyzer.Host
