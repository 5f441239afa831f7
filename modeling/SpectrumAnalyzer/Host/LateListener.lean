import SpectrumAnalyzer.Host.Attachment
import SpectrumAnalyzer.Host.Interleaving
import SpectrumAnalyzer.Host.LiveStream

/-!
# A host that listens to a part of the stream

`serial_smoke.py`, `loopback_check.py` and `endurance_check.py` attach to a running board and
leave it running.  The spectrum that is being sent when they attach reaches the assembler
without its first chunks, and the last one without its last; both are left pending.  They
displace nothing, and everything in between comes out as it does for a host that has listened
all along.

## Main definitions

* `groupFrom` — the group that the chunks of a spectrum make, from one of them on.
* `Followed` — what the chunks of some spectra leave of an assembler.
* `framesWithin` — the frames of a part of the packets of a run.
* `late_listener` — decoder and assembler of a tool that attaches late.
-/

namespace SpectrumAnalyzer.Host

open Firmware

/-! ## A part of a spectrum -/

/-- The group of `j` chunks from chunk `m` on. -/
def groupFrom (c : ℕ → SpectrumChunk) (m j : ℕ) : Dict ℕ SpectrumChunk :=
  (List.range' m j).foldl (fun parts i => parts.set i (c i)) .empty

section Group
variable (c : ℕ → SpectrumChunk) (m j : ℕ)

theorem groupFrom_succ : groupFrom c m (j + 1) = (groupFrom c m j).set (m + j) (c (m + j)) := by
  simp [groupFrom, List.range'_1_concat]

theorem entries_groupFrom :
    (groupFrom c m j).entries = (List.range' m j).map fun i => (i, c i) := by
  induction j with
  | zero => rfl
  | succ j ih =>
      have hnew : m + j ∉ (groupFrom c m j).keys := by simp [Dict.keys, ih]
      rw [groupFrom_succ, Dict.entries_set_of_notMem hnew, ih, List.range'_1_concat]
      simp

theorem notMem_keys_groupFrom : m + j ∉ (groupFrom c m j).keys := by
  simp [Dict.keys, entries_groupFrom]

theorem size_groupFrom : (groupFrom c m j).size = j := by
  simp [Dict.size, entries_groupFrom]

theorem head_groupFrom : (groupFrom c m (j + 1)).values.head? = some (c m) := by
  simp [Dict.values, entries_groupFrom, List.range'_succ]

end Group

namespace SpectrumAssembler

variable {a : SpectrumAssembler} {key : ℕ × ℕ} {c : ℕ → SpectrumChunk} {m j : ℕ}

/-- The next chunk is stored, unless it is the fourth. -/
theorem store_groupFrom (hc : Orderly key c) (hm : m + j < 4) (hj : j < 3) :
    a.store (groupFrom c m j) (c (m + j)) =
      ({ a with pending := a.pending.set key (groupFrom c m (j + 1)) }, .none) := by
  have hsize : (groupFrom c m (j + 1)).size ≠ chunkCountPerSpectrum := by
    rw [size_groupFrom, chunkCountPerSpectrum]
    omega
  rw [store]
  simp only [hc.chunkIndex_eq _ hm, hc.key_eq _ hm, notMem_keys_groupFrom, ← groupFrom_succ, hsize,
    ne_eq, not_false_eq_true, if_true, if_false]

/-- Any chunk of a spectrum opens its group. -/
theorem push_opens (hc : Orderly key c) (hkey : key ∉ a.pending.keys) (hm : m < 4) :
    a.push (c m) = ({ a.makeRoom key with
      pending := (a.makeRoom key).pending.set key (groupFrom c m 1) }, .none) := by
  have hroom : key ∉ (a.makeRoom key).pending.keys := fun h => hkey (keys_makeRoom a key key h)
  have hget : ((a.makeRoom key).pending.set key .empty).get? key = some (groupFrom c m 0) :=
    Dict.get?_set_self _ _ _
  have hhead : (groupFrom c m 0).values.head? = none := rfl
  have hstore := store_groupFrom (a := { a.makeRoom key with
    pending := (a.makeRoom key).pending.set key .empty }) hc (m := m) (j := 0) hm (by omega)
  rw [push]
  simp only [hc.key_eq m hm, setDefault_of_notMem hroom, hget, Option.getD_some, hhead]
  rw [Nat.add_zero] at hstore
  rw [hstore, Dict.set_set]

/-- A further chunk joins the group. -/
theorem push_joins (hc : Orderly key c) (hm : m + (j + 1) < 4)
    (hget : a.pending.get? key = some (groupFrom c m (j + 1))) :
    a.push (c (m + (j + 1))) = a.store (groupFrom c m (j + 1)) (c (m + (j + 1))) := by
  have hmem : key ∈ a.pending.keys := Dict.mem_keys_of_get? hget
  have hinvariant : (c (m + (j + 1))).invariant = (c m).invariant := by
    rw [hc.invariant_eq _ hm, hc.invariant_eq m (by omega)]
  rw [push]
  simp only [hc.key_eq _ hm, makeRoom_of_mem hmem, setDefault_of_mem hmem, hget,
    Option.getD_some, head_groupFrom, hinvariant, ne_eq, not_true_eq_false, if_false]

/-- The assembler while part of a spectrum has arrived. -/
theorem final_groupFrom (hc : Orderly key c) (hkey : key ∉ a.pending.keys)
    (hm : m + (j + 1) ≤ 4) (hj : j < 3) :
    Machine.final push a ((List.range' m (j + 1)).map c) = { a.makeRoom key with
        pending := (a.makeRoom key).pending.set key (groupFrom c m (j + 1)) } ∧
      Machine.yields push PushOutcome.frame? a ((List.range' m (j + 1)).map c) = [] := by
  induction j with
  | zero =>
      have hlist : (List.range' m (0 + 1)).map c = [] ++ [c m] := rfl
      rw [hlist, Machine.final_snoc, Machine.yields_snoc, Machine.final_nil,
        push_opens hc hkey (by omega)]
      exact ⟨rfl, rfl⟩
  | succ j ih =>
      obtain ⟨hfinal, hyield⟩ := ih (by omega) (by omega)
      have hpush : push (Machine.final push a ((List.range' m (j + 1)).map c)) (c (m + (j + 1))) =
          ({ a.makeRoom key with
              pending := (a.makeRoom key).pending.set key (groupFrom c m (j + 2)) }, .none) := by
        rw [hfinal, push_joins hc (by omega) (Dict.get?_set_self _ _ _),
          store_groupFrom hc (by omega) (by omega)]
        dsimp only
        rw [Dict.set_set]
      rw [List.range'_1_concat, List.map_append, List.map_singleton, Machine.final_snoc,
        Machine.yields_snoc, hpush, hyield]
      exact ⟨rfl, rfl⟩

/-- The assembler behind a whole spectrum. -/
theorem final_whole (hc : Orderly key c) (hkey : key ∉ a.pending.keys) :
    Machine.final push a ((List.range' 0 4).map c) = { a.makeRoom key with
        pending := (a.makeRoom key).pending.erase key } ∧
      Machine.yields push PushOutcome.frame? a ((List.range' 0 4).map c) =
        [assemble (c 0) ((List.range 4).map c)] := by
  obtain ⟨hfinal, hyield⟩ := final_partial hc hkey (n := 2) (by omega)
  rw [← List.range_eq_range', List.range_succ, List.map_append, List.map_singleton,
    Machine.final_snoc, Machine.yields_snoc, hyield, hfinal,
    push_more hc (by omega) (by omega) (Dict.get?_set_self _ _ _), store_last hc]
  dsimp only
  rw [Dict.set_set, Dict.erase_set_self]
  exact ⟨rfl, rfl⟩

/-- Making room counts at most an eviction, and none while there is room. -/
theorem makeRoom_spec (a : SpectrumAssembler) (key : ℕ × ℕ) :
    (a.makeRoom key).pending.size ≤ a.pending.size ∧
      (a.pending.size < maxPendingSpectra → a.makeRoom key = a) ∧
      (a.makeRoom key).duplicateChunks = a.duplicateChunks ∧
      (a.makeRoom key).inconsistentChunks = a.inconsistentChunks := by
  rw [makeRoom]
  split
  · next hfull =>
      split
      · exact ⟨Dict.size_erase_le _ _, fun h => absurd hfull.2 (Nat.not_le.mpr h), rfl, rfl⟩
      · exact ⟨le_rfl, fun _ => rfl, rfl, rfl⟩
  · exact ⟨le_rfl, fun _ => rfl, rfl, rfl⟩

end SpectrumAssembler

/-- What pushes of some spectra leave of an assembler `a`: groups that were there or are
`fresh`, no more than `left` of the latter, and as long as these have room no eviction. -/
structure Followed (a b : SpectrumAssembler) (fresh : ℕ × ℕ → Prop) (left : ℕ) : Prop where
  keys : ∀ k ∈ b.pending.keys, k ∈ a.pending.keys ∨ fresh k
  size : b.pending.size ≤ a.pending.size + left
  evictions : a.pending.size + left < maxPendingSpectra →
    b.incompleteEvictions = a.incompleteEvictions
  duplicates : b.duplicateChunks = a.duplicateChunks
  inconsistent : b.inconsistentChunks = a.inconsistentChunks

namespace Followed

variable {a b d : SpectrumAssembler} {fresh fresh' : ℕ × ℕ → Prop} {m n : ℕ}

theorem refl (a : SpectrumAssembler) (fresh : ℕ × ℕ → Prop) : Followed a a fresh 0 :=
  ⟨fun _ hk => .inl hk, le_rfl, fun _ => rfl, rfl, rfl⟩

theorem trans (h : Followed a b fresh m) (h' : Followed b d fresh' n) :
    Followed a d (fun k => fresh k ∨ fresh' k) (m + n) where
  keys k hk := by
    rcases h'.keys k hk with hk | hk
    · exact (h.keys k hk).imp_right .inl
    · exact .inr (.inr hk)
  size := by
    have := h.size
    have := h'.size
    omega
  evictions hroom := by
    have := h.size
    rw [h'.evictions (by omega), h.evictions (by omega)]
  duplicates := h'.duplicates.trans h.duplicates
  inconsistent := h'.inconsistent.trans h.inconsistent

theorem mono (h : Followed a b fresh m) (hfresh : ∀ k, fresh k → fresh' k) (hle : m ≤ n) :
    Followed a b fresh' n where
  keys k hk := (h.keys k hk).imp_right (hfresh k)
  size := by
    have := h.size
    omega
  evictions hroom := h.evictions (by omega)
  duplicates := h.duplicates
  inconsistent := h.inconsistent

/-- A group is opened, and stays or is closed. -/
theorem of_makeRoom (a : SpectrumAssembler) (key : ℕ × ℕ)
    {pending : Dict (ℕ × ℕ) (Dict ℕ SpectrumChunk)}
    (hkeys : ∀ k ∈ pending.keys, k = key ∨ k ∈ (a.makeRoom key).pending.keys)
    (hsize : pending.size ≤ (a.makeRoom key).pending.size + n) (hroom : n ≤ 1) :
    Followed a { a.makeRoom key with pending := pending } (· = key) n := by
  obtain ⟨hle, hsame, hduplicates, hinconsistent⟩ := a.makeRoom_spec key
  refine ⟨?_, hsize.trans (Nat.add_le_add_right hle n), ?_, hduplicates, hinconsistent⟩
  · intro k hk
    rcases hkeys k hk with hk | hk
    · exact .inr hk
    · exact .inl (SpectrumAssembler.keys_makeRoom a key k hk)
  · intro hlt
    dsimp only
    rw [hsame (by omega)]

end Followed

/-- How many groups the chunks from `m` to `n` of a spectrum leave open. -/
def leftOpen (m n : ℕ) : ℕ := if n ≤ m ∨ (m = 0 ∧ n = 4) then 0 else 1

/-- **A part of a spectrum.**  Only all four chunks emit a frame. -/
theorem push_part {a : SpectrumAssembler} {key : ℕ × ℕ} {c : ℕ → SpectrumChunk}
    (hc : Orderly key c) (hkey : key ∉ a.pending.keys) (m : ℕ) {n : ℕ} (hn : n ≤ 4) :
    Machine.yields SpectrumAssembler.push PushOutcome.frame? a
        ((List.range' m (n - m)).map c) =
        (if m = 0 ∧ n = 4 then [SpectrumAssembler.assemble (c 0) ((List.range 4).map c)]
          else []) ∧
      Followed a (Machine.final SpectrumAssembler.push a ((List.range' m (n - m)).map c))
        (· = key) (leftOpen m n) := by
  rw [leftOpen]
  by_cases hempty : n ≤ m
  · have hwhole : ¬ (m = 0 ∧ n = 4) := by omega
    rw [Nat.sub_eq_zero_of_le hempty, if_neg hwhole, if_pos (.inl hempty)]
    exact ⟨rfl, .refl a _⟩
  by_cases hwhole : m = 0 ∧ n = 4
  · obtain ⟨rfl, rfl⟩ := hwhole
    obtain ⟨hfinal, hyield⟩ := SpectrumAssembler.final_whole hc hkey
    rw [Nat.sub_zero, hfinal, hyield]
    refine ⟨rfl, .of_makeRoom a key ?_ (Dict.size_erase_le _ _) (by simp)⟩
    exact fun k hk => .inr (Dict.mem_keys_erase.mp hk).2
  · obtain ⟨j, hj⟩ : ∃ j, n - m = j + 1 := ⟨n - m - 1, by omega⟩
    obtain ⟨hfinal, hyield⟩ := SpectrumAssembler.final_groupFrom hc hkey (m := m) (j := j)
      (by omega) (by omega)
    rw [hj, hfinal, hyield, if_neg hwhole, if_neg (not_or.mpr ⟨hempty, hwhole⟩)]
    refine ⟨rfl, .of_makeRoom a key ?_ (Dict.size_set_le _ _ _) le_rfl⟩
    exact fun k hk => Dict.mem_keys_set.mp hk

/-! ## A part of a result -/

theorem take_packetsOf (result : SpectrumResult) (sequence : UInt16)
    (addresses : List (Fin 2 × Fin 4)) (j : ℕ) :
    (packetsOf result sequence addresses).take j =
      packetsOf result sequence (addresses.take j) := by
  induction addresses generalizing sequence j with
  | nil => simp [packetsOf]
  | cons address rest ih =>
      cases j with
      | zero => simp [packetsOf]
      | succ j => simp [packetsOf, ih]

/-- The chunks of the packets `m` to `n` of a result. -/
theorem chunks_between (result : SpectrumResult) (sequence : UInt16) (m : ℕ) {n : ℕ}
    (hn : n ≤ 8) : ((packetsOf result sequence (plan.take n)).drop m).map hostChunk =
      (List.range' m (min n 4 - m)).map (chunksOf result 0 sequence) ++
        (List.range' (m - 4) (n - 4 - (m - 4))).map
          (chunksOf result 1 (sequence + UInt16.ofNat (min n 4))) := by
  rw [List.map_drop, chunks_packetsOf result sequence hn, List.drop_append, ← List.map_drop,
    ← List.map_drop, List.length_map, List.length_range, List.range_eq_range',
    List.range_eq_range', List.drop_range', List.drop_range']
  congr 2
  · simp
  · by_cases h : 4 ≤ n
    · simp [h]
    · have hnone : n - 4 = 0 := by omega
      simp [hnone]

/-- The frames of a result of which the packets `m` to `n` arrive. -/
def framesBetween (result : SpectrumResult) (m n : ℕ) : List SpectrumFrame :=
  (List.finRange 2).filterMap fun channel =>
    if m ≤ 4 * channel.val ∧ 4 * (channel.val + 1) ≤ n then some (frameOf result channel) else none

/-- How many groups these packets leave open. -/
def leftBetween (m n : ℕ) : ℕ := leftOpen m (min n 4) + leftOpen (m - 4) (n - 4)

/-- **A part of a result.** -/
theorem push_between {a : SpectrumAssembler} (result : SpectrumResult) (sequence : UInt16)
    (hfresh : ∀ k ∈ a.pending.keys, k.1 ≠ result.timestampUs.toNat) (m : ℕ) {n : ℕ} (hn : n ≤ 8) :
    Machine.yields SpectrumAssembler.push PushOutcome.frame? a
        (((packetsOf result sequence (plan.take n)).drop m).map hostChunk) =
        framesBetween result m n ∧
      Followed a (Machine.final SpectrumAssembler.push a
        (((packetsOf result sequence (plan.take n)).drop m).map hostChunk))
        (fun k => k.1 = result.timestampUs.toNat) (leftBetween m n) := by
  obtain ⟨hyields, hfirst⟩ := push_part (orderly_chunksOf result 0 sequence)
    (fun h => hfresh _ h rfl) m (Nat.min_le_right n 4)
  have hfresh' : (result.timestampUs.toNat, (1 : Fin 2).val) ∉
      (Machine.final SpectrumAssembler.push a ((List.range' m (min n 4 - m)).map
        (chunksOf result 0 sequence))).pending.keys := by
    intro h
    rcases hfirst.keys _ h with h | h
    · exact hfresh _ h rfl
    · exact absurd (congrArg Prod.snd h) Nat.one_ne_zero
  obtain ⟨hyields', hsecond⟩ := push_part
    (orderly_chunksOf result 1 (sequence + UInt16.ofNat (min n 4))) hfresh' (m - 4) (n := n - 4)
    (by omega)
  rw [assemble_chunksOf] at hyields hyields'
  rw [chunks_between result sequence m hn, Machine.yields_append, Machine.final_append, hyields,
    hyields']
  constructor
  · have h0 : m = 0 ∧ min n 4 = 4 ↔ m ≤ 4 * (0 : Fin 2).val ∧ 4 * ((0 : Fin 2).val + 1) ≤ n := by
      simp
    have h1 : m - 4 = 0 ∧ n - 4 = 4 ↔
        m ≤ 4 * (1 : Fin 2).val ∧ 4 * ((1 : Fin 2).val + 1) ≤ n := by
      simp
      omega
    have hchannels : List.finRange 2 = [0, 1] := rfl
    rw [framesBetween, hchannels, if_congr h0 rfl rfl, if_congr h1 rfl rfl, List.filterMap_cons,
      List.filterMap_cons, List.filterMap_nil]
    split <;> split <;> simp_all
  · refine (hfirst.trans hsecond).mono ?_ le_rfl
    rintro k (rfl | rfl) <;> rfl

/-! ## A part of a run -/

/-- The frames of a run of which the packets `i` to `j` arrive. -/
def framesWithin : ℕ → ℕ → List (SpectrumResult × ℕ) → List SpectrumFrame
  | _, _, [] => []
  | i, j, (result, n) :: rest =>
      framesBetween result i (min j n) ++ framesWithin (i - n) (j - n) rest

/-- How many groups these packets leave open. -/
def leftWithin : ℕ → ℕ → List (SpectrumResult × ℕ) → ℕ
  | _, _, [] => 0
  | i, j, (_, n) :: rest => leftBetween i (min j n) + leftWithin (i - n) (j - n) rest

/-- The packets `i` to `j` of a run, result by result. -/
theorem packets_within (result : SpectrumResult) (sequence : UInt16) {n : ℕ} (hn : n ≤ 8)
    (rest : List Packet) (i j : ℕ) :
    ((packetsOf result sequence (plan.take n) ++ rest).take j).drop i =
      (packetsOf result sequence (plan.take (min j n))).drop i ++
        (rest.take (j - n)).drop (i - n) := by
  have hlength : (packetsOf result sequence (plan.take n)).length = n := by
    rw [length_packetsOf, length_plan_take hn]
  rw [List.take_append, hlength, take_packetsOf, List.take_take, List.drop_append,
    length_packetsOf, length_plan_take (by omega)]
  congr 1
  by_cases hj : j ≤ n
  · simp [Nat.sub_eq_zero_of_le hj]
  · rw [Nat.min_eq_right (by omega)]

/-- **A part of a run.**  With distinct timestamps no result disturbs another. -/
theorem pushes_within {a : SpectrumAssembler} {outcomes : List (SpectrumResult × ℕ)}
    (hle : ∀ o ∈ outcomes, o.2 ≤ 8)
    (hdistinct : (outcomes.map fun o => o.1.timestampUs).Nodup)
    (hfresh : ∀ k ∈ a.pending.keys, ∀ o ∈ outcomes, k.1 ≠ o.1.timestampUs.toNat)
    (sequence : UInt16) (i j : ℕ) :
    Machine.yields SpectrumAssembler.push PushOutcome.frame? a
        ((((packetsOfRun sequence outcomes).take j).drop i).map hostChunk) =
        framesWithin i j outcomes ∧
      Followed a (Machine.final SpectrumAssembler.push a
        ((((packetsOfRun sequence outcomes).take j).drop i).map hostChunk))
        (fun _ => True) (leftWithin i j outcomes) := by
  induction outcomes generalizing a sequence i j with
  | nil =>
      simp only [packetsOfRun, framesWithin, leftWithin, List.take_nil, List.drop_nil,
        List.map_nil]
      exact ⟨rfl, .refl a _⟩
  | cons o os ih =>
      obtain ⟨result, n⟩ := o
      have hn : n ≤ 8 := hle _ List.mem_cons_self
      rw [List.map_cons, List.nodup_cons] at hdistinct
      obtain ⟨hyields, hfollowed⟩ := push_between result sequence
        (fun k hk => hfresh k hk _ List.mem_cons_self) i (n := min j n) (by omega)
      rw [packetsOfRun, packets_within result sequence hn, List.map_append, Machine.yields_append,
        Machine.final_append, hyields]
      obtain ⟨hyields', hfollowed'⟩ := ih (a := Machine.final SpectrumAssembler.push a
          (((packetsOf result sequence (plan.take (min j n))).drop i).map hostChunk))
        (fun o' ho' => hle o' (List.mem_cons_of_mem _ ho')) hdistinct.2 (by
          intro k hk o' ho' hts
          rcases hfollowed.keys k hk with hk | hk
          · exact hfresh k hk o' (List.mem_cons_of_mem _ ho') hts
          · refine hdistinct.1 (List.mem_map.mpr ⟨o', ho', ?_⟩)
            exact UInt32.toNat_inj.mp (hts.symm.trans hk))
        (sequence + UInt16.ofNat n) (i - n) (j - n)
      exact ⟨by rw [hyields', framesWithin],
        (hfollowed.trans hfollowed').mono (fun _ _ => trivial) le_rfl⟩

theorem leftBetween_le (m : ℕ) {n : ℕ} (hn : n ≤ 8) : leftBetween m n ≤
    (if m = 0 ∨ n ≤ m then 0 else 1) + (if n = 8 ∨ n ≤ m then 0 else 1) := by
  simp only [leftBetween, leftOpen]
  split_ifs <;> omega

theorem leftWithin_zero (i : ℕ) (outcomes : List (SpectrumResult × ℕ)) :
    leftWithin i 0 outcomes = 0 := by
  induction outcomes generalizing i with
  | nil => rfl
  | cons o os ih => simp [leftWithin, ih, leftBetween, leftOpen]

theorem length_wholeResults_le (outcomes : List (SpectrumResult × ℕ)) :
    (wholeResults outcomes).length ≤ outcomes.length := by
  rw [wholeResults, List.length_map]
  exact List.length_filter_le _ _

/-- One group for each result cut short, and one for each end. -/
theorem leftWithin_le {outcomes : List (SpectrumResult × ℕ)} (hle : ∀ o ∈ outcomes, o.2 ≤ 8)
    (i j : ℕ) : leftWithin i j outcomes ≤
      (if i = 0 then 0 else 1) + (outcomes.length - (wholeResults outcomes).length) + 1 := by
  induction outcomes generalizing i j with
  | nil => simp [leftWithin]
  | cons o os ih =>
      obtain ⟨result, n⟩ := o
      have hn : n ≤ 8 := hle _ List.mem_cons_self
      have hshort := length_wholeResults_le os
      have hwhole : (wholeResults ((result, n) :: os)).length =
          (wholeResults os).length + if n = 8 then 1 else 0 := by
        by_cases h : n = 8 <;> simp [wholeResults, h]
      have hhead := leftBetween_le i (n := min j n) (by omega)
      rw [leftWithin, List.length_cons, hwhole]
      by_cases hj : j < n
      · rw [Nat.sub_eq_zero_of_le hj.le, leftWithin_zero]
        split_ifs at hhead ⊢ <;> omega
      · have hrest := ih (fun o' ho' => hle o' (List.mem_cons_of_mem _ ho')) (i - n) (j - n)
        rw [Nat.min_eq_right (not_lt.mp hj)] at hhead ⊢
        split_ifs at hhead hrest ⊢ <;> omega

/-! ## Which frames come out -/

theorem arrived_eq_zero {key : ℕ × ℕ} {chunks : List SpectrumChunk}
    (h : ∀ c ∈ chunks, c.key ≠ key) : arrived key chunks = 0 := by
  simpa [arrived] using h

theorem arrived_part {key : ℕ × ℕ} {c : ℕ → SpectrumChunk} (hc : Orderly key c) {m k : ℕ}
    (hk : k = 0 ∨ m + k ≤ 4) : arrived key ((List.range' m k).map c) = k := by
  have hall : ∀ d ∈ (List.range' m k).map c, d.key = key := by
    intro d hd
    obtain ⟨i, hi, rfl⟩ := List.mem_map.mp hd
    exact hc.key_eq i (by simp at hi; omega)
  rw [arrived, List.countP_eq_length.mpr (by simpa using hall), List.length_map, List.length_range']

theorem arrived_other {key key' : ℕ × ℕ} {c : ℕ → SpectrumChunk} (hc : Orderly key c) {m k : ℕ}
    (hk : k = 0 ∨ m + k ≤ 4) (hne : key ≠ key') : arrived key' ((List.range' m k).map c) = 0 := by
  refine arrived_eq_zero fun d hd => ?_
  obtain ⟨i, hi, rfl⟩ := List.mem_map.mp hd
  rw [hc.key_eq i (by simp at hi; omega)]
  exact hne

/-- How many chunks of a channel are among the packets `m` to `n` of a result. -/
theorem arrived_between (result : SpectrumResult) (channel : Fin 2) (sequence : UInt16) (m : ℕ)
    {n : ℕ} (hn : n ≤ 8) :
    arrived (result.timestampUs.toNat, channel.val)
        (((packetsOf result sequence (plan.take n)).drop m).map hostChunk) =
      min (n - 4 * channel.val) 4 - (m - 4 * channel.val) := by
  have hfirst := orderly_chunksOf result 0 sequence
  have hsecond := orderly_chunksOf result 1 (sequence + UInt16.ofNat (min n 4))
  rw [chunks_between result sequence m hn, arrived_append]
  obtain rfl | rfl : channel = 0 ∨ channel = 1 := by omega
  · rw [arrived_part hfirst (by omega), arrived_other hsecond (by omega) (by simp)]
    simp
  · rw [arrived_other hfirst (by omega) (by simp), arrived_part hsecond (by omega)]
    simp
    omega

theorem key_of_mem_packetsOf {result : SpectrumResult} {sequence : UInt16}
    {addresses : List (Fin 2 × Fin 4)} {m : ℕ} {c : SpectrumChunk}
    (hc : c ∈ ((packetsOf result sequence addresses).drop m).map hostChunk) :
    c.key.1 = result.timestampUs.toNat := by
  obtain ⟨p, hp, rfl⟩ := List.mem_map.mp hc
  rw [← result_of_mem_packetsOf (List.mem_of_mem_drop hp)]
  rfl

theorem key_of_mem_within {outcomes : List (SpectrumResult × ℕ)} {sequence : UInt16} {i j : ℕ}
    {c : SpectrumChunk}
    (hc : c ∈ (((packetsOfRun sequence outcomes).take j).drop i).map hostChunk) :
    ∃ o ∈ outcomes, c.key.1 = o.1.timestampUs.toNat := by
  obtain ⟨p, hp, rfl⟩ := List.mem_map.mp hc
  have hresult := result_of_mem_packetsOfRun (List.mem_of_mem_take (List.mem_of_mem_drop hp))
  obtain ⟨o, ho, hfst⟩ := List.mem_map.mp hresult
  refine ⟨o, ho, ?_⟩
  rw [hfst]
  rfl

theorem timestamp_of_mem_within {outcomes : List (SpectrumResult × ℕ)} {i j : ℕ}
    {frame : SpectrumFrame} (hframe : frame ∈ framesWithin i j outcomes) :
    ∃ o ∈ outcomes, frame.timestampUs = o.1.timestampUs.toNat := by
  induction outcomes generalizing i j with
  | nil => simp [framesWithin] at hframe
  | cons o os ih =>
      rcases List.mem_append.mp hframe with hframe | hframe
      · obtain ⟨channel, -, h⟩ := List.mem_filterMap.mp hframe
        obtain ⟨-, hsome⟩ := Option.ite_none_right_eq_some.mp h
        obtain rfl := Option.some.inj hsome
        exact ⟨o, List.mem_cons_self, rfl⟩
      · obtain ⟨o', ho', h⟩ := ih hframe
        exact ⟨o', List.mem_cons_of_mem _ ho', h⟩

/-- **Which frames come out**: those all of whose chunks arrive. -/
theorem framesWithin_eq_filter {outcomes : List (SpectrumResult × ℕ)}
    (hle : ∀ o ∈ outcomes, o.2 ≤ 8)
    (hdistinct : (outcomes.map fun o => o.1.timestampUs).Nodup) (sequence : UInt16) (i j : ℕ) :
    framesWithin i j outcomes = (framesWithin 0 j outcomes).filter fun frame =>
      arrived (frame.timestampUs, frame.channel)
        ((((packetsOfRun sequence outcomes).take j).drop i).map hostChunk) = 4 := by
  induction outcomes generalizing sequence i j with
  | nil => rfl
  | cons o os ih =>
      obtain ⟨result, n⟩ := o
      have hn : n ≤ 8 := hle _ List.mem_cons_self
      rw [List.map_cons, List.nodup_cons] at hdistinct
      have hother : ∀ o ∈ os, o.1.timestampUs.toNat ≠ result.timestampUs.toNat := fun o ho h =>
        hdistinct.1 (List.mem_map.mpr ⟨o, ho, UInt32.toNat_inj.mp h⟩)
      rw [packetsOfRun, packets_within result sequence hn, List.map_append, framesWithin,
        framesWithin, List.filter_append, Nat.zero_sub,
        ih (fun o' ho' => hle o' (List.mem_cons_of_mem _ ho')) hdistinct.2
          (sequence + UInt16.ofNat n) (i - n) (j - n)]
      congr 1
      · rw [framesBetween, framesBetween, List.filter_filterMap]
        refine List.filterMap_congr fun channel _ => ?_
        have hrest : arrived (result.timestampUs.toNat, channel.val)
            ((((packetsOfRun (sequence + UInt16.ofNat n) os).take (j - n)).drop (i - n)).map
              hostChunk) = 0 := by
          refine arrived_eq_zero fun c hc h => ?_
          obtain ⟨o, ho, hkey⟩ := key_of_mem_within hc
          exact hother o ho (hkey.symm.trans (congrArg Prod.fst h))
        have hcount := arrived_between result channel sequence i (n := min j n) (by omega)
        by_cases hend : 4 * (channel.val + 1) ≤ min j n
        · have hiff : arrived (result.timestampUs.toNat, channel.val)
              (((packetsOf result sequence (plan.take (min j n))).drop i).map hostChunk ++
                (((packetsOfRun (sequence + UInt16.ofNat n) os).take (j - n)).drop (i - n)).map
                  hostChunk) = 4 ↔ i ≤ 4 * channel.val := by
            rw [arrived_append, hrest, hcount]
            omega
          have hframe : (frameOf result channel).timestampUs = result.timestampUs.toNat ∧
              (frameOf result channel).channel = channel.val := ⟨rfl, rfl⟩
          simp only [hend, and_true, Nat.zero_le, if_true, Option.filter_some, hframe,
            decide_eq_true_eq, hiff]
        · simp [hend]
      · refine List.filter_congr fun frame hframe => ?_
        obtain ⟨o, ho, hts⟩ := timestamp_of_mem_within hframe
        have hhead : arrived (frame.timestampUs, frame.channel)
            (((packetsOf result sequence (plan.take (min j n))).drop i).map hostChunk) = 0 := by
          refine arrived_eq_zero fun c hc h => ?_
          have hkey := key_of_mem_packetsOf hc
          rw [h] at hkey
          exact hother o ho (hts.symm.trans hkey)
        rw [arrived_append, hhead, Nat.zero_add]

/-! ## A tool at the port -/

section Port
variable {env : Environment} {s : Firmware} {missed heard later : List UInt8}

/-- What is heard is a part of the packets of the run, and everything so far a longer one. -/
theorem packets_heard {packets : List Packet}
    (hsplit : packets.flatMap Packet.wire = missed ++ telemetrySof :: (heard ++ later)) :
    ∃ i j, receivedChunks heard = ((packets.take j).drop i).map hostChunk ∧
      receivedChunks (missed ++ telemetrySof :: heard) =
        ((packets.take j).drop 0).map hostChunk := by
  obtain ⟨before, seen, -, hseen, hheard⟩ := received_late hsplit
  have hprefix := completedBy_prefix (missed.length + 1 + heard.length) packets
  rw [← hseen] at hprefix
  have htake : packets.take (before ++ seen).length = before ++ seen :=
    (List.prefix_iff_eq_take.mp hprefix).symm
  have hsofar : (packets.flatMap Packet.wire).take (missed.length + 1 + heard.length) =
      missed ++ telemetrySof :: heard := by
    have hassoc : missed ++ telemetrySof :: (heard ++ later) =
        (missed ++ telemetrySof :: heard) ++ later := by simp
    rw [hsplit, hassoc, List.take_left' (by simp; omega)]
  refine ⟨before.length, (before ++ seen).length, ?_, ?_⟩
  · rw [htake, List.drop_left' rfl, hheard]
  · rw [htake, List.drop_zero, hseen, ← received_take, hsofar]

/-- **A host that attaches late.**  Attached behind any delimiter of any run and taken away
at any byte, with UART calls failing anywhere, the decoder counts nothing, and the frames are
exactly those, of all a host would have by now that had listened all along, whose four chunks
it received itself.  No chunk is refused or repeated, and no spectrum evicted as long as all
but thirteen of the published results have been delivered. -/
theorem late_listener (hs : Reachable env s)
    (hdistinct : ((publishedResults s.log).map SpectrumResult.timestampUs).Nodup)
    (hsplit : s.sender.wire = missed ++ telemetrySof :: (heard ++ later)) :
    let host := FrameDecoder.after heard
    let assembler := SpectrumAssembler.after (receivedChunks heard)
    (host.errors = 0 ∧ host.lost = 0 ∧ host.duplicates = 0 ∧ host.outOfOrder = 0) ∧
      (framesFrom heard = (framesFrom (missed ++ telemetrySof :: heard)).filter fun frame =>
        arrived (frame.timestampUs, frame.channel) (receivedChunks heard) = 4) ∧
      assembler.duplicateChunks = 0 ∧ assembler.inconsistentChunks = 0 ∧
      ((publishedResults s.log).length ≤ (deliveredResults s.log).length + 13 →
        assembler.incompleteEvictions = 0) := by
  obtain ⟨outcomes, h⟩ := hs.transmitted
  have htaken : (outcomes.map Prod.fst).Sublist (publishedResults s.log) :=
    (List.sublist_append_left _ _).trans h.taken
  have hnodup : (outcomes.map fun o => o.1.timestampUs).Nodup := by
    have hmap := hdistinct.sublist (htaken.map SpectrumResult.timestampUs)
    rwa [List.map_map] at hmap
  rw [h.wire] at hsplit
  obtain ⟨i, j, hheard, hsofar⟩ := packets_heard hsplit
  have hempty : ∀ k ∈ SpectrumAssembler.init.pending.keys, ∀ o ∈ outcomes,
      k.1 ≠ o.1.timestampUs.toNat := by simp [SpectrumAssembler.init]
  obtain ⟨hframes, hfollowed⟩ := pushes_within h.le hnodup hempty 0 i j
  obtain ⟨hall, -⟩ := pushes_within h.le hnodup hempty 0 0 j
  have hleft := leftWithin_le h.le i j
  refine ⟨quiet_late hsplit (numbered_packetsOfRun h.le 0), ?_, ?_, ?_, ?_⟩
  · rw [framesFrom, framesFrom, yields_received, yields_received, hheard, hsofar, hframes, hall]
    exact framesWithin_eq_filter h.le hnodup 0 i j
  · rw [hheard]
    exact hfollowed.duplicates
  · rw [hheard]
    exact hfollowed.inconsistent
  · intro hmost
    have hlength := htaken.length_le
    have hdelivered := h.delivered.length_le
    rw [List.length_map] at hlength
    have hinit : SpectrumAssembler.init.pending.size = 0 := rfl
    rw [hheard]
    refine hfollowed.evictions ?_
    rw [hinit, maxPendingSpectra]
    split_ifs at hleft <;> omega

/-- Attached in the middle of the first packet. -/
theorem late_listener_silence : ∃ (s : Firmware) (missed heard : List UInt8),
    Reachable Firmware.silence s ∧ missed ≠ [] ∧
      s.sender.wire = missed ++ telemetrySof :: heard ∧ (FrameDecoder.after heard).errors = 0 ∧
      (SpectrumAssembler.after (receivedChunks heard)).incompleteEvictions = 0 := by
  obtain ⟨s, frame, hs, -, hdistinct, hone, hframe⟩ := exists_frame Firmware.silence
  obtain ⟨outcomes, h⟩ := hs.transmitted
  have hwire := h.wire
  cases hpackets : packetsOfRun 0 outcomes with
  | nil =>
      rw [hwire, hpackets] at hframe
      exact absurd hframe (by simp [framesFrom, SpectrumAssembler.init])
  | cons p ps =>
      rw [hpackets, List.flatMap_cons, p.wire_eq] at hwire
      have hsplit : s.sender.wire = (telemetrySof :: telemetryCode.stuff p.raw.toList) ++
          telemetrySof :: (ps.flatMap Packet.wire ++ []) := by
        rw [hwire]
        simp
      obtain ⟨hquiet, -, -, -, hevictions⟩ := late_listener hs hdistinct hsplit
      refine ⟨s, telemetrySof :: telemetryCode.stuff p.raw.toList, ps.flatMap Packet.wire, hs,
        List.cons_ne_nil _ _, ?_, hquiet.1, hevictions (by omega)⟩
      rw [hsplit, List.append_nil]

end Port

end SpectrumAnalyzer.Host
