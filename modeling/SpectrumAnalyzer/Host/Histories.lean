import Mathlib.Data.List.DropRight
import SpectrumAnalyzer.Host.EndToEnd
import SpectrumAnalyzer.Host.Pushes

/-!
# Histories of pushes

What the assembler holds and emits, in terms of the chunks that were pushed.  A group
ends when its frame is emitted, when it is rejected, or when it is evicted; it is opened
by a chunk that finds no group of its key.  A group holds, for each index, the latest
chunk since its key last ended, and the groups stand in the order in which they were
opened.

## Main definitions

* `Ends` — a push that emits, rejects or evicts a group.
* `sinceEnded`, `latest` — the chunks of a group, and the last of them at an index.
* `openedAt`, `openedGroups` — when a group was opened, and how many were.
* `frames_unmixed` — what every emitted frame is made of.
* `books_after` — the representation invariant, the order of the groups and their number.
-/

namespace SpectrumAnalyzer.Host

namespace SpectrumAssembler

/-! ## Events -/

/-- The push of `c` emits the frame of the group. -/
def Emits (a : SpectrumAssembler) (c : SpectrumChunk) (key : ℕ × ℕ) : Prop :=
  c.key = key ∧ (a.push c).2.frame?.isSome

/-- The push of `c` rejects the group. -/
def Rejects (a : SpectrumAssembler) (c : SpectrumChunk) (key : ℕ × ℕ) : Prop :=
  c.key = key ∧ a.inconsistentChunks < (a.push c).1.inconsistentChunks

/-- The push of `c` drops a group of another key. -/
def Evicts (a : SpectrumAssembler) (c : SpectrumChunk) (key : ℕ × ℕ) : Prop :=
  c.key ≠ key ∧ key ∈ a.pending.keys ∧ key ∉ (a.push c).1.pending.keys

def Ends (a : SpectrumAssembler) (c : SpectrumChunk) (key : ℕ × ℕ) : Prop :=
  Emits a c key ∨ Rejects a c key ∨ Evicts a c key

/-- The push of `c` opens the group. -/
def Opens (a : SpectrumAssembler) (c : SpectrumChunk) (key : ℕ × ℕ) : Prop :=
  c.key = key ∧ key ∉ a.pending.keys

instance (a : SpectrumAssembler) (c : SpectrumChunk) (key : ℕ × ℕ) : Decidable (Emits a c key) :=
  inferInstanceAs (Decidable (_ ∧ _))

instance (a : SpectrumAssembler) (c : SpectrumChunk) (key : ℕ × ℕ) :
    Decidable (Rejects a c key) :=
  inferInstanceAs (Decidable (_ ∧ _))

instance (a : SpectrumAssembler) (c : SpectrumChunk) (key : ℕ × ℕ) :
    Decidable (Evicts a c key) :=
  inferInstanceAs (Decidable (_ ∧ _ ∧ _))

instance (a : SpectrumAssembler) (c : SpectrumChunk) (key : ℕ × ℕ) : Decidable (Ends a c key) :=
  inferInstanceAs (Decidable (_ ∨ _ ∨ _))

instance (a : SpectrumAssembler) (c : SpectrumChunk) (key : ℕ × ℕ) : Decidable (Opens a c key) :=
  inferInstanceAs (Decidable (_ ∧ _))

/-! ## What a history says of a group -/

/-- The chunks of a key that were pushed since its group last ended. -/
def sinceEnded (key : ℕ × ℕ) (history : List SpectrumChunk) : List SpectrumChunk :=
  (((Machine.trace push init history).rtakeWhile fun s => ¬ Ends s.1 s.2 key).map Prod.snd).filter
    fun c => c.key = key

/-- The last chunk at an index. -/
def latest (i : ℕ) (chunks : List SpectrumChunk) : Option SpectrumChunk :=
  chunks.reverse.find? fun c => c.chunkIndex = i

/-- The number of pushes up to the one that last opened the group. -/
def openedAt (key : ℕ × ℕ) (history : List SpectrumChunk) : ℕ :=
  ((Machine.trace push init history).rdropWhile fun s => ¬ Opens s.1 s.2 key).length

/-- The number of groups that were ever opened. -/
def openedGroups (history : List SpectrumChunk) : ℕ :=
  (Machine.trace push init history).countP fun s => Opens s.1 s.2 s.2.key

theorem sinceEnded_snoc (key : ℕ × ℕ) (history : List SpectrumChunk) (c : SpectrumChunk) :
    sinceEnded key (history ++ [c]) =
      if Ends (after history) c key then []
      else if c.key = key then sinceEnded key history ++ [c] else sinceEnded key history := by
  rw [sinceEnded, Machine.trace_snoc, List.rtakeWhile_concat]
  change (List.filter _ (List.map _ (if decide (¬ Ends (after history) c key) then _ else _))) = _
  by_cases hends : Ends (after history) c key
  · simp [hends]
  · by_cases hkey : c.key = key <;> simp [hends, hkey, sinceEnded]

theorem latest_snoc (i : ℕ) (chunks : List SpectrumChunk) (c : SpectrumChunk) :
    latest i (chunks ++ [c]) = if c.chunkIndex = i then some c else latest i chunks := by
  rw [latest, List.reverse_append, List.reverse_singleton, List.singleton_append, List.find?_cons]
  by_cases h : c.chunkIndex = i <;> simp [h, latest]

theorem openedAt_snoc (key : ℕ × ℕ) (history : List SpectrumChunk) (c : SpectrumChunk) :
    openedAt key (history ++ [c]) =
      if Opens (after history) c key then history.length + 1 else openedAt key history := by
  rw [openedAt, Machine.trace_snoc, List.rdropWhile_concat]
  change (if decide (¬ Opens (after history) c key) then _ else _ : List _).length = _
  by_cases h : Opens (after history) c key <;> simp [h, openedAt]

theorem openedAt_le (key : ℕ × ℕ) (history : List SpectrumChunk) :
    openedAt key history ≤ history.length := by
  have h := List.rdropWhile_prefix (fun s => ¬ Opens s.1 s.2 key)
    (Machine.trace push init history)
  exact h.length_le.trans_eq (Machine.length_trace push init history)

theorem openedGroups_snoc (history : List SpectrumChunk) (c : SpectrumChunk) :
    openedGroups (history ++ [c]) =
      openedGroups history + if Opens (after history) c c.key then 1 else 0 := by
  rw [openedGroups, Machine.trace_snoc, List.countP_append, List.countP_singleton]
  simp only [decide_eq_true_eq]
  rfl

/-! ## What the exits of a push do to the groups -/

variable {a : SpectrumAssembler} {c : SpectrumChunk}

/-- A push leaves the groups of other keys as they are, unless it drops them. -/
theorem get?_push (h : Pushed a c (a.push c)) {key : ℕ × ℕ} (hkey : c.key ≠ key)
    {parts : Dict ℕ SpectrumChunk} (hget : (a.push c).1.pending.get? key = some parts) :
    a.pending.get? key = some parts := by
  have hne : key ≠ c.key := hkey.symm
  generalize a.push c = r at h hget
  cases h with
  | opened hnew hroom => rwa [Dict.get?_set_of_ne _ hne] at hget
  | evicted oldest hnew hfull hold =>
      rw [Dict.get?_set_of_ne _ hne, Dict.get?_erase] at hget
      split at hget
      · cases hget
      · exact hget
  | rejected _ _ _ _ _ => rwa [Dict.get?_erase, if_neg hne] at hget
  | joined _ _ _ _ _ _ => rwa [Dict.get?_set_of_ne _ hne] at hget
  | completed _ _ _ _ _ _ _ _ => rwa [Dict.get?_erase, if_neg hne] at hget

/-- A group ends when it was pending and no longer is. -/
theorem ends_iff (h : Pushed a c (a.push c)) (key : ℕ × ℕ) :
    Ends a c key ↔ key ∈ a.pending.keys ∧ key ∉ (a.push c).1.pending.keys := by
  by_cases hkey : c.key = key
  · -- its own group ends with a frame or with a rejection
    subst hkey
    have hown : Ends a c c.key ↔
        (a.push c).2.frame?.isSome ∨ a.inconsistentChunks < (a.push c).1.inconsistentChunks := by
      simp [Ends, Emits, Rejects, Evicts]
    rw [hown]
    generalize a.push c = r at h
    cases h with
    | opened hnew hroom => simp [PushOutcome.frame?, hnew]
    | evicted oldest hnew hfull hold => simp [PushOutcome.frame?, hnew]
    | rejected parts reference hget href hne =>
        simp [Dict.mem_keys_of_get? hget, Dict.mem_keys_erase]
    | joined parts reference hget href heq hsize =>
        simp [PushOutcome.frame?, Dict.mem_keys_set]
    | completed parts reference chunk hget href heq hsize hchunk =>
        simp [PushOutcome.frame?, Dict.mem_keys_of_get? hget, Dict.mem_keys_erase]
  · simp [Ends, Emits, Rejects, Evicts, hkey]

/-- The group of the chunk is open before the push, or after it. -/
theorem mem_keys_self (h : Pushed a c (a.push c)) :
    c.key ∈ a.pending.keys ∨ c.key ∈ (a.push c).1.pending.keys := by
  generalize a.push c = r at h
  cases h with
  | opened hnew hroom => exact .inr (Dict.mem_keys_set.mpr (.inl rfl))
  | evicted oldest hnew hfull hold => exact .inr (Dict.mem_keys_set.mpr (.inl rfl))
  | rejected _ _ hget _ _ => exact .inl (Dict.mem_keys_of_get? hget)
  | joined _ _ hget _ _ _ => exact .inl (Dict.mem_keys_of_get? hget)
  | completed _ _ _ hget _ _ _ _ => exact .inl (Dict.mem_keys_of_get? hget)

/-- The group of the chunk, when it is open after the push. -/
theorem get?_push_self (h : Pushed a c (a.push c)) {parts : Dict ℕ SpectrumChunk}
    (hget : (a.push c).1.pending.get? c.key = some parts) :
    parts = ((a.pending.get? c.key).getD .empty).set c.chunkIndex c := by
  generalize a.push c = r at h hget
  cases h with
  | opened hnew hroom =>
      rw [Dict.get?_set_self, Option.some_inj] at hget
      rw [(a.pending.get?_eq_none_iff c.key).mpr hnew, ← hget]
      rfl
  | evicted oldest hnew hfull hold =>
      rw [Dict.get?_set_self, Option.some_inj] at hget
      rw [(a.pending.get?_eq_none_iff c.key).mpr hnew, ← hget]
      rfl
  | rejected old reference hold href hne =>
      rw [Dict.get?_erase_self] at hget
      cases hget
  | joined old reference hold href heq hsize =>
      rw [Dict.get?_set_self, Option.some_inj] at hget
      rw [hold, ← hget]
      rfl
  | completed old reference chunk hold href heq hsize hchunk =>
      rw [Dict.get?_erase_self] at hget
      cases hget

/-! ## Groups hold the latest chunks -/

/-- The groups are what the chunks since their keys last ended make them. -/
def Current (history : List SpectrumChunk) (a : SpectrumAssembler) : Prop :=
  ∀ key i, ((a.pending.get? key).getD .empty).get? i = latest i (sinceEnded key history)

theorem current_init : Current [] init := by
  intro key i
  rfl

theorem current_push {history : List SpectrumChunk}
    (hpush : Pushed (after history) c ((after history).push c))
    (h : Current history (after history)) :
    Current (history ++ [c]) ((after history).push c).1 := by
  intro key i
  rw [sinceEnded_snoc]
  by_cases hends : Ends (after history) c key
  · have hnot := ((ends_iff hpush key).mp hends).2
    rw [if_pos hends, (Dict.get?_eq_none_iff _ _).mpr hnot]
    rfl
  rw [if_neg hends]
  have hkept : key ∈ (after history).pending.keys →
      key ∈ ((after history).push c).1.pending.keys := by
    intro hmem
    by_contra hnot
    exact hends ((ends_iff hpush key).mpr ⟨hmem, hnot⟩)
  by_cases hkey : c.key = key
  · subst hkey
    have hmem : c.key ∈ ((after history).push c).1.pending.keys :=
      (mem_keys_self hpush).elim hkept id
    obtain ⟨parts, hget⟩ := (Dict.mem_keys_iff _ _).mp hmem
    rw [hget, Option.getD_some, get?_push_self hpush hget, Dict.get?_set, h, if_pos rfl,
      latest_snoc]
    exact if_congr eq_comm rfl rfl
  · rw [if_neg hkey, ← h key i]
    congr 2
    by_cases hmem : key ∈ ((after history).push c).1.pending.keys
    · obtain ⟨parts, hget⟩ := (Dict.mem_keys_iff _ _).mp hmem
      rw [hget, get?_push hpush hkey hget]
    · have hnone : key ∉ (after history).pending.keys := fun hmem' => hmem (hkept hmem')
      rw [(Dict.get?_eq_none_iff _ _).mpr hmem, (Dict.get?_eq_none_iff _ _).mpr hnone]

theorem current_after {history : List SpectrumChunk} (hindex : ∀ d ∈ history, d.chunkIndex < 4) :
    Current history (after history) :=
  (after_induction (P := Current) current_init (fun _ _ hc hsound h =>
    current_push (push_cases hsound hc) h) hindex).2

theorem sinceEnded_subset (key : ℕ × ℕ) (history : List SpectrumChunk) :
    sinceEnded key history ⊆ history := by
  intro d hd
  have hd := List.mem_of_mem_filter hd
  have hsuffix := (List.rtakeWhile_suffix (fun s => ¬ Ends s.1 s.2 key)
    (Machine.trace push init history)).subset
  rw [← Machine.map_snd_trace push init history]
  exact List.map_subset Prod.snd hsuffix hd

/-- Whatever a group holds was pushed. -/
theorem mem_history {history : List SpectrumChunk} (hindex : ∀ d ∈ history, d.chunkIndex < 4)
    {key : ℕ × ℕ} {parts : Dict ℕ SpectrumChunk}
    (hget : (after history).pending.get? key = some parts) {d : SpectrumChunk}
    (hd : d ∈ parts.values) : d ∈ history := by
  obtain ⟨i, hi⟩ := (parts.mem_values_iff d).mp hd
  have hlatest := current_after hindex key i
  rw [hget, Option.getD_some, hi, latest] at hlatest
  exact sinceEnded_subset key history
    (List.mem_reverse.mp (List.mem_of_find?_eq_some hlatest.symm))

/-- **Frames are not mixed.**  Every frame that a history of pushes emits is put together
from the latest chunk of each index since its group last ended, all of one spectrum. -/
theorem frames_unmixed {pushes : List SpectrumChunk} (hdecoded : ∀ c ∈ pushes, Decoded c)
    {frame : SpectrumFrame} (hframe : frame ∈ Machine.yields push PushOutcome.frame? init pushes) :
    ∃ (history : List SpectrumChunk) (c : SpectrumChunk) (future : List SpectrumChunk)
      (chunk : ℕ → SpectrumChunk), pushes = history ++ c :: future ∧
      ((after history).push c).2 = .frame frame ∧
      (∀ i < 4, latest i (sinceEnded c.key history ++ [c]) = some (chunk i)) ∧
      (∀ i < 4, (chunk i).key = c.key ∧ (chunk i).invariant = c.invariant ∧
        (chunk i).chunkIndex = i) ∧
      frame = assemble (chunk 0) ((List.range 4).map chunk) := by
  obtain ⟨history, c, future, rfl, hemit⟩ := Machine.exists_of_mem_yields push hframe
  have hpast : ∀ d ∈ history, d.chunkIndex < 4 := fun d hd =>
    (hdecoded d (List.mem_append_left _ hd)).chunkIndex_lt
  have hc : Decoded c := hdecoded c (List.mem_append_right _ List.mem_cons_self)
  have hsound := sound_after hpast
  have hpush := push_cases hsound hc.chunkIndex_lt
  change ((after history).push c).2.frame? = some frame at hemit
  suffices hgoal : ∃ chunk : ℕ → SpectrumChunk, ((after history).push c).2 = .frame frame ∧
      (∀ i < 4, latest i (sinceEnded c.key history ++ [c]) = some (chunk i)) ∧
      (∀ i < 4, (chunk i).key = c.key ∧ (chunk i).invariant = c.invariant ∧
        (chunk i).chunkIndex = i) ∧
      frame = assemble (chunk 0) ((List.range 4).map chunk) by
    obtain ⟨chunk, hchunk⟩ := hgoal
    exact ⟨history, c, future, chunk, rfl, hchunk⟩
  generalize (after history).push c = r at hpush hemit ⊢
  cases hpush with
  | opened hnew hroom => cases hemit
  | evicted oldest hnew hfull hold => cases hemit
  | rejected parts reference hget href hne => cases hemit
  | joined parts reference hget href heq hsize => cases hemit
  | completed parts reference chunk hget href heq hsize hchunk =>
      cases hemit
      have hgroup := hsound.groups c.key parts hget
      have hvalue : ∀ i < 4, chunk i = c ∨ chunk i ∈ parts.values := by
        intro i hi
        exact Dict.eq_or_mem_values_of_set ((Dict.mem_values_iff _ _).mpr ⟨i, hchunk i hi⟩)
      refine ⟨chunk, rfl, ?_, ?_, rfl⟩
      · intro i hi
        rw [latest_snoc, ← current_after hpast c.key i, hget, Option.getD_some, ← hchunk i hi,
          Dict.get?_set]
        exact if_congr eq_comm rfl rfl
      · intro i hi
        obtain ⟨hkey, hindex⟩ := hgroup.placed rfl (hchunk i hi)
        refine ⟨hkey, ?_, hindex⟩
        rcases hvalue i hi with h | h
        · rw [h]
        · exact (hgroup.agrees _ h _ href).trans heq.symm

/-- Packet `i` of a channel whose magnitudes are all at one level. -/
def levelPacket (timestampUs status : UInt32) (level : UInt16) (i : ℕ) : Packet :=
  packetAt 0
    { SpectrumResult.zero with
      timestampUs := timestampUs
      status := status
      channel := .replicate 2 { ChannelSpectrum.zero with magnitudeQ15 := .replicate 512 level } }
    (placeOf (Fin.last 1) i)

theorem decoded_hostChunks (packets : List Packet) : ∀ c ∈ packets.map hostChunk, Decoded c := by
  intro c hc
  obtain ⟨p, -, rfl⟩ := List.mem_map.mp hc
  exact decoded_hostChunk p

/-- The first chunk of a spectrum comes twice, with other magnitudes the second time, and
a group of another timestamp is rejected meanwhile. -/
def resent : List SpectrumChunk :=
  [levelPacket 0 0 0 0, levelPacket 0 0 128 0, levelPacket 1 0 0 2, levelPacket 1 1 0 3,
    levelPacket 0 0 128 3, levelPacket 0 0 128 1, levelPacket 0 0 128 2].map hostChunk

/-- The frame of the second copy. -/
def resentFrame : SpectrumFrame :=
  assemble (hostChunk (levelPacket 0 0 128 0))
    [hostChunk (levelPacket 0 0 128 0), hostChunk (levelPacket 0 0 128 1),
      hostChunk (levelPacket 0 0 128 2), hostChunk (levelPacket 0 0 128 3)]

theorem yields_resent : Machine.yields push PushOutcome.frame? init resent = [resentFrame] := rfl

theorem frames_unmixed_resent : ∃ (history : List SpectrumChunk) (c : SpectrumChunk)
    (future : List SpectrumChunk) (chunk : ℕ → SpectrumChunk), resent = history ++ c :: future ∧
      ((after history).push c).2 = .frame resentFrame ∧
      (∀ i < 4, latest i (sinceEnded c.key history ++ [c]) = some (chunk i)) ∧
      (∀ i < 4, (chunk i).key = c.key ∧ (chunk i).invariant = c.invariant ∧
        (chunk i).chunkIndex = i) ∧
      resentFrame = assemble (chunk 0) ((List.range 4).map chunk) := by
  have hdecoded : ∀ c ∈ resent, Decoded c := decoded_hostChunks _
  have hframe : resentFrame ∈ Machine.yields push PushOutcome.frame? init resent := by
    simp [yields_resent]
  exact frames_unmixed hdecoded hframe

/-! ## The order of the groups, and their number -/

/-- The groups stand in the order in which they were opened. -/
def Ordered (history : List SpectrumChunk) (a : SpectrumAssembler) : Prop :=
  a.pending.keys.Pairwise fun j k => openedAt j history < openedAt k history

/-- Groups that were there keep the time of their opening. -/
theorem Ordered.kept {history : List SpectrumChunk} (h : Ordered history (after history))
    (c : SpectrumChunk) {keys : List (ℕ × ℕ)} (hkeys : keys.Sublist (after history).pending.keys) :
    keys.Pairwise fun j k => openedAt j (history ++ [c]) < openedAt k (history ++ [c]) := by
  have hsame : ∀ k ∈ keys, openedAt k (history ++ [c]) = openedAt k history := by
    intro k hk
    rw [openedAt_snoc, if_neg fun hopens => hopens.2 (hkeys.subset hk)]
  refine (h.sublist hkeys).imp_of_mem ?_
  intro j k hj hk hjk
  rwa [hsame j hj, hsame k hk]

/-- A group that is opened is the last. -/
theorem Ordered.opened {history : List SpectrumChunk} (h : Ordered history (after history))
    (hnew : c.key ∉ (after history).pending.keys) {keys : List (ℕ × ℕ)}
    (hkeys : keys.Sublist (after history).pending.keys) :
    (keys ++ [c.key]).Pairwise
      fun j k => openedAt j (history ++ [c]) < openedAt k (history ++ [c]) := by
  have hlast : openedAt c.key (history ++ [c]) = history.length + 1 := by
    rw [openedAt_snoc, if_pos ⟨rfl, hnew⟩]
  rw [List.pairwise_append]
  refine ⟨h.kept c hkeys, List.pairwise_singleton _ _, ?_⟩
  intro j hj k hk
  rw [List.mem_singleton.mp hk, hlast, openedAt_snoc,
    if_neg fun hopens => hopens.2 (hkeys.subset hj)]
  exact Nat.lt_succ_of_le (openedAt_le j history)

theorem ordered_push {history : List SpectrumChunk} {r : SpectrumAssembler × PushOutcome}
    (hpush : Pushed (after history) c r) (h : Ordered history (after history)) :
    Ordered (history ++ [c]) r.1 := by
  rw [Ordered]
  cases hpush with
  | opened hnew hroom =>
      rw [Dict.keys_set_of_notMem hnew]
      exact h.opened hnew (List.Sublist.refl _)
  | evicted oldest hnew hfull hold =>
      rw [Dict.keys_set_of_notMem fun hmem => hnew (Dict.mem_keys_erase.mp hmem).2]
      exact h.opened hnew (Dict.keys_erase_sublist _ _)
  | rejected parts reference hget href hne => exact h.kept c (Dict.keys_erase_sublist _ _)
  | joined parts reference hget href heq hsize =>
      rw [Dict.keys_set_of_mem (Dict.mem_keys_of_get? hget)]
      exact h.kept c (List.Sublist.refl _)
  | completed parts reference chunk hget href heq hsize hchunk =>
      exact h.kept c (Dict.keys_erase_sublist _ _)

/-- Only the oldest group is evicted. -/
theorem evicts_oldest {key : ℕ × ℕ} (hpush : Pushed a c (a.push c)) (h : Evicts a c key) :
    a.pending.oldest = some key := by
  obtain ⟨hkey, hmem, hnot⟩ := h
  have hne : key ≠ c.key := Ne.symm hkey
  generalize a.push c = r at hpush hnot
  cases hpush with
  | opened hnew hroom => exact absurd (Dict.mem_keys_set.mpr (.inr hmem)) hnot
  | evicted oldest hnew hfull hold =>
      by_contra hother
      have hold' : key ≠ oldest := fun heq => hother (heq ▸ hold)
      exact hnot (Dict.mem_keys_set.mpr (.inr (Dict.mem_keys_erase.mpr ⟨hold', hmem⟩)))
  | rejected parts reference hget href hneq =>
      exact absurd (Dict.mem_keys_erase.mpr ⟨hne, hmem⟩) hnot
  | joined parts reference hget href heq hsize =>
      exact absurd (Dict.mem_keys_set.mpr (.inr hmem)) hnot
  | completed parts reference chunk hget href heq hsize hchunk =>
      exact absurd (Dict.mem_keys_erase.mpr ⟨hne, hmem⟩) hnot

/-- Every group that was opened has ended in one of three ways, or is open. -/
def Balanced (history : List SpectrumChunk) (a : SpectrumAssembler) : Prop :=
  openedGroups history = (Machine.yields push PushOutcome.frame? init history).length +
    a.incompleteEvictions + a.inconsistentChunks + a.pending.size

theorem balanced_push {history : List SpectrumChunk}
    (hpush : Pushed (after history) c ((after history).push c))
    (h : Balanced history (after history)) :
    Balanced (history ++ [c]) ((after history).push c).1 := by
  have hyields : Machine.yields push PushOutcome.frame? init (history ++ [c]) =
      Machine.yields push PushOutcome.frame? init history ++
        ((after history).push c).2.frame?.toList := Machine.yields_snoc _ _ _ _ _
  simp only [Balanced] at h ⊢
  rw [openedGroups_snoc, hyields, List.length_append]
  generalize (after history).push c = r at hpush ⊢
  cases hpush with
  | opened hnew hroom =>
      rw [if_pos ⟨rfl, hnew⟩, Dict.size_set_of_notMem hnew]
      simp only [PushOutcome.frame?, Option.toList_none, List.length_nil]
      omega
  | evicted oldest hnew hfull hold =>
      have hcard := Dict.size_erase_of_mem (List.mem_of_head? hold)
      rw [if_pos ⟨rfl, hnew⟩,
        Dict.size_set_of_notMem fun hmem => hnew (Dict.mem_keys_erase.mp hmem).2]
      simp only [PushOutcome.frame?, Option.toList_none, List.length_nil]
      omega
  | rejected parts reference hget href hne =>
      have hmem := Dict.mem_keys_of_get? hget
      have hcard := Dict.size_erase_of_mem hmem
      rw [if_neg fun hopens => hopens.2 hmem]
      simp only [PushOutcome.frame?, Option.toList_none, List.length_nil]
      omega
  | joined parts reference hget href heq hsize =>
      have hmem := Dict.mem_keys_of_get? hget
      rw [if_neg fun hopens => hopens.2 hmem, Dict.size_set_of_mem hmem]
      simp only [PushOutcome.frame?, Option.toList_none, List.length_nil]
      omega
  | completed parts reference chunk hget href heq hsize hchunk =>
      have hmem := Dict.mem_keys_of_get? hget
      have hcard := Dict.size_erase_of_mem hmem
      rw [if_neg fun hopens => hopens.2 hmem]
      simp only [PushOutcome.frame?, Option.toList_some, List.length_singleton]
      omega

/-- **The assembler after any history.**  Its groups are sound and stand in the order in
which they were opened, an eviction takes the one that was opened first, and every group
that was opened is accounted for. -/
theorem books_after {history : List SpectrumChunk} (hdecoded : ∀ d ∈ history, Decoded d) :
    Sound (after history) ∧ Ordered history (after history) ∧
      (∀ c, Decoded c → ∀ key, Evicts (after history) c key →
        ∀ other ∈ (after history).pending.keys, other ≠ key →
          openedAt key history < openedAt other history) ∧
      Balanced history (after history) := by
  have hrun : Sound (after history) ∧
      Ordered history (after history) ∧ Balanced history (after history) := by
    refine after_induction (P := fun history a => Ordered history a ∧ Balanced history a)
      ⟨List.Pairwise.nil, rfl⟩ ?_ fun d hd => (hdecoded d hd).chunkIndex_lt
    intro history c hc hsound h
    have hpush := push_cases hsound hc
    exact ⟨ordered_push hpush h.1, balanced_push hpush h.2⟩
  obtain ⟨hsound, hordered, hbalanced⟩ := hrun
  refine ⟨hsound, hordered, ?_, hbalanced⟩
  intro c hc key hevicts other hother hne
  have hold := evicts_oldest (push_cases hsound hc.chunkIndex_lt) hevicts
  obtain ⟨rest, hkeys⟩ := List.head?_eq_some_iff.mp hold
  rw [Ordered] at hordered
  rw [hkeys] at hordered hother
  exact (List.pairwise_cons.mp hordered).1 other ((List.mem_cons.mp hother).resolve_left hne)

/-- Seventeen spectra begin, so that the first gives way; a chunk of the last comes twice,
and the next does not agree with it. -/
def crowded : List SpectrumChunk :=
  ((List.range 17).map (fun i => levelPacket (UInt32.ofNat i) 0 0 0) ++
    [levelPacket 16 0 0 0, levelPacket 16 1 0 1]).map hostChunk

theorem books_after_crowded :
    (after crowded).incompleteEvictions = 1 ∧ (after crowded).duplicateChunks = 1 ∧
      (after crowded).inconsistentChunks = 1 ∧ (after crowded).pending.size = 15 ∧
      Sound (after crowded) ∧ Ordered crowded (after crowded) ∧
      (∀ c, Decoded c → ∀ key, Evicts (after crowded) c key →
        ∀ other ∈ (after crowded).pending.keys, other ≠ key →
          openedAt key crowded < openedAt other crowded) ∧
      Balanced crowded (after crowded) :=
  ⟨by decide +kernel, by decide +kernel, by decide +kernel, by decide +kernel,
    books_after (decoded_hostChunks _)⟩

end SpectrumAssembler

end SpectrumAnalyzer.Host
