import Mathlib.Order.Interval.Finset.Nat

/-!
# Arrivals of numbered items

Items are numbered one after the other and arrive in any order, some more than once and
some never.  A receiver that remembers the highest number it has seen, and no other, can
tell repeated, late and skipped items apart; what it cannot tell is whether a late item
fills a gap that it has counted.  When the numbers are sent modulo `2 * half`, the
residues still order an item and the highest number as long as they are less than `half`
apart.

## Main definitions

* `Arrival`, `ranked` — every item but the first, with the highest number before it.
* `gaps`, `missing` — the numbers between the first and the highest that never arrived.
* `Tally` — what the receiver counts.
* `Fills`, `fills` — late items that fill a gap.
* `lost_eq` — the count of skipped items is what is missing and what was filled.
* `serial_delta` — numbers compared by their residues.
-/

namespace Arrivals

/-- An item, and the highest number that arrived before it. -/
structure Arrival where
  number : ℕ
  highest : ℕ
  deriving DecidableEq, Repr

/-- The highest number of a run. -/
def highest (first : ℕ) (later : List ℕ) : ℕ := later.foldl max first

/-- The items behind the first, each with the highest number before it. -/
def ranked : ℕ → List ℕ → List Arrival
  | _, [] => []
  | high, number :: later => ⟨number, high⟩ :: ranked (max high number) later

/-- The numbers between the first and the highest that never arrived. -/
def gaps (first : ℕ) (later : List ℕ) : Finset ℕ :=
  (Finset.Icc first (highest first later)).filter fun n => n ∉ first :: later

/-- How many there are. -/
def missing (first : ℕ) (later : List ℕ) : ℕ := (gaps first later).card

@[simp] theorem highest_nil (first : ℕ) : highest first [] = first := rfl

@[simp] theorem highest_snoc (first : ℕ) (later : List ℕ) (number : ℕ) :
    highest first (later ++ [number]) = max (highest first later) number := by
  simp [highest]

@[simp] theorem ranked_nil (high : ℕ) : ranked high [] = [] := rfl

@[simp] theorem ranked_cons (high number : ℕ) (later : List ℕ) :
    ranked high (number :: later) = ⟨number, high⟩ :: ranked (max high number) later := rfl

@[simp] theorem ranked_snoc (high : ℕ) (later : List ℕ) (number : ℕ) :
    ranked high (later ++ [number]) = ranked high later ++ [⟨number, highest high later⟩] := by
  induction later generalizing high with
  | nil => rfl
  | cons n later ih =>
      rw [List.cons_append, ranked_cons, ranked_cons, ih, List.cons_append]
      rfl

/-- No number of a run is above the highest, and the highest is one of them. -/
theorem le_highest {first : ℕ} {later : List ℕ} {n : ℕ} (h : n ∈ first :: later) :
    n ≤ highest first later := by
  induction later using List.reverseRecOn with
  | nil =>
      rw [List.mem_singleton.mp h]
      exact le_rfl
  | append_singleton later number ih =>
      rw [highest_snoc]
      rw [← List.cons_append, List.mem_append, List.mem_singleton] at h
      rcases h with h | rfl
      · exact (ih h).trans (le_max_left _ _)
      · exact le_max_right _ _

theorem highest_mem (first : ℕ) (later : List ℕ) : highest first later ∈ first :: later := by
  induction later using List.reverseRecOn with
  | nil => exact List.mem_cons_self
  | append_singleton later number ih =>
      rw [highest_snoc, ← List.cons_append, List.mem_append, List.mem_singleton]
      rcases le_total (highest first later) number with h | h
      · exact .inr (max_eq_right h)
      · exact .inl (by rwa [max_eq_left h])

/-! ## The receiver -/

/-- What a receiver counts that remembers the highest number. -/
structure Tally where
  highest : ℕ
  lost : ℕ
  duplicates : ℕ
  late : ℕ
  deriving DecidableEq, Repr

/-- One more item. -/
def Tally.count (t : Tally) (number : ℕ) : Tally :=
  if number = t.highest then { t with duplicates := t.duplicates + 1 }
  else if t.highest < number then
    { t with highest := number, lost := t.lost + (number - t.highest - 1) }
  else { t with late := t.late + 1 }

/-- An item adds the numbers that it skips. -/
theorem Tally.lost_count (t : Tally) (number : ℕ) :
    (t.count number).lost = t.lost + (number - t.highest - 1) := by
  rw [count]
  split
  · dsimp only
    omega
  split
  · rfl
  · dsimp only
    omega

theorem Tally.highest_count (t : Tally) (number : ℕ) :
    (t.count number).highest = max t.highest number := by
  rw [count]
  split
  · next h => rw [h, max_self]
  split
  · next h => exact (max_eq_right h.le).symm
  · next h => exact (max_eq_left (Nat.not_lt.mp h)).symm

/-- The tally of a run. -/
def tally (first : ℕ) (later : List ℕ) : Tally := later.foldl Tally.count ⟨first, 0, 0, 0⟩

theorem tally_snoc (first : ℕ) (later : List ℕ) (number : ℕ) :
    tally first (later ++ [number]) = (tally first later).count number := by
  simp [tally]

theorem highest_tally (first : ℕ) (later : List ℕ) :
    (tally first later).highest = highest first later := by
  induction later using List.reverseRecOn with
  | nil => rfl
  | append_singleton later number ih =>
      rw [tally_snoc, highest_snoc, Tally.highest_count, ih]

/-- **What the tally says of a run.**  Repeated and late items are counted one by one;
the highest number is reached from the first by the items that went forward and the
numbers they skipped. -/
theorem tally_spec (first : ℕ) (later : List ℕ) :
    (tally first later).duplicates =
        (ranked first later).countP (fun a => a.number = a.highest) ∧
      (tally first later).late = (ranked first later).countP (fun a => a.number < a.highest) ∧
      first + (tally first later).lost +
          (ranked first later).countP (fun a => a.highest < a.number) =
        highest first later := by
  induction later using List.reverseRecOn with
  | nil => exact ⟨rfl, rfl, rfl⟩
  | append_singleton later number ih =>
      obtain ⟨hdup, hlate, hlost⟩ := ih
      have hhigh := highest_tally first later
      simp only [tally_snoc, ranked_snoc, highest_snoc, List.countP_append, List.countP_singleton,
        Tally.count, hhigh, decide_eq_true_eq]
      rcases lt_trichotomy number (highest first later) with h | h | h
      · rw [if_neg h.ne, if_neg h.not_gt, if_neg h.ne, if_pos h, if_neg h.not_gt, max_eq_left h.le]
        exact ⟨hdup, congrArg (· + 1) hlate, hlost⟩
      · rw [if_pos h, if_pos h, if_neg h.not_lt, if_neg h.not_gt, h, max_self]
        exact ⟨congrArg (· + 1) hdup, hlate, hlost⟩
      · rw [if_neg h.ne', if_pos h, if_neg h.ne', if_neg h.not_gt, if_pos h, max_eq_right h.le]
        refine ⟨hdup, hlate, ?_⟩
        dsimp only
        omega

/-! ## Gaps that are filled -/

/-- An item that arrives late, after the first, and for the first time. -/
def Fills (first : ℕ) (before : List ℕ) (number : ℕ) : Prop :=
  first < number ∧ number < highest first before ∧ number ∉ before

instance (first : ℕ) (before : List ℕ) (number : ℕ) : Decidable (Fills first before number) :=
  inferInstanceAs (Decidable (_ ∧ _ ∧ _))

/-- How many items of a run, behind those in `before`, fill a gap. -/
def fills (first : ℕ) : List ℕ → List ℕ → ℕ
  | _, [] => 0
  | before, number :: later =>
      (if Fills first before number then 1 else 0) + fills first (before ++ [number]) later

theorem fills_snoc (first : ℕ) (before later : List ℕ) (number : ℕ) :
    fills first before (later ++ [number]) =
      fills first before later + if Fills first (before ++ later) number then 1 else 0 := by
  induction later generalizing before with
  | nil => simp [fills]
  | cons n later ih =>
      rw [List.cons_append, fills, ih, fills, List.append_assoc, List.singleton_append,
        Nat.add_assoc]

/-- Some item of the run fills a gap. -/
def Refilled (first : ℕ) (later : List ℕ) : Prop :=
  ∃ before number behind, later = before ++ number :: behind ∧ Fills first before number

theorem refilled_snoc (first : ℕ) (later : List ℕ) (number : ℕ) :
    Refilled first (later ++ [number]) ↔ Refilled first later ∨ Fills first later number := by
  constructor
  · rintro ⟨before, n, behind, hlater, hfills⟩
    rcases List.eq_nil_or_concat behind with rfl | ⟨behind, last, rfl⟩
    · obtain ⟨rfl, hn⟩ := List.append_inj' hlater rfl
      cases hn
      exact .inr hfills
    · rw [List.concat_eq_append, ← List.cons_append, ← List.append_assoc] at hlater
      obtain ⟨rfl, -⟩ := List.append_inj' hlater rfl
      exact .inl ⟨before, n, behind, rfl, hfills⟩
  · rintro (⟨before, n, behind, rfl, hfills⟩ | hfills)
    · exact ⟨before, n, behind ++ [number], by simp, hfills⟩
    · exact ⟨later, number, [], rfl, hfills⟩

theorem fills_eq_zero_iff (first : ℕ) (later : List ℕ) :
    fills first [] later = 0 ↔ ¬ Refilled first later := by
  induction later using List.reverseRecOn with
  | nil => simp [fills, Refilled]
  | append_singleton later number ih =>
      rw [fills_snoc, List.nil_append, Nat.add_eq_zero_iff, ih, refilled_snoc, not_or]
      simp

theorem mem_gaps {first n : ℕ} {later : List ℕ} :
    n ∈ gaps first later ↔ (first ≤ n ∧ n ≤ highest first later) ∧ n ∉ first :: later := by
  rw [gaps, Finset.mem_filter, Finset.mem_Icc]

/-- An item fills a gap exactly when its number is a gap. -/
theorem mem_gaps_iff_fills {first n : ℕ} {later : List ℕ} :
    n ∈ gaps first later ↔ Fills first later n := by
  rw [mem_gaps, List.mem_cons, not_or]
  constructor
  · rintro ⟨⟨hlow, hhigh⟩, hfirst, hlater⟩
    have hne : n ≠ highest first later := by
      intro h
      rcases List.mem_cons.mp (highest_mem first later) with hm | hm
      · exact hfirst (h.trans hm)
      · exact hlater (h ▸ hm)
    exact ⟨lt_of_le_of_ne hlow (Ne.symm hfirst), lt_of_le_of_ne hhigh hne, hlater⟩
  · rintro ⟨hlow, hhigh, hlater⟩
    exact ⟨⟨hlow.le, hhigh.le⟩, hlow.ne', hlater⟩

/-- An item that is not ahead closes its own gap. -/
theorem gaps_snoc_of_le {first number : ℕ} {later : List ℕ} (h : number ≤ highest first later) :
    gaps first (later ++ [number]) = (gaps first later).erase number := by
  ext n
  rw [Finset.mem_erase, mem_gaps, mem_gaps, highest_snoc, max_eq_left h, ← List.cons_append,
    List.mem_append, List.mem_singleton, not_or]
  tauto

/-- An item that is ahead opens a gap up to its number. -/
theorem gaps_snoc_of_gt {first number : ℕ} {later : List ℕ} (h : highest first later < number) :
    gaps first (later ++ [number]) =
      gaps first later ∪ Finset.Ioo (highest first later) number := by
  have hfirst : first ≤ highest first later := le_highest List.mem_cons_self
  ext n
  rw [Finset.mem_union, Finset.mem_Ioo, mem_gaps, mem_gaps, highest_snoc, max_eq_right h.le,
    ← List.cons_append, List.mem_append, List.mem_singleton, not_or]
  constructor
  · rintro ⟨⟨hlow, hhigh⟩, hn, hne⟩
    rcases le_or_gt n (highest first later) with hle | hgt
    · exact .inl ⟨⟨hlow, hle⟩, hn⟩
    · exact .inr ⟨hgt, lt_of_le_of_ne hhigh hne⟩
  · rintro (⟨⟨hlow, hhigh⟩, hn⟩ | ⟨hlow, hhigh⟩)
    · exact ⟨⟨hlow, hhigh.trans h.le⟩, hn, (hhigh.trans_lt h).ne⟩
    · exact ⟨⟨hfirst.trans hlow.le, hhigh.le⟩, fun hn => (le_highest hn).not_gt hlow, hhigh.ne⟩

/-- **What the count of skipped numbers means.**  It is what never arrived and what
arrived late after all. -/
theorem lost_eq (first : ℕ) (later : List ℕ) :
    (tally first later).lost = missing first later + fills first [] later := by
  induction later using List.reverseRecOn with
  | nil =>
      have hnone : gaps first [] = ∅ := by
        ext n
        rw [mem_gaps_iff_fills]
        simp only [Fills, highest_nil, Finset.notMem_empty, iff_false]
        omega
      rw [missing, hnone]
      rfl
  | append_singleton later number ih =>
      rw [tally_snoc, Tally.lost_count, highest_tally, ih, fills_snoc, List.nil_append, missing,
        missing]
      rcases le_or_gt number (highest first later) with hle | hahead
      · rw [gaps_snoc_of_le hle, Finset.card_erase_eq_ite, if_congr mem_gaps_iff_fills rfl rfl]
        split
        · next h =>
            have hpos := Finset.card_pos.mpr ⟨number, mem_gaps_iff_fills.mpr h⟩
            omega
        · omega
      · have hdisjoint : Disjoint (gaps first later) (Finset.Ioo (highest first later) number) := by
          rw [Finset.disjoint_left]
          intro n hn hn'
          exact (mem_gaps.mp hn).1.2.not_gt (Finset.mem_Ioo.mp hn').1
        have hnot : ¬ Fills first later number := fun h => h.2.1.not_gt hahead
        rw [gaps_snoc_of_gt hahead, Finset.card_union_of_disjoint hdisjoint, Nat.card_Ioo,
          if_neg hnot]
        omega

/-! ## Numbers sent modulo `2 * half` -/

/-- Numbers that are less than `half` apart are compared by their residues. -/
theorem serial_delta {half number high : ℕ} (hlow : high ≤ number + half)
    (hhigh : number < high + half) :
    (((number % (2 * half) : ℕ) : ℤ) - (high % (2 * half) : ℕ)) % (2 * half : ℕ) =
      if high ≤ number then (number : ℤ) - high else number + 2 * half - high := by
  push_cast
  rw [← Int.sub_emod]
  split
  · next h => exact Int.emod_eq_of_lt (by omega) (by omega)
  · next h =>
      rw [← Int.add_emod_right]
      exact (Int.emod_eq_of_lt (by omega) (by omega)).trans (by omega)

end Arrivals
