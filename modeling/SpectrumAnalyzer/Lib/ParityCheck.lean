import Mathlib.Algebra.BigOperators.Group.Finset.Basic
import Mathlib.Algebra.Field.ZMod
import Mathlib.Algebra.Group.Hom.Instances
import Mathlib.InformationTheory.Hamming

/-!
# Parity-check codes

A code given by one check word for every position: a word of bits belongs to it when the
check words at its ones add up to zero.  Words are added bit by bit.  Two codewords that
differ in a set of positions make the check words of that set add up to zero, so what a
code detects is read off its check words.

## Main definitions

* `Word` — bit vectors under exclusive or.
* `syndrome` — the sum of the check words at the ones.
* `four_le_hammingDist` — distinct check words of odd parity give distance four.
* `Independent` — no choice of some check words adds up to zero.
* `eliminate` — the decision procedure for it.
-/

namespace ParityCheck

/-! ## Words -/

/-- Bit vectors of width `w` under exclusive or. -/
@[ext] structure Word (w : ℕ) where
  bits : BitVec w
  deriving DecidableEq

variable {w : ℕ}

namespace Word

instance : Zero (Word w) := ⟨⟨0#w⟩⟩
instance : Add (Word w) := ⟨fun c d => ⟨c.bits ^^^ d.bits⟩⟩
instance : Neg (Word w) := ⟨id⟩

@[simp] theorem bits_zero : (0 : Word w).bits = 0#w := rfl
@[simp] theorem bits_add (c d : Word w) : (c + d).bits = c.bits ^^^ d.bits := rfl

instance : AddCommGroup (Word w) where
  add_assoc _ _ _ := Word.ext (BitVec.xor_assoc _ _ _)
  zero_add _ := Word.ext BitVec.zero_xor
  add_zero _ := Word.ext BitVec.xor_zero
  neg_add_cancel _ := Word.ext BitVec.xor_self
  add_comm _ _ := Word.ext (BitVec.xor_comm _ _)
  nsmul := nsmulRec
  zsmul := zsmulRec

theorem mk_xor (c d : BitVec w) : (⟨c ^^^ d⟩ : Word w) = ⟨c⟩ + ⟨d⟩ := rfl

@[simp] theorem add_self (c : Word w) : c + c = 0 := Word.ext BitVec.xor_self

theorem add_eq_zero_iff {c d : Word w} : c + d = 0 ↔ c = d := add_eq_zero_iff_eq_neg

/-- Bit `i`, as a number modulo two. -/
def bit (i : ℕ) : Word w →+ ZMod 2 where
  toFun c := if c.bits.getLsbD i then 1 else 0
  map_zero' := by simp
  map_add' c d := by
    rw [bits_add, BitVec.getLsbD_xor]
    cases c.bits.getLsbD i <;> cases d.bits.getLsbD i <;> decide

theorem bit_apply (i : ℕ) (c : Word w) : bit i c = if c.bits.getLsbD i then 1 else 0 := rfl

theorem bit_eq_zero_iff (i : ℕ) (c : Word w) : bit i c = 0 ↔ c.bits.getLsbD i = false := by
  rw [bit_apply]
  cases c.bits.getLsbD i <;> decide

theorem bit_eq_one_iff (i : ℕ) (c : Word w) : bit i c = 1 ↔ c.bits.getLsbD i = true := by
  rw [bit_apply]
  cases c.bits.getLsbD i <;> decide

/-- Words with the same bits are equal. -/
theorem ext_bit {c d : Word w} (h : ∀ i < w, bit i c = bit i d) : c = d := by
  apply Word.ext
  apply BitVec.eq_of_getLsbD_eq
  intro i hi
  rw [Bool.eq_iff_iff, ← bit_eq_one_iff i c, ← bit_eq_one_iff i d, h i hi]

/-- The sum of all bits modulo two. -/
def parity : Word w →+ ZMod 2 := ∑ i ∈ Finset.range w, bit i

theorem parity_apply (c : Word w) : parity c = ∑ i ∈ Finset.range w, bit i c := by
  rw [parity, AddMonoidHom.finsetSum_apply]

end Word

/-! ## The sum of the check words -/

section Syndrome
variable {ι : Type*} [Fintype ι] (column : ι → Word w)

/-- The sum of the check words at the ones of `x`. -/
def syndrome (x : ι → Bool) : Word w := ∑ i, if x i then column i else 0

/-- The check words where two words differ add up to the difference of their syndromes. -/
theorem syndrome_add_syndrome [DecidableEq ι] (x y : ι → Bool) :
    syndrome column x + syndrome column y = ∑ i with x i ≠ y i, column i := by
  rw [syndrome, syndrome, ← Finset.sum_add_distrib, Finset.sum_filter]
  refine Finset.sum_congr rfl ?_
  intro i _
  cases x i <;> cases y i <;> simp

theorem syndrome_eq_iff [DecidableEq ι] (x y : ι → Bool) :
    syndrome column x = syndrome column y ↔ ∑ i with x i ≠ y i, column i = 0 := by
  rw [← syndrome_add_syndrome, Word.add_eq_zero_iff]

end Syndrome

/-! ## Distance -/

section Distance
variable {ι : Type*} {column : ι → Word w}

/-- An odd number of check words of odd parity does not add up to zero. -/
theorem even_card_of_sum_eq_zero (hodd : ∀ i, (column i).parity = 1) {s : Finset ι}
    (h : ∑ i ∈ s, column i = 0) : Even s.card := by
  have hparity : (∑ i ∈ s, column i).parity = (s.card : ZMod 2) := by
    rw [map_sum, Finset.sum_congr rfl fun i _ => hodd i, Finset.sum_const, nsmul_one]
  rw [h, map_zero] at hparity
  exact (ZMod.natCast_eq_zero_iff_even).mp hparity.symm

/-- Distinct check words do not add up to zero in pairs. -/
theorem card_ne_two_of_sum_eq_zero [DecidableEq ι] (hinj : Function.Injective column) {s : Finset ι}
    (h : ∑ i ∈ s, column i = 0) : s.card ≠ 2 := by
  intro htwo
  obtain ⟨i, j, hij, rfl⟩ := Finset.card_eq_two.mp htwo
  rw [Finset.sum_pair hij] at h
  exact hij (hinj (Word.add_eq_zero_iff.mp h))

/-- **Distance four.**  When the check words are distinct and of odd parity, words with
the same syndrome differ in four positions at least. -/
theorem four_le_hammingDist [Fintype ι] [DecidableEq ι] (hodd : ∀ i, (column i).parity = 1)
    (hinj : Function.Injective column) {x y : ι → Bool}
    (h : syndrome column x = syndrome column y) (hne : x ≠ y) : 4 ≤ hammingDist x y := by
  have hsum := (syndrome_eq_iff column x y).mp h
  have heven : Even (hammingDist x y) := even_card_of_sum_eq_zero hodd hsum
  have htwo : hammingDist x y ≠ 2 := card_ne_two_of_sum_eq_zero hinj hsum
  have hpos : hammingDist x y ≠ 0 := hammingDist_ne_zero.mpr hne
  obtain ⟨n, hn⟩ := heven
  omega

end Distance

/-! ## Independent check words -/

/-- No choice of some of the words adds up to zero. -/
def Independent (cs : List (Word w)) : Prop := ∀ s, s.Sublist cs → s.sum = 0 → s = []

/-- An injective map keeps words independent. -/
theorem Independent.map {cs : List (Word w)} (h : Independent cs) {f : Word w →+ Word w}
    (hf : Function.Injective f) : Independent (cs.map f) := by
  intro s hs hsum
  obtain ⟨t, ht, rfl⟩ := List.sublist_map_iff.mp hs
  rw [← map_list_sum, map_eq_zero_iff f hf] at hsum
  rw [h t ht hsum, List.map_nil]

/-- A set of positions as a choice from a list of positions. -/
theorem exists_sublist_of_subset {ι : Type*} [DecidableEq ι] {window : List ι}
    (hnodup : window.Nodup) (column : ι → Word w) {s : Finset ι} (hs : ∀ i ∈ s, i ∈ window) :
    ∃ t : List ι, t.Sublist window ∧ t.toFinset = s ∧ (t.map column).sum = ∑ i ∈ s, column i := by
  refine ⟨window.filter (· ∈ s), List.filter_sublist, ?_, ?_⟩
  · ext i
    simpa using hs i
  · rw [← List.sum_toFinset column (hnodup.filter _)]
    congr 1
    ext i
    simpa using hs i

/-- Independence speaks of the sets of positions inside a window. -/
theorem independent_iff {ι : Type*} [DecidableEq ι] {window : List ι} (hnodup : window.Nodup)
    (column : ι → Word w) : Independent (window.map column) ↔
      ∀ s : Finset ι, (∀ i ∈ s, i ∈ window) → ∑ i ∈ s, column i = 0 → s = ∅ := by
  constructor
  · intro h s hs hsum
    obtain ⟨t, ht, rfl, htsum⟩ := exists_sublist_of_subset hnodup column hs
    have hnil := h _ (ht.map column) (htsum.trans hsum)
    rw [List.map_eq_nil_iff.mp hnil, List.toFinset_nil]
  · intro h s hs hsum
    obtain ⟨t, ht, rfl⟩ := List.sublist_map_iff.mp hs
    have hempty := h t.toFinset (fun i hi => ht.subset (List.mem_toFinset.mp hi))
      ((List.sum_toFinset column (hnodup.sublist ht)).trans hsum)
    rw [List.toFinset_eq_empty_iff t |>.mp hempty, List.map_nil]

/-! ## Elimination -/

/-- A bit that is set. -/
def pivot (c : Word w) : Option ℕ := (List.range w).find? fun i => c.bits.getLsbD i

/-- Clear bit `i` of `d` with the help of `c`. -/
def clearBit (i : ℕ) (c d : Word w) : Word w := if d.bits.getLsbD i then d + c else d

/-- Gaussian elimination, for at most `n` words. -/
def eliminate : ℕ → List (Word w) → Bool
  | 0, cs => cs.isEmpty
  | _ + 1, [] => true
  | n + 1, c :: cs =>
      match pivot c with
      | none => false
      | some i => eliminate n (cs.map (clearBit i c))

theorem pivot_eq_none_iff (c : Word w) : pivot c = none ↔ c = 0 := by
  rw [pivot, List.find?_eq_none]
  constructor
  · intro h
    apply Word.ext
    apply BitVec.eq_of_getLsbD_eq
    intro i hi
    simpa using h i (List.mem_range.mpr hi)
  · rintro rfl
    simp

theorem bit_of_pivot {c : Word w} {i : ℕ} (h : pivot c = some i) : Word.bit i c = 1 := by
  rw [Word.bit_eq_one_iff]
  exact List.find?_some h

theorem bit_clear {c : Word w} {i : ℕ} (h : Word.bit i c = 1) (d : Word w) :
    Word.bit i (clearBit i c d) = 0 := by
  rw [clearBit]
  split
  · next hd =>
      rw [map_add, h, (Word.bit_eq_one_iff i d).mpr hd]
      decide
  · next hd => exact (Word.bit_eq_zero_iff i d).mpr (by simpa using hd)

theorem bit_sum_clear {c : Word w} {i : ℕ} (h : Word.bit i c = 1) (s : List (Word w)) :
    Word.bit i (s.map (clearBit i c)).sum = 0 := by
  rw [map_list_sum, List.map_map]
  apply List.sum_eq_zero
  intro x hx
  obtain ⟨d, -, rfl⟩ := List.mem_map.mp hx
  exact bit_clear h d

/-- Clearing changes a sum by `c` or not at all. -/
theorem sum_clear (i : ℕ) (c : Word w) (s : List (Word w)) :
    (s.map (clearBit i c)).sum = s.sum ∨ (s.map (clearBit i c)).sum = c + s.sum := by
  induction s with
  | nil => exact .inl rfl
  | cons d s ih =>
      have hclear : clearBit i c d = d ∨ clearBit i c d = c + d := by
        rw [clearBit]
        split
        · exact .inr (add_comm _ _)
        · exact .inl rfl
      rw [List.map_cons, List.sum_cons, List.sum_cons]
      rcases hclear with hd | hd <;> rcases ih with hs | hs <;> rw [hd, hs]
      · exact .inl rfl
      · exact .inr (add_left_comm _ _ _)
      · exact .inr (add_assoc _ _ _)
      · refine .inl ?_
        rw [add_assoc, add_left_comm d, ← add_assoc c, Word.add_self, zero_add]

/-- One round of elimination. -/
theorem independent_cons_iff {c : Word w} {i : ℕ} (h : Word.bit i c = 1) (cs : List (Word w)) :
    Independent (c :: cs) ↔ Independent (cs.map (clearBit i c)) := by
  constructor
  · intro hind s hs hsum
    obtain ⟨t, ht, rfl⟩ := List.sublist_map_iff.mp hs
    rcases sum_clear i c t with heq | heq <;> rw [heq] at hsum
    · rw [hind t (ht.trans (List.sublist_cons_self c cs)) hsum, List.map_nil]
    · exact absurd (hind (c :: t) (ht.cons_cons c) hsum) (List.cons_ne_nil c t)
  · intro hind s hs hsum
    rcases List.sublist_cons_iff.mp hs with ht | ⟨t, rfl, ht⟩
    · -- without `c`, the cleared words add up to zero, for their pivot bit is zero
      have hzero : (s.map (clearBit i c)).sum = 0 := by
        rcases sum_clear i c s with heq | heq
        · rw [heq, hsum]
        · have hbit := bit_sum_clear h s
          rw [heq, hsum, add_zero, h] at hbit
          exact absurd hbit (by decide)
      exact List.map_eq_nil_iff.mp (hind _ (ht.map _) hzero)
    · have hzero : (t.map (clearBit i c)).sum = 0 := by
        rcases sum_clear i c t with heq | heq
        · have hbit := bit_sum_clear h t
          rw [List.sum_cons, Word.add_eq_zero_iff] at hsum
          rw [heq, ← hsum, h] at hbit
          exact absurd hbit (by decide)
        · rw [heq, ← List.sum_cons, hsum]
      have hnil := List.map_eq_nil_iff.mp (hind _ (ht.map _) hzero)
      rw [hnil, List.sum_singleton] at hsum
      rw [hsum, map_zero] at h
      exact absurd h (by decide)

/-- Elimination decides independence. -/
theorem eliminate_iff (n : ℕ) (cs : List (Word w)) (hn : cs.length ≤ n) :
    eliminate n cs = true ↔ Independent cs := by
  induction n generalizing cs with
  | zero =>
      rw [List.length_eq_zero_iff.mp (Nat.le_zero.mp hn)]
      exact ⟨fun _ s hs _ => List.sublist_nil.mp hs, fun _ => rfl⟩
  | succ n ih =>
      cases cs with
      | nil => exact ⟨fun _ s hs _ => List.sublist_nil.mp hs, fun _ => rfl⟩
      | cons c cs =>
          have hlength : cs.length ≤ n := Nat.le_of_succ_le_succ hn
          rw [eliminate]
          split
          · next hpivot =>
              rw [(pivot_eq_none_iff c).mp hpivot]
              refine ⟨nofun, fun hind => ?_⟩
              exact absurd (hind [0] ((List.nil_sublist cs).cons_cons 0) (List.sum_singleton))
                (List.cons_ne_nil _ _)
          · next i hpivot =>
              rw [independent_cons_iff (bit_of_pivot hpivot)]
              exact ih _ (by rwa [List.length_map])

instance (cs : List (Word w)) : Decidable (Independent cs) :=
  decidable_of_iff _ (eliminate_iff cs.length cs le_rfl)

end ParityCheck
