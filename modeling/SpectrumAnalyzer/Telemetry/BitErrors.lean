import SpectrumAnalyzer.Lib.CyclicCode
import SpectrumAnalyzer.Telemetry.EditSafety

/-!
# Bit errors in a packet

The CRC check of `decode_body` as a parity check.  Every bit of the body has a check
word, a power of the shift of the CRC register; the body passes when the check words at
its ones add up to a constant.  The CRC is stored with its low byte first, so the powers
fall by one from bit to bit of the data but not over the stored CRC.  That does not
matter to the distance of the code; it does matter to bursts that reach from the data
into the stored CRC.

## Main definitions

* `bodyBit`, `position` — the bits of a body in the order of the CRC.
* `checkWord` — the check word of a bit.
* `crc_distance` — different bodies that pass differ in four bits at least.
* `burst_detected_iff` — the windows inside which every burst is detected.
-/

namespace SpectrumAnalyzer

open ParityCheck ShiftRegister

/-! ## The bits of a body -/

/-- A bit: its byte, and its place in the byte, most significant first. -/
abbrev BitIndex := Fin 236 × Fin 8

def bodyBit (body : Vector UInt8 236) (q : BitIndex) : Bool :=
  (body.get q.1).toBitVec.getMsbD q.2

/-- The number of bits before this one. -/
def position (q : BitIndex) : ℕ := 8 * q.1 + q.2

/-- The bit at a position. -/
def bitAt (n : ℕ) : BitIndex := (Fin.ofNat 236 (n / 8), Fin.ofNat 8 (n % 8))

theorem position_injective : Function.Injective position := by
  intro q r h
  have hbyte : q.1 = r.1 := Fin.ext (by unfold position at h; omega)
  have hbit : q.2 = r.2 := Fin.ext (by unfold position at h; omega)
  exact Prod.ext hbyte hbit

theorem position_bitAt {n : ℕ} (hn : n < 1888) : position (bitAt n) = n := by
  change 8 * (n / 8 % 236) + n % 8 % 8 = n
  omega

theorem bitAt_position (q : BitIndex) : bitAt (position q) = q := by
  apply position_injective
  apply position_bitAt
  have hbyte := q.1.isLt
  have hbit := q.2.isLt
  rw [position]
  omega

theorem bodyBit_injective : Function.Injective bodyBit := by
  intro a b h
  apply Vector.ext
  intro i hi
  apply UInt8.eq_of_toBitVec_eq
  apply BitVec.eq_of_getMsbD_eq
  intro m hm
  exact congrFun h (⟨i, hi⟩, ⟨m, hm⟩)

/-- A body with one bit flipped. -/
def flipBit (body : Vector UInt8 236) (q : BitIndex) : Vector UInt8 236 :=
  body.set q.1 (body.get q.1 ^^^ UInt8.ofBitVec (BitVec.twoPow 8 (7 - q.2))) q.1.isLt

theorem bodyBit_flipBit (body : Vector UInt8 236) (q r : BitIndex) :
    bodyBit (flipBit body q) r = (bodyBit body r ^^ decide (r = q)) := by
  obtain ⟨i, m⟩ := q
  obtain ⟨j, n⟩ := r
  change BitVec.getMsbD (Vector.set body i _ _)[j.val].toBitVec n = _
  rw [Vector.getElem_set]
  by_cases hij : i.val = j.val
  · have hji : j = i := Fin.ext hij.symm
    have hbit : (decide (7 - m.val < 8) && decide (n.val = 8 - (7 - m.val) - 1)) =
        decide ((j, n) = (i, m)) := by
      rw [← Bool.decide_and, decide_eq_decide, Prod.mk.injEq, Fin.ext_iff, Fin.ext_iff]
      omega
    rw [if_pos hij, UInt8.toBitVec_xor, BitVec.getMsbD_xor, BitVec.getMsbD_twoPow, hbit, hji]
    rfl
  · have hne : (j, n) ≠ (i, m) := fun h => hij (congrArg (fun q => q.1.val) h).symm
    rw [if_neg hij, decide_eq_false hne, Bool.xor_false]
    rfl

/-! ## The check words -/

/-- The shifts that a bit has still before it.  The low byte of the CRC is stored first. -/
def exponent (q : BitIndex) : ℕ :=
  if q.1.val < 234 then 1887 - position q
  else if q.1.val = 234 then 7 - q.2
  else 15 - q.2

/-- The check word of a bit. -/
def checkWord (q : BitIndex) : Word 16 := power crc16Polynomial (exponent q)

theorem exponent_le (q : BitIndex) : exponent q ≤ 1887 := by
  rw [exponent]
  split
  · omega
  · split <;> omega

theorem exponent_injective : Function.Injective exponent := by
  intro q r h
  apply position_injective
  simp only [exponent] at h
  simp only [position] at h ⊢
  split_ifs at h <;> omega

theorem crc16Polynomial_constant : crc16Polynomial.getLsbD 0 = true := by decide

theorem parity_crc16Polynomial : Word.parity ⟨crc16Polynomial⟩ = 1 := by decide

set_option maxRecDepth 4000 in
/-- The register does not return to the unit within a packet. -/
theorem walk_crc16Polynomial : walk crc16Polynomial 1887 (shift crc16Polynomial 1#16) = true := by
  decide +kernel

theorem checkWord_injective : Function.Injective checkWord := by
  intro q r h
  exact exponent_injective (power_injective_of_walk crc16Polynomial (by decide)
    crc16Polynomial_constant walk_crc16Polynomial (exponent_le q) (exponent_le r) h)

theorem parity_checkWord (q : BitIndex) : (checkWord q).parity = 1 :=
  parity_power crc16Polynomial parity_crc16Polynomial (by decide) (exponent q)

/-! ## The check as a parity check -/

/-- The bits of a byte, counted from the other end. -/
theorem sum_getMsbD (b : BitVec 8) (f : ℕ → Word 16) :
    (∑ m : Fin 8, if b.getMsbD m then f (7 - m) else 0) =
      ∑ m : Fin 8, if b.getLsbD m then f m else 0 := by
  refine Fintype.sum_equiv Fin.revPerm _ _ ?_
  intro m
  have hbit : b.getMsbD m = b.getLsbD (m.rev : ℕ) := by
    rw [BitVec.getMsbD_eq_getLsbD, Fin.val_rev]
    simp [m.isLt]
  have hrev : 7 - m.val = m.rev := by
    rw [Fin.val_rev]
    omega
  rw [Fin.revPerm_apply, hbit, hrev]

/-- The stored CRC, low byte first. -/
theorem toBitVec_getU16 (low high : UInt8) :
    (low.toUInt16 ||| (high.toUInt16 <<< 8)).toBitVec =
      (low.toBitVec.setWidth 16 <<< 0) ^^^ (high.toBitVec.setWidth 16 <<< 8) := by
  rw [UInt16.toBitVec_or, UInt16.toBitVec_shiftLeft]
  apply BitVec.eq_of_getLsbD_eq
  intro i hi
  change (low.toBitVec.setWidth 16 ||| high.toBitVec.setWidth 16 <<< 8).getLsbD i = _
  rcases Nat.lt_or_ge i 8 with h | h
  · simp [h]
  · simp [BitVec.getLsbD_of_ge low.toBitVec i h]

/-- The register after the data. -/
theorem crc_eq_sum (body : Vector UInt8 236) :
    (⟨(crc16CcittFalse (body.toList.take 234)).toBitVec⟩ : Word 16) =
      shifts crc16Polynomial 1872 ⟨0xFFFF#16⟩ + ∑ i : Fin 234, ∑ m : Fin 8,
        if bodyBit body (i.castSucc.castSucc, m) then checkWord (i.castSucc.castSucc, m)
        else 0 := by
  have hdata : (body.toList.take 234).map UInt8.toBitVec =
      List.ofFn fun i : Fin 234 => (body.get i.castSucc.castSucc).toBitVec := by
    apply List.ext_getElem
    · rw [List.length_map, List.length_take, List.length_ofFn, Vector.length_toList]
      rfl
    · intro i hi hi'
      rw [List.getElem_map, List.getElem_take, Vector.getElem_toList, List.getElem_ofFn]
      rfl
  rw [toBitVec_crc16CcittFalse, hdata, run_ofFn crc16Polynomial (by decide)]
  congr 1
  refine Finset.sum_congr rfl ?_
  intro i _
  rw [← sum_getMsbD _ fun m => power crc16Polynomial (16 + 8 * (234 - 1 - i) + m)]
  refine Finset.sum_congr rfl ?_
  intro m _
  have hexponent : exponent (i.castSucc.castSucc, m) = 16 + 8 * (234 - 1 - i) + (7 - m) := by
    change (if i.val < 234 then 1887 - (8 * i.val + m.val) else _) = _
    rw [if_pos i.isLt]
    omega
  rw [checkWord, hexponent]
  rfl

/-- A byte of the stored CRC, placed in the register. -/
theorem stored_eq_sum (body : Vector UInt8 236) (i : Fin 236) {s : ℕ} (hs : s + 8 ≤ 16)
    (hexponent : ∀ m : Fin 8, exponent (i, m) = s + (7 - m)) :
    (⟨(body.get i).toBitVec.setWidth 16 <<< s⟩ : Word 16) =
      ∑ m : Fin 8, if bodyBit body (i, m) then checkWord (i, m) else 0 := by
  rw [placed_symbol crc16Polynomial _ hs,
    ← sum_getMsbD _ fun m => power crc16Polynomial (s + m)]
  refine Finset.sum_congr rfl ?_
  intro m _
  rw [checkWord, hexponent]
  rfl

/-- **The check is a parity check**: the register after the data and the stored CRC differ
by the check words at the ones of the body, and a constant. -/
theorem residue_eq (body : Vector UInt8 236) :
    (⟨(crc16CcittFalse (body.toList.take 234)).toBitVec⟩ + ⟨(getU16 body 234).toBitVec⟩ : Word 16) =
      shifts crc16Polynomial 1872 ⟨0xFFFF#16⟩ + syndrome checkWord (bodyBit body) := by
  have hstored : (⟨(getU16 body 234).toBitVec⟩ : Word 16) =
      (∑ m : Fin 8, if bodyBit body ((Fin.last 234).castSucc, m) then
        checkWord ((Fin.last 234).castSucc, m) else 0) +
      ∑ m : Fin 8, if bodyBit body (Fin.last 235, m) then checkWord (Fin.last 235, m) else 0 := by
    rw [← stored_eq_sum body (Fin.last 234).castSucc (s := 0) (by decide) (by decide),
      ← stored_eq_sum body (Fin.last 235) (s := 8) (by decide) (by decide), ← Word.mk_xor,
      ← toBitVec_getU16]
    rfl
  rw [crc_eq_sum, hstored, syndrome, Fintype.sum_prod_type, Fin.sum_univ_castSucc (n := 235),
    Fin.sum_univ_castSucc (n := 234), add_assoc, add_assoc]

theorem crcMatches_iff (body : Vector UInt8 236) : crcMatches body ↔
    shifts crc16Polynomial 1872 ⟨0xFFFF#16⟩ = syndrome checkWord (bodyBit body) := by
  rw [← Word.add_eq_zero_iff, ← residue_eq, Word.add_eq_zero_iff, crcMatches, Word.mk.injEq,
    UInt16.toBitVec_inj]

/-- Two bodies that pass have the same syndrome. -/
theorem syndrome_eq {a b : Vector UInt8 236} (ha : crcMatches a) :
    crcMatches b ↔ syndrome checkWord (bodyBit a) = syndrome checkWord (bodyBit b) := by
  rw [crcMatches_iff, ← (crcMatches_iff a).mp ha]

/-! ## Distance -/

/-- **The distance of the CRC is four.**  Different bodies that pass the check differ in
four bits at least, so that a body that passes and is then changed in one, two or three
bits is rejected. -/
theorem crc_distance {a b : Vector UInt8 236} (ha : crcMatches a) (hne : a ≠ b) :
    (crcMatches b → 4 ≤ hammingDist (bodyBit a) (bodyBit b)) ∧
      (hammingDist (bodyBit a) (bodyBit b) ≤ 3 → decodeBody b 236 = .badCrc) := by
  have hdistance : crcMatches b → 4 ≤ hammingDist (bodyBit a) (bodyBit b) := by
    intro hb
    exact four_le_hammingDist parity_checkWord checkWord_injective ((syndrome_eq ha).mp hb)
      (bodyBit_injective.ne hne)
  refine ⟨hdistance, ?_⟩
  intro hfew
  rw [decodeBody_eq_badCrc_iff]
  intro hb
  have hfar := hdistance hb
  omega

theorem crcMatches_raw (p : Packet) : crcMatches p.raw := by
  by_contra h
  have hbad := (decodeBody_eq_badCrc_iff p.raw).mpr h
  rw [p.decodeBody_raw] at hbad
  cases hbad

theorem flipBit_ne (body : Vector UInt8 236) (q : BitIndex) : body ≠ flipBit body q := by
  intro h
  have hbit := congrArg (bodyBit · q) h
  rw [bodyBit_flipBit] at hbit
  simp at hbit

theorem differ_flipBit (body : Vector UInt8 236) (q : BitIndex) :
    ({r | bodyBit body r ≠ bodyBit (flipBit body q) r} : Finset BitIndex) = {q} := by
  ext r
  rw [Finset.mem_filter, Finset.mem_singleton, bodyBit_flipBit]
  by_cases h : r = q <;> simp [h]

theorem hammingDist_flipBit (body : Vector UInt8 236) (q : BitIndex) :
    hammingDist (bodyBit body) (bodyBit (flipBit body q)) = 1 := by
  rw [hammingDist, differ_flipBit, Finset.card_singleton]

/-- The first bit of a packet of silence, flipped. -/
theorem crc_distance_flip : decodeBody (flipBit zeroPacket.raw (bitAt 0)) 236 = .badCrc :=
  (crc_distance (crcMatches_raw zeroPacket) (flipBit_ne _ _)).2
    ((hammingDist_flipBit _ _).trans_le (by decide))

/-! ## Bursts -/

/-- The sixteen bits from position `p` on. -/
def window (p : ℕ) : List BitIndex := (List.range 16).map fun t => bitAt (p + t)

theorem mem_window {p : ℕ} (hp : p ≤ 1872) (q : BitIndex) :
    q ∈ window p ↔ p ≤ position q ∧ position q < p + 16 := by
  rw [window, List.mem_map]
  constructor
  · rintro ⟨t, ht, rfl⟩
    have ht := List.mem_range.mp ht
    rw [position_bitAt (by omega)]
    omega
  · intro h
    refine ⟨position q - p, List.mem_range.mpr (by omega), ?_⟩
    rw [Nat.add_sub_cancel' h.1, bitAt_position]

theorem nodup_window {p : ℕ} (hp : p ≤ 1872) : (window p).Nodup := by
  refine List.nodup_range.map_on ?_
  intro s hs t ht h
  have hs := List.mem_range.mp hs
  have ht := List.mem_range.mp ht
  have hposition := congrArg position h
  rw [position_bitAt (by omega), position_bitAt (by omega)] at hposition
  omega

/-- The check words of a window inside the data are those of the last such window,
shifted. -/
theorem window_in_data {p : ℕ} (hp : p ≤ 1856) : (window p).map checkWord =
    ((window 1856).map checkWord).map (shifts crc16Polynomial (1856 - p)) := by
  have hexponent : ∀ n < 1872, exponent (bitAt n) = 1887 - n := by
    intro n hn
    have hbyte : (bitAt n).1.val = n / 8 % 236 := rfl
    rw [exponent, hbyte, if_pos (by omega), position_bitAt (by omega)]
  rw [window, window, List.map_map, List.map_map, List.map_map]
  refine List.map_congr_left ?_
  intro t ht
  have ht := List.mem_range.mp ht
  change checkWord _ = shifts _ _ (checkWord _)
  rw [checkWord, checkWord, shifts_power, hexponent _ (by omega), hexponent _ (by omega)]
  congr 1
  omega

/-- The windows that reach beyond the data. -/
theorem independent_beyond_data : ∀ j < 17, Independent ((window (1856 + j)).map checkWord) ↔
    j = 0 ∨ j = 5 ∨ j = 7 ∨ j = 9 ∨ j = 16 := by
  decide +kernel

theorem independent_window_iff {p : ℕ} (hp : p ≤ 1872) :
    Independent ((window p).map checkWord) ↔
      p ≤ 1856 ∨ p = 1861 ∨ p = 1863 ∨ p = 1865 ∨ p = 1872 := by
  rcases Nat.lt_or_ge 1856 p with h | h
  · obtain ⟨j, rfl⟩ := Nat.exists_eq_add_of_le h.le
    rw [independent_beyond_data j (by omega)]
    omega
  · refine iff_of_true ?_ (.inl h)
    rw [window_in_data h]
    exact ((independent_beyond_data 0 (by decide)).mpr (.inl rfl)).map
      (shifts_word_injective crc16Polynomial (by decide) crc16Polynomial_constant _)

/-- Bits flipped one after the other. -/
def flipBits (body : Vector UInt8 236) (t : List BitIndex) : Vector UInt8 236 :=
  t.foldl flipBit body

theorem bodyBit_flipBits {t : List BitIndex} (ht : t.Nodup) (body : Vector UInt8 236)
    (r : BitIndex) : bodyBit (flipBits body t) r = (bodyBit body r ^^ decide (r ∈ t)) := by
  induction t generalizing body with
  | nil => simp [flipBits]
  | cons q t ih =>
      obtain ⟨hq, ht⟩ := List.nodup_cons.mp ht
      change bodyBit (flipBits (flipBit body q) t) r = _
      rw [ih ht, bodyBit_flipBit, Bool.xor_assoc]
      by_cases h : r = q
      · subst h
        simp [hq]
      · simp [h]

theorem syndrome_flipBits (body : Vector UInt8 236) (t : List BitIndex) :
    syndrome checkWord (bodyBit (flipBits body t)) =
      syndrome checkWord (bodyBit body) + (t.map checkWord).sum := by
  induction t generalizing body with
  | nil => exact (add_zero _).symm
  | cons q t ih =>
      have hflip : syndrome checkWord (bodyBit (flipBit body q)) =
          syndrome checkWord (bodyBit body) + checkWord q := by
        have hsum := syndrome_add_syndrome checkWord (bodyBit body) (bodyBit (flipBit body q))
        rw [differ_flipBit, Finset.sum_singleton] at hsum
        rw [← hsum, ← add_assoc, Word.add_self, zero_add]
      change syndrome checkWord (bodyBit (flipBits (flipBit body q) t)) = _
      rw [ih, hflip, List.map_cons, List.sum_cons, add_assoc]

/-- Bits whose check words add up to zero are flipped unnoticed. -/
theorem flipBits_undetected {body : Vector UInt8 236} (hbody : crcMatches body)
    {t : List BitIndex} (hnodup : t.Nodup) (ht : t ≠ []) (hsum : (t.map checkWord).sum = 0) :
    crcMatches (flipBits body t) ∧ body ≠ flipBits body t ∧
      ∀ q, bodyBit body q ≠ bodyBit (flipBits body t) q → q ∈ t := by
  have hbit := bodyBit_flipBits hnodup body
  refine ⟨?_, ?_, ?_⟩
  · rw [syndrome_eq hbody, syndrome_flipBits, hsum, add_zero]
  · intro heq
    obtain ⟨q, hq⟩ := List.exists_mem_of_ne_nil t ht
    have hflipped := hbit q
    rw [← heq, decide_eq_true hq] at hflipped
    simp at hflipped
  · intro q hq
    by_contra hout
    rw [hbit, decide_eq_false hout, Bool.xor_false] at hq
    exact hq rfl

/-- **Where bursts are detected.**  Every change inside the sixteen bits from `p` on is
detected, in every body that passes, exactly when the window lies in the data, is the
stored CRC, or begins at one of three positions between. -/
theorem burst_detected_iff {p : ℕ} (hp : p ≤ 1872) :
    (∀ a b : Vector UInt8 236, crcMatches a → a ≠ b →
        (∀ q, bodyBit a q ≠ bodyBit b q → p ≤ position q ∧ position q < p + 16) →
        ¬ crcMatches b) ↔
      p ≤ 1856 ∨ p = 1861 ∨ p = 1863 ∨ p = 1865 ∨ p = 1872 := by
  rw [← independent_window_iff hp]
  constructor
  · intro h s hs hsum
    obtain ⟨t, ht, rfl⟩ := List.sublist_map_iff.mp hs
    by_contra hne
    have hraw := crcMatches_raw zeroPacket
    obtain ⟨hpass, hdiffer, hinside⟩ := flipBits_undetected hraw ((nodup_window hp).sublist ht)
      (fun hnil => hne (by rw [hnil, List.map_nil])) hsum
    exact h _ _ hraw hdiffer (fun q hq => (mem_window hp q).mp (ht.subset (hinside q hq))) hpass
  · intro h a b ha hne hburst hb
    have hsum := (syndrome_eq_iff checkWord _ _).mp ((syndrome_eq ha).mp hb)
    have hinside : ∀ q ∈ ({q | bodyBit a q ≠ bodyBit b q} : Finset BitIndex), q ∈ window p := by
      simp only [Finset.mem_filter_univ]
      intro q hq
      exact (mem_window hp q).mpr (hburst q hq)
    have hempty := (independent_iff (nodup_window hp) checkWord).mp h _ hinside hsum
    apply hne
    apply bodyBit_injective
    exact hammingDist_eq_zero.mp (Finset.card_eq_zero.mpr hempty)

/-- The first bit of the last window inside the data. -/
theorem burst_detected_flip : ¬ crcMatches (flipBit zeroPacket.raw (bitAt 1856)) := by
  refine (burst_detected_iff (p := 1856) (by decide)).mpr (.inl le_rfl) _ _
    (crcMatches_raw zeroPacket) (flipBit_ne _ _) ?_
  intro q hq
  have hflipped : q = bitAt 1856 := by
    by_contra hne
    rw [bodyBit_flipBit, decide_eq_false hne, Bool.xor_false] at hq
    exact hq rfl
  rw [hflipped, position_bitAt (by decide)]
  decide

/-- The last bit of the data, and the bits 12, 5 and 0 of the stored CRC. -/
theorem burst_undetected :
    ¬ ∀ p ≤ 1872, ∀ a b : Vector UInt8 236, crcMatches a → a ≠ b →
      (∀ q, bodyBit a q ≠ bodyBit b q → p ≤ position q ∧ position q < p + 16) →
      ¬ crcMatches b := by
  intro h
  have hraw := crcMatches_raw zeroPacket
  obtain ⟨hpass, hdiffer, hinside⟩ := flipBits_undetected hraw
    (t := [bitAt 1871, bitAt 1874, bitAt 1879, bitAt 1883])
    (by decide) (by decide) (by decide +kernel)
  have hwindow : ∀ q ∈ [bitAt 1871, bitAt 1874, bitAt 1879, bitAt 1883],
      1871 ≤ position q ∧ position q < 1871 + 16 := by decide +kernel
  exact h 1871 (by decide) _ _ hraw hdiffer (fun q hq => hwindow q (hinside q hq)) hpass

end SpectrumAnalyzer
