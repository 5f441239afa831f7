import Mathlib.Data.List.Induction
import Mathlib.Tactic.Ring

/-!
# Byte buffers and little-endian words

A serializer fills a fixed buffer from the front; a parser reads words back at fixed
offsets.  Both are related here to one list of bytes.  `p.toList.take k` is the part of
a buffer below offset `k`: a store at `k` extends it by the bytes stored, a load at `k`
shows the bytes it must continue with.

## Main definitions

* `le16`, `le32` — the bytes of a word, least significant first.
* `ofLE16`, `ofLE32` — the word made of such bytes.
* `readLE` — the unbounded value of a list of bytes.
* `fold_invariant` — the loop invariant of a counted loop.
-/

namespace Bytes

/-! ## Words and their bytes -/

/-- The two bytes of a word. -/
def le16 (v : UInt16) : List UInt8 := [v.toUInt8, (v >>> 8).toUInt8]

/-- The four bytes of a word. -/
def le32 (v : UInt32) : List UInt8 :=
  [v.toUInt8, (v >>> 8).toUInt8, (v >>> 16).toUInt8, (v >>> 24).toUInt8]

/-- The word with these two bytes. -/
def ofLE16 (a b : UInt8) : UInt16 := a.toUInt16 ||| (b.toUInt16 <<< 8)

/-- The word with these four bytes. -/
def ofLE32 (a b c d : UInt8) : UInt32 :=
  a.toUInt32 ||| (b.toUInt32 <<< 8) ||| (c.toUInt32 <<< 16) ||| (d.toUInt32 <<< 24)

/-- The value of a list of bytes, least significant first. -/
def readLE : List UInt8 → ℕ
  | [] => 0
  | b :: bs => b.toNat + 256 * readLE bs

@[simp] theorem length_le16 (v : UInt16) : (le16 v).length = 2 := rfl

@[simp] theorem length_le32 (v : UInt32) : (le32 v).length = 4 := rfl

private theorem or_shiftLeft {i a : ℕ} (h : a < 2 ^ i) (b : ℕ) :
    a ||| b <<< i = a + b * 2 ^ i := by
  rw [Nat.or_comm, ← Nat.shiftLeft_add_eq_or_of_lt h, Nat.shiftLeft_eq, Nat.add_comm]

theorem toNat_ofLE16 (a b : UInt8) : (ofLE16 a b).toNat = readLE [a, b] := by
  have ha := a.toNat_lt
  have hb := b.toNat_lt
  have hshift : b.toNat <<< 8 % 2 ^ 16 = b.toNat <<< 8 := by
    rw [Nat.shiftLeft_eq]
    exact Nat.mod_eq_of_lt (by omega)
  calc
    (ofLE16 a b).toNat = a.toNat ||| b.toNat <<< 8 % 2 ^ 16 := by
      simp [ofLE16, UInt16.toNat_shiftLeft]
    _ = a.toNat + b.toNat * 2 ^ 8 := by rw [hshift, or_shiftLeft ha]
    _ = readLE [a, b] := by simp only [readLE]; omega

theorem toNat_ofLE32 (a b c d : UInt8) : (ofLE32 a b c d).toNat = readLE [a, b, c, d] := by
  have ha := a.toNat_lt
  have hb := b.toNat_lt
  have hc := c.toNat_lt
  have hd := d.toNat_lt
  have hshift : ∀ x i : ℕ, x < 2 ^ 8 → i ≤ 24 → x <<< i % 2 ^ 32 = x <<< i := by
    intro x i hx hi
    rw [Nat.shiftLeft_eq]
    apply Nat.mod_eq_of_lt
    calc
      x * 2 ^ i < 2 ^ 8 * 2 ^ i := Nat.mul_lt_mul_of_pos_right hx (Nat.two_pow_pos i)
      _ ≤ 2 ^ 8 * 2 ^ 24 := Nat.mul_le_mul_left _ (Nat.pow_le_pow_right (by decide) hi)
      _ = 2 ^ 32 := by norm_num
  calc
    (ofLE32 a b c d).toNat =
        a.toNat ||| b.toNat <<< 8 % 2 ^ 32 ||| c.toNat <<< 16 % 2 ^ 32 |||
          d.toNat <<< 24 % 2 ^ 32 := by
      simp [ofLE32, UInt32.toNat_shiftLeft]
    _ = a.toNat + b.toNat * 2 ^ 8 + c.toNat * 2 ^ 16 + d.toNat * 2 ^ 24 := by
      rw [hshift _ 8 hb (by omega), hshift _ 16 hc (by omega), hshift _ 24 hd (by omega),
        or_shiftLeft ha, or_shiftLeft (i := 16) (by omega), or_shiftLeft (i := 24) (by omega)]
    _ = readLE [a, b, c, d] := by simp only [readLE]; omega

theorem ofLE16_bytes (v : UInt16) : ofLE16 v.toUInt8 (v >>> 8).toUInt8 = v := by
  apply UInt16.toNat_inj.mp
  have hv := v.toNat_lt
  rw [toNat_ofLE16]
  simp [readLE, Nat.shiftRight_eq_div_pow]
  omega

theorem ofLE32_bytes (v : UInt32) :
    ofLE32 v.toUInt8 (v >>> 8).toUInt8 (v >>> 16).toUInt8 (v >>> 24).toUInt8 = v := by
  apply UInt32.toNat_inj.mp
  have hv := v.toNat_lt
  rw [toNat_ofLE32]
  simp [readLE, Nat.shiftRight_eq_div_pow]
  omega

theorem le16_injective {v w : UInt16} (h : le16 v = le16 w) : v = w := by
  simp only [le16, List.cons.injEq, and_true] at h
  rw [← ofLE16_bytes v, h.1, h.2, ofLE16_bytes]

theorem le16_ofLE16 (a b : UInt8) : le16 (ofLE16 a b) = [a, b] := by
  have ha := a.toNat_lt
  have hb := b.toNat_lt
  have h := toNat_ofLE16 a b
  simp only [readLE] at h
  simp only [le16, List.cons.injEq, and_true, ← UInt8.toNat_inj]
  constructor
  · simp [h]
  · simp [h, Nat.shiftRight_eq_div_pow]
    omega

theorem le32_ofLE32 (a b c d : UInt8) : le32 (ofLE32 a b c d) = [a, b, c, d] := by
  have ha := a.toNat_lt
  have hb := b.toNat_lt
  have hc := c.toNat_lt
  have hd := d.toNat_lt
  have h := toNat_ofLE32 a b c d
  simp only [readLE] at h
  simp only [le32, List.cons.injEq, and_true, ← UInt8.toNat_inj]
  refine ⟨?_, ?_, ?_, ?_⟩ <;> simp [h, Nat.shiftRight_eq_div_pow] <;> omega

/-! ## The front of a buffer -/

section Buffer
variable {n : ℕ} (p : Vector UInt8 n)

/-- A store at offset `k` extends the front of the buffer by the byte stored. -/
theorem take_set {k : ℕ} (h : k < n) (x : UInt8) :
    (p.set k x).toList.take (k + 1) = p.toList.take k ++ [x] := by
  rw [Vector.toList_set, List.take_add_one]
  simp [h, List.take_set_of_le (Nat.le_refl k)]

/-- A load at offset `k` shows how the front of the buffer continues. -/
theorem take_succ {k : ℕ} (h : k < n) :
    p.toList.take (k + 1) = p.toList.take k ++ [p[k]] := by
  rw [List.take_add_one]
  simp [h]

end Buffer

/-! ## Counted loops -/

/-- **Induction along a counted loop**, on the index and what the loop has built. -/
theorem fold_invariant {β : Type*} (I : ℕ → β → Prop) {a : β} (h0 : I 0 a) :
    ∀ (m : ℕ) (f : (i : ℕ) → i < m → β → β),
      (∀ i (hi : i < m) b, I i b → I (i + 1) (f i hi b)) → I m (m.fold f a) := by
  intro m
  induction m with
  | zero => intro f _; simpa using h0
  | succ m ih =>
      intro f hstep
      rw [Nat.fold_succ]
      exact hstep m (Nat.lt_succ_self m) _
        (ih _ fun i hi b hb => hstep i (Nat.lt_succ_of_lt hi) b hb)

end Bytes
