import SpectrumAnalyzer.Lib.Radix2

/-!
# The loops of the transform for any butterfly

The loops of the radix-2 transform reach every pair of items of a stage once, whatever is done
to the pair.  Two transforms that do corresponding things to corresponding pairs therefore
stay in correspondence, stage by stage: one with rounded and one with exact arithmetic, say,
where the correspondence is a bound on the error.

## Main definitions

* `pair`, `blockWith`, `stageWith`, `transformWith` — the loops, for a given butterfly.
* `Carries` — a butterfly and its counterpart.
* `Between` — the correspondence in the middle of a stage.
* `carried_transform` — the correspondence behind the last stage.
-/

namespace Radix2

variable {α β : Type*}

/-! ## The loops -/

/-- One butterfly, in place. -/
def pair (f : α → α → α × α) (even odd : ℕ) (a : ℕ → α) : ℕ → α :=
  Function.update (Function.update a odd (f (a even) (a odd)).2) even (f (a even) (a odd)).1

/-- The first `k` butterflies of a block. -/
def blockWith (f : ℕ → α → α → α × α) (half base k : ℕ) (a : ℕ → α) : ℕ → α :=
  (List.range k).foldl (fun a o => pair (f o) (base + o) (base + o + half) a) a

/-- The first blocks of a stage. -/
def stageWith (f : ℕ → α → α → α × α) (half blocks : ℕ) (a : ℕ → α) : ℕ → α :=
  (List.range blocks).foldl (fun a q => blockWith f half (q * (2 * half)) half a) a

/-- The stages. -/
def transformWith (f : ℕ → ℕ → α → α → α × α) (m : ℕ) (a : ℕ → α) : ℕ → α :=
  (List.range m).foldl (fun a s => stageWith (f s) (2 ^ s) (2 ^ (m - 1 - s)) a) a

/-- The butterfly of the exact transform. -/
def exactPair {R : Type*} [CommRing R] (w : R) (o : ℕ) (x y : R) : R × R :=
  (x + w ^ o * y, x - w ^ o * y)

theorem transform_eq_transformWith {R : Type*} [CommRing R] (ω : ℕ → R) (m : ℕ) (a : ℕ → R) :
    transform ω m a = transformWith (fun s => exactPair (ω (s + 1))) m a := rfl

theorem blockWith_succ (f : ℕ → α → α → α × α) (half base k : ℕ) (a : ℕ → α) :
    blockWith f half base (k + 1) a =
      pair (f k) (base + k) (base + k + half) (blockWith f half base k a) := by
  simp [blockWith, List.range_succ]

theorem stageWith_succ (f : ℕ → α → α → α × α) (half blocks : ℕ) (a : ℕ → α) :
    stageWith f half (blocks + 1) a =
      blockWith f half (blocks * (2 * half)) half (stageWith f half blocks a) := by
  simp [stageWith, List.range_succ]

/-! ## Correspondence -/

/-- The butterflies `f` take items that correspond by `R` to items that correspond by `R'`. -/
def Carries (R R' : α → β → Prop) (half : ℕ) (f : ℕ → α → α → α × α) (g : ℕ → β → β → β × β) :
    Prop :=
  ∀ o < half, ∀ {x y x' y'}, R x x' → R y y' →
    R' (f o x y).1 (g o x' y').1 ∧ R' (f o x y).2 (g o x' y').2

/-- In the middle of a stage: what is `done` corresponds by `R'`, the rest by `R`. -/
def Between (R R' : α → β → Prop) (n : ℕ) (done : ℕ → Prop) (a : ℕ → α) (b : ℕ → β) : Prop :=
  ∀ p < n, (done p → R' (a p) (b p)) ∧ (¬ done p → R (a p) (b p))

section Stage
variable {R R' : α → β → Prop} {n half : ℕ} {f : ℕ → α → α → α × α} {g : ℕ → β → β → β × β}
  {a : ℕ → α} {b : ℕ → β} {done done' : ℕ → Prop}

theorem Between.congr (h : Between R R' n done a b) (hdone : ∀ p < n, done' p ↔ done p) :
    Between R R' n done' a b := fun p hp =>
  ⟨fun hd => (h p hp).1 ((hdone p hp).mp hd), fun hd => (h p hp).2 (mt (hdone p hp).mpr hd)⟩

/-- One butterfly. -/
theorem Between.pair (hfg : Carries R R' half f g) (h : Between R R' n done a b) {o even odd : ℕ}
    (ho : o < half) (heven : even < n) (hodd : odd < n) (hne : even ≠ odd)
    (hfresh : ¬ done even) (hfresh' : ¬ done odd) :
    Between R R' n (fun p => done p ∨ p = even ∨ p = odd) (pair (f o) even odd a)
      (pair (g o) even odd b) := by
  obtain ⟨hfirst, hsecond⟩ := hfg o ho ((h even heven).2 hfresh) ((h odd hodd).2 hfresh')
  intro p hp
  rw [Radix2.pair, Radix2.pair]
  by_cases hpe : p = even
  · subst hpe
    simpa using hfirst
  · by_cases hpo : p = odd
    · subst hpo
      simpa [hpe] using hsecond
    · simpa [hpe, hpo] using h p hp

/-- The first `k` butterflies of a block behind those that are done. -/
theorem Between.block (hfg : Carries R R' half f g) {base : ℕ} (hbase : base + 2 * half ≤ n)
    (h : Between R R' n (· < base) a b) {k : ℕ} (hk : k ≤ half) :
    Between R R' n (fun p => p < base + k ∨ (base + half ≤ p ∧ p < base + half + k))
      (blockWith f half base k a) (blockWith g half base k b) := by
  induction k with
  | zero => exact h.congr fun p _ => by omega
  | succ k ih =>
      rw [blockWith_succ, blockWith_succ]
      exact ((ih (by omega)).pair hfg hk (by omega) (by omega) (by omega) (by omega)
        (by omega)).congr fun p _ => by omega

/-- The first blocks of a stage. -/
theorem Between.stage (hfg : Carries R R' half f g) (h : ∀ p < n, R (a p) (b p)) {blocks : ℕ}
    (hblocks : blocks * (2 * half) ≤ n) :
    Between R R' n (· < blocks * (2 * half)) (stageWith f half blocks a)
      (stageWith g half blocks b) := by
  induction blocks with
  | zero => exact fun p hp => ⟨fun hd => absurd hd (by omega), fun _ => h p hp⟩
  | succ q ih =>
      rw [Nat.succ_mul] at hblocks
      rw [stageWith_succ, stageWith_succ]
      refine ((ih (by omega)).block hfg hblocks le_rfl).congr fun p _ => ?_
      rw [Nat.succ_mul]
      omega

end Stage

/-- **Transforms in correspondence.**  If every stage carries the correspondence on, the
transforms end with that of the last stage. -/
theorem carried_transform {R : ℕ → α → β → Prop} {m : ℕ} {f : ℕ → ℕ → α → α → α × α}
    {g : ℕ → ℕ → β → β → β × β}
    (hfg : ∀ s < m, Carries (R s) (R (s + 1)) (2 ^ s) (f s) (g s)) {a : ℕ → α} {b : ℕ → β}
    (h : ∀ p < 2 ^ m, R 0 (a p) (b p)) :
    ∀ p < 2 ^ m, R m (transformWith f m a p) (transformWith g m b p) := by
  have hstages : ∀ s ≤ m, ∀ p < 2 ^ m, R s
      ((List.range s).foldl (fun a s => stageWith (f s) (2 ^ s) (2 ^ (m - 1 - s)) a) a p)
      ((List.range s).foldl (fun b s => stageWith (g s) (2 ^ s) (2 ^ (m - 1 - s)) b) b p) := by
    intro s hs
    induction s with
    | zero => exact h
    | succ s ih =>
        have hsize : 2 ^ (m - 1 - s) * (2 * 2 ^ s) = 2 ^ m := by
          rw [← pow_succ', ← pow_add]
          congr 1
          omega
        intro p hp
        rw [List.range_succ, List.foldl_append, List.foldl_append]
        refine (Between.stage (hfg s hs) (ih (by omega)) hsize.le p hp).1 ?_
        rwa [hsize]
  exact hstages m le_rfl

end Radix2
