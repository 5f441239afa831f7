import Mathlib.Algebra.BigOperators.Group.List.Basic
import Mathlib.Algebra.GroupWithZero.Nat
import SpectrumAnalyzer.Lib.Deframer

/-!
# What a receiver holds against a stream

A receiver of a delimited code refuses a piece because the piece is too long to keep,
because of an impossible escape pair, or because of what the complete body says.  How
long a body it keeps is the receiver's policy.  For a given policy the receiver's view
of the open piece and its fault counters are functions of the stream: each piece is
charged once, at the first symbol that condemns it, and answered by one
resynchronisation at the delimiter that ends it.

## Main definitions

* `Policy` — which bodies a receiver keeps, and what it says of a complete one.
* `Policy.shown` — the view of a receiver that follows the policy.
* `Policy.openFault`, `Policy.closedFault` — the charge for a piece, before and at its end.
* `Policy.faultCount`, `Policy.resyncCount` — the counters after a stream.
* `Counter` — numbers that count, wrapping or not.
* `Auditor` — a receiver together with the proof that its counters follow the policy.
-/

namespace Framing

/-- Why a piece is refused. -/
inductive Fault (φ : Type*) where
  | overlong
  | escape
  | refused (reason : φ)
  deriving DecidableEq, Repr

/-- How a receiver treats the bodies it is sent. -/
structure Policy (α φ : Type*) where
  keeps : List α → Prop
  judge : List α → Option φ
  keeps_nil : keeps []
  keeps_of_snoc : ∀ body x, keeps (body ++ [x]) → keeps body
  decidableKeeps : DecidablePred keeps

namespace Policy

variable {α φ : Type*} (P : Policy α φ)

instance : DecidablePred P.keeps := P.decidableKeeps

/-- The view of the open piece. -/
def shown : Scan α → View α
  | .body held => if P.keeps held then some (held, false) else none
  | .pending held => if P.keeps held then some (held, true) else none
  | .bad _ => none

/-- The charge against a piece that is still open. -/
def openFault : Scan α → Option (Fault φ)
  | .body held => if P.keeps held then none else some .overlong
  | .pending held => if P.keeps held then none else some .overlong
  | .bad held => if P.keeps held then some .escape else some .overlong

/-- The charge against a complete piece. -/
def closedFault : Scan α → Option (Fault φ)
  | .body held => if P.keeps held then (P.judge held).map .refused else some .overlong
  | .pending held => if P.keeps held then some .escape else some .overlong
  | .bad held => if P.keeps held then some .escape else some .overlong

/-- A piece that was charged while open is charged the same at its end. -/
theorem closedFault_of_openFault {t : Scan α} {k : Fault φ} (h : P.openFault t = some k) :
    P.closedFault t = some k := by
  cases t with
  | body held =>
      simp only [openFault] at h
      split at h
      · cases h
      · next hk => simpa [closedFault, hk] using h
  | pending held =>
      simp only [openFault] at h
      split at h
      · cases h
      · next hk => simpa [closedFault, hk] using h
  | bad held => exact h

/-- The view is lost exactly when the piece is charged. -/
theorem shown_eq_none_iff (t : Scan α) : P.shown t = none ↔ P.openFault t ≠ none := by
  cases t with
  | body held => by_cases h : P.keeps held <;> simp [shown, openFault, h]
  | pending held => by_cases h : P.keeps held <;> simp [shown, openFault, h]
  | bad held => by_cases h : P.keeps held <;> simp [shown, openFault, h]

theorem exists_openFault {t : Scan α} (h : P.shown t = none) : ∃ k, P.openFault t = some k :=
  Option.ne_none_iff_exists'.mp ((P.shown_eq_none_iff t).mp h)

theorem shown_of_openFault {t : Scan α} {k : Fault φ} (h : P.openFault t = some k) :
    P.shown t = none :=
  (P.shown_eq_none_iff t).mpr (by simp [h])

/-- A receiver that gives up late enough follows the scan. -/
theorem represents_shown {cap : ℕ} (h : ∀ body, ¬ P.keeps body → cap < body.length)
    (t : Scan α) : Represents cap (P.shown t) t := by
  cases t with
  | body held =>
      by_cases hk : P.keeps held
      · simp [shown, hk, Represents]
      · simpa [shown, hk, Represents] using h held hk
  | pending held =>
      by_cases hk : P.keeps held
      · simp [shown, hk, Represents]
      · simpa [shown, hk, Represents] using h held hk
  | bad held => exact trivial

theorem shown_eq_body {t : Scan α} {held : List α} :
    P.shown t = some (held, false) ↔ t = .body held ∧ P.keeps held := by
  cases t with
  | body b => by_cases h : P.keeps b <;> simp [shown, h] <;> rintro rfl <;> exact h
  | pending b => by_cases h : P.keeps b <;> simp [shown, h]
  | bad b => simp [shown]

theorem shown_eq_pending {t : Scan α} {held : List α} :
    P.shown t = some (held, true) ↔ t = .pending held ∧ P.keeps held := by
  cases t with
  | body b => by_cases h : P.keeps b <;> simp [shown, h]
  | pending b => by_cases h : P.keeps b <;> simp [shown, h] <;> rintro rfl <;> exact h
  | bad b => simp [shown]

variable [DecidableEq α] (C : Code α)

/-- A charge stands until the piece ends. -/
theorem openFault_next {t : Scan α} {k : Fault φ} (h : P.openFault t = some k) (x : α) :
    P.openFault (C.next t x) = some k := by
  have hlong : ∀ held y, ¬ P.keeps held → ¬ P.keeps (held ++ [y]) :=
    fun held y hk hs => hk (P.keeps_of_snoc held y hs)
  cases t with
  | body held =>
      simp only [openFault] at h
      split at h
      · cases h
      · next hk =>
          simp only [Code.next]
          split
          · simpa [openFault, hk] using h
          · simpa [openFault, hlong held x hk] using h
  | pending held =>
      simp only [openFault] at h
      split at h
      · cases h
      · next hk =>
          simp only [Code.next]
          split
          · simpa [openFault, hlong held _ hk] using h
          · simpa [openFault, hk] using h
  | bad held => exact h

@[simp] theorem openFault_scan_nil : P.openFault (C.scan []) = none := by
  simp [Code.scan, openFault, P.keeps_nil]

/-! ## Counters -/

variable [DecidableEq φ]

/-- How often a stream was charged with `k`. -/
def faultCount (xs : List α) (k : Fault φ) : ℕ :=
  (Cut.of C.sof xs).closed.countP (fun piece => decide (P.closedFault (C.scan piece) = some k)) +
    if P.openFault (C.scan (Cut.of C.sof xs).rest) = some k then 1 else 0

omit [DecidableEq φ] in
/-- How many complete pieces of a stream were refused. -/
def resyncCount (xs : List α) : ℕ :=
  (Cut.of C.sof xs).closed.countP fun piece => (P.closedFault (C.scan piece)).isSome

/-- The charge that arises when the charge of the open piece changes. -/
def charge (before after : Option (Fault φ)) (k : Fault φ) : ℕ :=
  if before = none ∧ after = some k then 1 else 0

@[simp] theorem faultCount_nil (k : Fault φ) : P.faultCount C [] k = 0 := by
  simp [faultCount]

/-- A stream of one complete piece. -/
theorem faultCount_single {xs piece : List α} (h : Cut.of C.sof xs = ⟨[piece], []⟩)
    (k : Fault φ) :
    P.faultCount C xs k = if P.closedFault (C.scan piece) = some k then 1 else 0 := by
  simp [faultCount, h, List.countP_cons]

omit [DecidableEq φ] in
@[simp] theorem resyncCount_nil : P.resyncCount C [] = 0 := rfl

/-- Nothing is charged where nothing changes. -/
theorem charge_eq_zero {before after : Option (Fault φ)} (h : before = none → after = none)
    (k : Fault φ) : charge before after k = 0 := by
  cases before with
  | none => simp [charge, h rfl]
  | some j => simp [charge]

theorem charge_none_some (j k : Fault φ) : charge none (some j) k = if j = k then 1 else 0 := by
  simp [charge]

/-- A charge is counted once: what was counted before, and what is new. -/
theorem charge_add {before after : Option (Fault φ)}
    (h : ∀ j, before = some j → after = some j) (k : Fault φ) :
    (if after = some k then 1 else 0) = (if before = some k then 1 else 0) +
      charge before after k := by
  cases hb : before with
  | none => simp [charge]
  | some j => simp [charge, h j hb]

theorem faultCount_snoc_data (xs : List α) {x : α} (hx : x ≠ C.sof) (k : Fault φ) :
    P.faultCount C (xs ++ [x]) k = P.faultCount C xs k +
      charge (P.openFault (C.scan (Cut.of C.sof xs).rest))
        (P.openFault (C.next (C.scan (Cut.of C.sof xs).rest) x)) k := by
  have hcharge := charge_add (k := k) fun j h => P.openFault_next C (t := C.scan
    (Cut.of C.sof xs).rest) (k := j) h x
  rw [faultCount, faultCount, Cut.of_snoc_data C.sof xs hx, Code.scan_snoc, hcharge, Nat.add_assoc]

theorem faultCount_snoc_sof (xs : List α) (k : Fault φ) :
    P.faultCount C (xs ++ [C.sof]) k = P.faultCount C xs k +
      charge (P.openFault (C.scan (Cut.of C.sof xs).rest))
        (P.closedFault (C.scan (Cut.of C.sof xs).rest)) k := by
  have hcharge := charge_add (k := k) fun j h => P.closedFault_of_openFault (t := C.scan
    (Cut.of C.sof xs).rest) (k := j) h
  rw [faultCount, faultCount, Cut.of_snoc_sof, List.countP_append, openFault_scan_nil,
    Nat.add_assoc, Nat.add_assoc, ← hcharge]
  simp [List.countP_cons]

/-- A charge is never taken back. -/
theorem faultCount_le_append (xs ys : List α) (k : Fault φ) :
    P.faultCount C xs k ≤ P.faultCount C (xs ++ ys) k := by
  induction ys using List.reverseRecOn with
  | nil => simp
  | append_singleton ys y ih =>
      rw [← List.append_assoc]
      by_cases hy : y = C.sof
      · rw [hy, faultCount_snoc_sof]
        exact Nat.le_add_right_of_le ih
      · rw [P.faultCount_snoc_data C _ hy]
        exact Nat.le_add_right_of_le ih

omit [DecidableEq φ] in
theorem resyncCount_snoc_data (xs : List α) {x : α} (hx : x ≠ C.sof) :
    P.resyncCount C (xs ++ [x]) = P.resyncCount C xs := by
  rw [resyncCount, resyncCount, Cut.of_snoc_data C.sof xs hx]

omit [DecidableEq φ] in
theorem resyncCount_snoc_sof (xs : List α) :
    P.resyncCount C (xs ++ [C.sof]) = P.resyncCount C xs +
      if (P.closedFault (C.scan (Cut.of C.sof xs).rest)).isSome then 1 else 0 := by
  rw [resyncCount, resyncCount, Cut.of_snoc_sof, List.countP_append, List.countP_cons,
    List.countP_nil, Nat.zero_add]

/-! ## Totals -/

/-- Over kinds that are listed once each, an optional kind is found once or not at all. -/
theorem sum_ite_kind {kinds : List (Fault φ)} (hkinds : ∀ k, kinds.count k = 1)
    (o : Option (Fault φ)) :
    (kinds.map fun k => if o = some k then 1 else 0).sum = if o.isSome then 1 else 0 := by
  cases o with
  | none => simp
  | some j =>
      have hcount : (kinds.map fun k => if some j = some k then 1 else 0).sum = kinds.count j := by
        clear hkinds
        induction kinds with
        | nil => rfl
        | cons k ks ih =>
            rw [List.map_cons, List.sum_cons, ih, List.count_cons, Nat.add_comm]
            simp only [Option.some.injEq, beq_iff_eq, @eq_comm _ k]
      rw [hcount, hkinds]
      rfl

/-- **Every charge is answered.**  All charges together are the refused pieces and the
charge that still stands against the open piece. -/
theorem sum_faultCount {kinds : List (Fault φ)} (hkinds : ∀ k, kinds.count k = 1)
    (xs : List α) :
    (kinds.map (P.faultCount C xs)).sum = P.resyncCount C xs +
      if (P.openFault (C.scan (Cut.of C.sof xs).rest)).isSome then 1 else 0 := by
  have hclosed : ∀ pieces : List (List α),
      (kinds.map fun k => pieces.countP fun piece =>
        decide (P.closedFault (C.scan piece) = some k)).sum =
      pieces.countP fun piece => (P.closedFault (C.scan piece)).isSome := by
    intro pieces
    induction pieces with
    | nil => simp
    | cons piece pieces ih =>
        have hpiece := sum_ite_kind hkinds (P.closedFault (C.scan piece))
        simp only [List.countP_cons, decide_eq_true_eq, List.sum_map_add, ih, hpiece]
  unfold faultCount
  rw [List.sum_map_add, hclosed, sum_ite_kind hkinds, resyncCount]

end Policy

/-! ## Counters -/

/-- Counters of type `N`, which may wrap, and how they count. -/
structure Counter (N : Type*) [Add N] where
  cast : ℕ → N
  cast_add : ∀ m n, cast (m + n) = cast m + cast n
  add_zero : ∀ n, n + cast 0 = n

namespace Counter

variable {φ N : Type*} [DecidableEq φ] [Add N] (K : Counter N)

/-- The counters `f'` are the counters `f` after the charge between two moments. -/
def Charges (f f' : Fault φ → N) (before after : Option (Fault φ)) : Prop :=
  ∀ k, f' k = f k + K.cast (Policy.charge before after k)

variable {K} {f f' : Fault φ → N}

/-- Nothing new is charged. -/
theorem Charges.unchanged {before after : Option (Fault φ)} (hf : ∀ k, f' k = f k)
    (h : before = none → after = none) : K.Charges f f' before after := by
  intro k
  rw [Policy.charge_eq_zero h, K.add_zero, hf]

/-- The counter of one kind goes up. -/
theorem Charges.bump {j : Fault φ} (hj : f' j = f j + K.cast 1)
    (hother : ∀ k, j ≠ k → f' k = f k) : K.Charges f f' none (some j) := by
  intro k
  rw [Policy.charge_none_some]
  by_cases h : j = k
  · rw [if_pos h, ← h, hj]
  · rw [if_neg h, hother k h, K.add_zero]

end Counter

/-- A receiver whose view and counters follow the policy `P`. -/
structure Auditor {α φ N : Type*} [DecidableEq α] [DecidableEq φ] [Add N] (C : Code α)
    (P : Policy α φ) (K : Counter N) (σ β : Type*) where
  step : Machine σ α β
  Inv : σ → Prop
  view : σ → View α
  fault : σ → Fault φ → N
  resync : σ → N
  data : ∀ s x t, Inv s → x ≠ C.sof → view s = P.shown t →
    Inv (step s x).1 ∧ view (step s x).1 = P.shown (C.next t x) ∧
      K.Charges (fault s) (fault (step s x).1) (P.openFault t) (P.openFault (C.next t x)) ∧
      resync (step s x).1 = resync s
  delimiter : ∀ s t, Inv s → view s = P.shown t →
    Inv (step s C.sof).1 ∧ view (step s C.sof).1 = some ([], false) ∧
      K.Charges (fault s) (fault (step s C.sof).1) (P.openFault t) (P.closedFault t) ∧
      resync (step s C.sof).1 =
        resync s + K.cast (if (P.closedFault t).isSome then 1 else 0)

namespace Auditor

variable {α φ N σ β : Type*} [DecidableEq α] [DecidableEq φ] [Add N] {C : Code α}
  {P : Policy α φ} {K : Counter N}

/-- **Counters of a run.**  From a fresh state the view of the open piece and all
counters are the functions of the stream that the policy defines. -/
theorem run_spec (A : Auditor C P K σ β) {s : σ} (hinv : A.Inv s)
    (hview : A.view s = some ([], false)) {m : Fault φ → ℕ} {n : ℕ}
    (hfault : ∀ k, A.fault s k = K.cast (m k)) (hresync : A.resync s = K.cast n)
    (xs : List α) :
    A.Inv (Machine.final A.step s xs) ∧
      A.view (Machine.final A.step s xs) = P.shown (C.scan (Cut.of C.sof xs).rest) ∧
      (∀ k, A.fault (Machine.final A.step s xs) k = K.cast (m k + P.faultCount C xs k)) ∧
      A.resync (Machine.final A.step s xs) = K.cast (n + P.resyncCount C xs) := by
  have hempty : P.shown (C.scan ([] : List α)) = some ([], false) := by
    simp [Code.scan, Policy.shown, P.keeps_nil]
  induction xs using List.reverseRecOn with
  | nil => exact ⟨hinv, by rw [Machine.final_nil, hview, Cut.of_nil, hempty], by simpa, by simpa⟩
  | append_singleton xs x ih =>
      obtain ⟨hi, hv, hf, hr⟩ := ih
      rw [Machine.final_snoc]
      by_cases hx : x = C.sof
      · subst hx
        obtain ⟨hi', hv', hf', hr'⟩ := A.delimiter _ _ hi hv
        refine ⟨hi', ?_, ?_, ?_⟩
        · rw [hv', Cut.of_snoc_sof, hempty]
        · intro k
          rw [hf', hf, ← K.cast_add, P.faultCount_snoc_sof, Nat.add_assoc]
        · rw [hr', hr, ← K.cast_add, P.resyncCount_snoc_sof, Nat.add_assoc]
      · obtain ⟨hi', hv', hf', hr'⟩ := A.data _ x _ hi hx hv
        refine ⟨hi', ?_, ?_, ?_⟩
        · rw [hv', Cut.of_snoc_data C.sof xs hx, Code.scan_snoc]
        · intro k
          rw [hf', hf, ← K.cast_add, P.faultCount_snoc_data C xs hx, Nat.add_assoc]
        · rw [hr', hr, P.resyncCount_snoc_data C xs hx]

end Auditor

end Framing
