import SpectrumAnalyzer.Lib.Framing
import SpectrumAnalyzer.Lib.Machine

/-!
# Receivers with bounded memory

A real receiver follows the ideal scan of a piece, except that it may give up: on an
impossible escape pair it must, and once a piece holds more than `cap` symbols it may,
at a moment of its own choosing.  What it delivers at a delimiter depends on none of
these choices, because a piece that long is never accepted.

`Deframer` states this as obligations on one symbol.  `Deframer.yields_eq` is the
consequence over a whole stream: what is delivered depends on the code and on what is
accepted, not on the receiver.

## Main definitions

* `Represents cap` — how a receiver's view relates to the ideal scan.
* `accept` — what the ideal receiver makes of a complete piece.
* `Deframer` — a receiver together with the proof that it follows the scan.
-/

namespace Framing

variable {α γ : Type*}

/-- What a receiver holds of the open piece: `none` once it has given up, otherwise
the body so far and whether an escape symbol is outstanding. -/
abbrev View (α : Type*) := Option (List α × Bool)

/-- A view that has given up stands for every piece that cannot be accepted any more. -/
def Represents (cap : ℕ) : View α → Scan α → Prop
  | some (held, false), t => t = .body held
  | some (held, true), t => t = .pending held
  | none, .body held => cap < held.length
  | none, .pending held => cap < held.length
  | none, .bad _ => True

/-- The frame a complete piece carries, if it is accepted. -/
def accept [DecidableEq α] (C : Code α) (check : List α → Option γ) (piece : List α) :
    Option γ :=
  match C.scan piece with
  | .body held => check held
  | _ => none

/-- The frame a receiver delivers when its open piece is closed. -/
def close (check : List α → Option γ) : View α → Option γ
  | some (held, false) => check held
  | _ => none

theorem accept_stuff [DecidableEq α] (C : Code α) (check : List α → Option γ)
    (body : List α) : accept C check (C.stuff body) = check body := by
  simp [accept]

/-- An accepted piece is the one spelling of an accepted body. -/
theorem accept_eq_some_iff [DecidableEq α] {C : Code α} {check : List α → Option γ}
    {piece : List α} (h : C.sof ∉ piece) {c : γ} :
    accept C check piece = some c ↔ ∃ body, piece = C.stuff body ∧ check body = some c := by
  constructor
  · intro ha
    rw [accept] at ha
    split at ha
    · next held ht => exact ⟨held, (C.scan_eq_body_iff h).mp ht, ha⟩
    · simp at ha
  · rintro ⟨body, rfl, hc⟩
    rwa [accept_stuff]

/-- Translating what a body means translates what a piece means. -/
theorem accept_map [DecidableEq α] {δ : Type*} (C : Code α) (check : List α → Option γ)
    (f : γ → δ) (piece : List α) :
    accept C (fun body => (check body).map f) piece = (accept C check piece).map f := by
  simp only [accept]
  split <;> rfl

/-- A receiver that has given up may stay so. -/
theorem Represents.gave_up [DecidableEq α] {C : Code α} {cap : ℕ} {t : Scan α}
    (h : Represents cap none t) (x : α) : Represents cap none (C.next t x) := by
  cases t with
  | bad held => exact trivial
  | body held =>
      have hl : cap < held.length := h
      simp only [Code.next]
      split
      · exact hl
      · show cap < (held ++ [x]).length
        simp only [List.length_append, List.length_singleton]
        omega
  | pending held =>
      have hl : cap < held.length := h
      simp only [Code.next]
      split
      · show cap < (held ++ [C.mask x]).length
        simp only [List.length_append, List.length_singleton]
        omega
      · exact trivial

/-- Giving up loses nothing: the delimiter delivers what the ideal receiver accepts. -/
theorem close_eq_accept [DecidableEq α] {C : Code α} {cap : ℕ} {check : List α → Option γ}
    (hcheck : ∀ body c, check body = some c → body.length = cap) {v : View α}
    {piece : List α} (h : Represents cap v (C.scan piece)) :
    close check v = accept C check piece := by
  have hlong : ∀ held : List α, cap < held.length → check held = none := by
    intro held hl
    cases hc : check held with
    | none => rfl
    | some c => have := hcheck held c hc; omega
  rw [accept]
  match v with
  | some (held, false) =>
      simp only [Represents] at h
      simp [h, close]
  | some (held, true) =>
      simp only [Represents] at h
      simp [h, close]
  | none =>
      cases ht : C.scan piece with
      | body held => simp [close, hlong held (by simpa [ht, Represents] using h)]
      | pending held => rfl
      | bad held => rfl

/-- A receiver for the code `C`: it follows the scan between delimiters, and a
delimiter delivers the open piece and starts a fresh one. -/
structure Deframer [DecidableEq α] (C : Code α) (cap : ℕ) (check : List α → Option γ)
    (σ β : Type*) where
  step : Machine σ α β
  emit : β → Option γ
  Inv : σ → Prop
  view : σ → View α
  data : ∀ s x t, Inv s → x ≠ C.sof → Represents cap (view s) t →
    Inv (step s x).1 ∧ emit (step s x).2 = none ∧
      Represents cap (view (step s x).1) (C.next t x)
  delimiter : ∀ s, Inv s →
    Inv (step s C.sof).1 ∧ emit (step s C.sof).2 = close check (view s) ∧
      view (step s C.sof).1 = some ([], false)

namespace Deframer

variable [DecidableEq α] {C : Code α} {cap : ℕ} {check : List α → Option γ}
  {σ τ β δ : Type*}

/-- A state between frames. -/
def Fresh (D : Deframer C cap check σ β) (s : σ) : Prop := D.Inv s ∧ D.view s = some ([], false)

/-- After any stream the state represents the open piece, and the frames delivered are
the accepted ones among the complete pieces. -/
theorem run_spec (D : Deframer C cap check σ β)
    (hcheck : ∀ body c, check body = some c → body.length = cap) {s : σ} (hs : D.Fresh s)
    (xs : List α) :
    D.Inv (Machine.final D.step s xs) ∧
      Represents cap (D.view (Machine.final D.step s xs)) (C.scan (Cut.of C.sof xs).rest) ∧
      Machine.yields D.step D.emit s xs =
        (Cut.of C.sof xs).closed.filterMap (accept C check) := by
  induction xs using List.reverseRecOn with
  | nil =>
      refine ⟨hs.1, ?_, rfl⟩
      simp [hs.2, Represents, Code.scan]
  | append_singleton xs x ih =>
      obtain ⟨hinv, hrep, hyield⟩ := ih
      rw [Machine.final_snoc, Machine.yields_snoc, hyield]
      by_cases hx : x = C.sof
      · subst hx
        obtain ⟨hinv', hout, hview⟩ := D.delimiter _ hinv
        refine ⟨hinv', ?_, ?_⟩
        · simp [hview, Represents, Code.scan]
        · rw [hout, close_eq_accept hcheck hrep, Cut.of_snoc_sof, List.filterMap_append]
          cases h : accept C check (Cut.of C.sof xs).rest <;> simp [h]
      · obtain ⟨hinv', hout, hrep'⟩ := D.data _ x _ hinv hx hrep
        rw [Cut.of_snoc_data C.sof xs hx, Code.scan_snoc]
        exact ⟨hinv', hrep', by simp [hout]⟩

/-- **What a receiver delivers.**  The accepted pieces of the stream, in order. -/
theorem yields_eq (D : Deframer C cap check σ β)
    (hcheck : ∀ body c, check body = some c → body.length = cap) {s : σ} (hs : D.Fresh s)
    (xs : List α) :
    Machine.yields D.step D.emit s xs = (Cut.of C.sof xs).closed.filterMap (accept C check) :=
  (D.run_spec hcheck hs xs).2.2

end Deframer

end Framing
