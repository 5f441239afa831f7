import Mathlib.Data.List.Induction

/-!
# Delimited frames with an escape symbol

A stream of frames is cut at a delimiter `sof`.  Inside a frame the delimiter and
the escape symbol `esc` are sent as `esc` followed by a masked copy, so a delimiter
on the wire always ends a frame.  Nothing here fixes an alphabet or a frame length.

`Scan` is what an ideal receiver with unlimited memory knows about the piece of
stream since the last delimiter.  It separates the three cases a bounded receiver
has to tell apart: a well-formed piece, one that ends inside an escape pair, and
one that already holds an escape pair nobody could have sent.

## Main definitions

* `Code` — delimiter, escape symbol and mask, with the laws that make them a code.
* `Code.stuff` — the escaped form of a body.
* `Code.scan` — the ideal receiver, over one delimiter-free piece.
* `Cut` — a stream cut at its delimiters.
-/

namespace Framing

/-- A delimiter, an escape symbol and the mask applied to an escaped symbol. -/
structure Code (α : Type*) where
  sof : α
  esc : α
  mask : α → α
  mask_mask : ∀ x, mask (mask x) = x
  sof_ne_esc : sof ≠ esc
  mask_sof_ne : mask sof ≠ sof ∧ mask sof ≠ esc
  mask_esc_ne : mask esc ≠ sof ∧ mask esc ≠ esc

/-- What an ideal receiver holds of the current piece. -/
inductive Scan (α : Type*) where
  /-- The piece is the escaped form of `held`. -/
  | body (held : List α)
  /-- The piece is the escaped form of `held` followed by a lone escape symbol. -/
  | pending (held : List α)
  /-- An impossible escape pair followed the escaped form of `held`. -/
  | bad (held : List α)
  deriving DecidableEq, Repr

namespace Code

variable {α : Type*} (C : Code α)

/-- The symbols that may not appear unescaped inside a frame. -/
def Special (x : α) : Prop := x = C.sof ∨ x = C.esc

/-- The symbols that may follow an escape symbol. -/
def Masked (x : α) : Prop := x = C.mask C.sof ∨ x = C.mask C.esc

instance [DecidableEq α] (x : α) : Decidable (C.Special x) :=
  inferInstanceAs (Decidable (_ ∨ _))

instance [DecidableEq α] (x : α) : Decidable (C.Masked x) :=
  inferInstanceAs (Decidable (_ ∨ _))

theorem masked_mask {x : α} (h : C.Special x) : C.Masked (C.mask x) := by
  rcases h with rfl | rfl
  · exact .inl rfl
  · exact .inr rfl

theorem special_mask {x : α} (h : C.Masked x) : C.Special (C.mask x) := by
  rcases h with rfl | rfl <;> rw [C.mask_mask]
  · exact .inl rfl
  · exact .inr rfl

theorem Masked.not_special {C : Code α} {x : α} (h : C.Masked x) : ¬ C.Special x := by
  have hs := C.mask_sof_ne
  have he := C.mask_esc_ne
  rcases h with rfl | rfl
  · rintro (h | h)
    · exact hs.1 h
    · exact hs.2 h
  · rintro (h | h)
    · exact he.1 h
    · exact he.2 h

variable [DecidableEq α]

/-! ## The escaped form of a body -/

/-- One symbol on the wire. -/
def stuffSymbol (x : α) : List α := if C.Special x then [C.esc, C.mask x] else [x]

/-- A whole body on the wire. -/
def stuff (body : List α) : List α := body.flatMap C.stuffSymbol

@[simp] theorem stuff_nil : C.stuff [] = [] := rfl

@[simp] theorem stuff_cons (x : α) (xs : List α) :
    C.stuff (x :: xs) = C.stuffSymbol x ++ C.stuff xs := rfl

theorem stuff_append (xs ys : List α) : C.stuff (xs ++ ys) = C.stuff xs ++ C.stuff ys := by
  simp [stuff]

theorem stuff_snoc (xs : List α) (x : α) :
    C.stuff (xs ++ [x]) = C.stuff xs ++ C.stuffSymbol x := by
  simp [stuff_append]

/-- The escaped form up to a symbol, and behind it. -/
theorem stuff_split (body : List α) {k : ℕ} (h : k < body.length) :
    C.stuff body = C.stuff (body.take k ++ [body[k]]) ++ C.stuff (body.drop (k + 1)) := by
  conv_lhs => rw [← List.take_append_drop k body, List.drop_eq_getElem_cons h]
  rw [← stuff_append, List.append_assoc, List.singleton_append]

theorem stuffSymbol_of_special {x : α} (h : C.Special x) :
    C.stuffSymbol x = [C.esc, C.mask x] := if_pos h

theorem stuffSymbol_of_not_special {x : α} (h : ¬ C.Special x) : C.stuffSymbol x = [x] :=
  if_neg h

/-- A body without special symbols is sent as it is. -/
theorem stuff_eq_self {body : List α} (h : ∀ x ∈ body, ¬ C.Special x) : C.stuff body = body := by
  induction body with
  | nil => rfl
  | cons x xs ih =>
      rw [stuff_cons, C.stuffSymbol_of_not_special (h x (by simp)),
        ih fun y hy => h y (List.mem_cons_of_mem x hy)]
      rfl

theorem sof_notMem_stuffSymbol (x : α) : C.sof ∉ C.stuffSymbol x := by
  by_cases h : C.Special x
  · have hm := (C.masked_mask h).not_special
    rw [C.stuffSymbol_of_special h]
    simp only [List.mem_cons, List.not_mem_nil, or_false, not_or]
    exact ⟨C.sof_ne_esc, fun he => hm (.inl he.symm)⟩
  · rw [C.stuffSymbol_of_not_special h, List.mem_singleton]
    exact fun he => h (.inl he.symm)

/-- The delimiter never appears inside a frame. -/
theorem sof_notMem_stuff (body : List α) : C.sof ∉ C.stuff body := by
  simp only [stuff, List.mem_flatMap, not_exists, not_and]
  exact fun x _ => C.sof_notMem_stuffSymbol x

theorem length_stuffSymbol (x : α) :
    (C.stuffSymbol x).length = if C.Special x then 2 else 1 := by
  rw [stuffSymbol]
  split <;> rfl

theorem length_stuff (body : List α) :
    (C.stuff body).length = body.length + body.countP (fun x => decide (C.Special x)) := by
  induction body with
  | nil => rfl
  | cons x xs ih =>
      rw [stuff_cons, List.length_append, ih, C.length_stuffSymbol, List.countP_cons]
      by_cases h : C.Special x <;> simp [h] <;> omega

/-! ## The ideal receiver -/

/-- One symbol of a piece. -/
def next : Scan α → α → Scan α
  | .body held, x => if x = C.esc then .pending held else .body (held ++ [x])
  | .pending held, x => if C.Masked x then .body (held ++ [C.mask x]) else .bad held
  | .bad held, _ => .bad held

theorem next_esc (held : List α) : C.next (.body held) C.esc = .pending held := if_pos rfl

theorem next_plain {x : α} (h : ¬ C.Special x) (held : List α) :
    C.next (.body held) x = .body (held ++ [x]) := if_neg fun he => h (.inr he)

theorem next_pair {x : α} (h : C.Masked x) (held : List α) :
    C.next (.pending held) x = .body (held ++ [C.mask x]) := if_pos h

theorem next_bad_pair {x : α} (h : ¬ C.Masked x) (held : List α) :
    C.next (.pending held) x = .bad held := if_neg h

/-- A whole piece, read after `t`. -/
def scanFrom (t : Scan α) (xs : List α) : Scan α := xs.foldl C.next t

/-- A whole piece. -/
def scan (xs : List α) : Scan α := C.scanFrom (.body []) xs

@[simp] theorem scanFrom_nil (t : Scan α) : C.scanFrom t [] = t := rfl

@[simp] theorem scanFrom_cons (t : Scan α) (x : α) (xs : List α) :
    C.scanFrom t (x :: xs) = C.scanFrom (C.next t x) xs := rfl

theorem scanFrom_append (t : Scan α) (xs ys : List α) :
    C.scanFrom t (xs ++ ys) = C.scanFrom (C.scanFrom t xs) ys := by
  simp [scanFrom]

theorem scan_append (xs ys : List α) : C.scan (xs ++ ys) = C.scanFrom (C.scan xs) ys :=
  C.scanFrom_append _ xs ys

theorem scan_snoc (xs : List α) (x : α) : C.scan (xs ++ [x]) = C.next (C.scan xs) x := by
  simp [scan, scanFrom]

@[simp] theorem scanFrom_bad (held xs : List α) : C.scanFrom (.bad held) xs = .bad held := by
  induction xs with
  | nil => rfl
  | cons x xs ih => simpa [next] using ih

/-- A sent symbol extends the held body by itself. -/
theorem scanFrom_stuffSymbol (held : List α) (x : α) :
    C.scanFrom (.body held) (C.stuffSymbol x) = .body (held ++ [x]) := by
  by_cases h : C.Special x
  · simp [C.stuffSymbol_of_special h, next, C.masked_mask h, C.mask_mask]
  · have he : x ≠ C.esc := fun he => h (.inr he)
    simp [C.stuffSymbol_of_not_special h, next, he]

/-- A sent body is received whole. -/
theorem scanFrom_stuff (held body : List α) :
    C.scanFrom (.body held) (C.stuff body) = .body (held ++ body) := by
  induction body generalizing held with
  | nil => simp
  | cons x xs ih =>
      rw [stuff_cons, scanFrom_append, scanFrom_stuffSymbol, ih]
      simp

@[simp] theorem scan_stuff (body : List α) : C.scan (C.stuff body) = .body body := by
  simp [scan, scanFrom_stuff]

/-- The escaped form a scan result stands for. -/
def Spells (xs : List α) : Scan α → Prop
  | .body held => xs = C.stuff held
  | .pending held => xs = C.stuff held ++ [C.esc]
  | .bad held => ∃ y rest, ¬ C.Masked y ∧ xs = C.stuff held ++ C.esc :: y :: rest

/-- **Canonical reading.**  Every delimiter-free piece is spelled by its scan, so a
body has one spelling only. -/
theorem spells_scan (xs : List α) (h : C.sof ∉ xs) : C.Spells xs (C.scan xs) := by
  induction xs using List.reverseRecOn with
  | nil => rfl
  | append_singleton xs x ih =>
      simp only [List.mem_append, List.mem_singleton, not_or] at h
      have ih := ih h.1
      rw [scan_snoc]
      cases ht : C.scan xs with
      | body held =>
          rw [ht] at ih
          simp only [Spells] at ih
          subst ih
          by_cases hx : x = C.esc
          · simp [next, hx, Spells]
          · have hp : ¬ C.Special x := by
              rintro (h' | h')
              · exact h.2 h'.symm
              · exact hx h'
            simp [next, hx, Spells, C.stuff_snoc, C.stuffSymbol_of_not_special hp]
      | pending held =>
          rw [ht] at ih
          simp only [Spells] at ih
          subst ih
          by_cases hx : C.Masked x
          · have hs := C.stuffSymbol_of_special (C.special_mask hx)
            rw [C.mask_mask] at hs
            simp [next, hx, Spells, C.stuff_snoc, hs]
          · simp only [next, hx, if_false, Spells]
            exact ⟨x, [], hx, by simp⟩
      | bad held =>
          rw [ht] at ih
          obtain ⟨y, rest, hy, rfl⟩ := ih
          exact ⟨y, rest ++ [x], hy, by simp⟩

theorem scan_eq_body_iff {xs held : List α} (h : C.sof ∉ xs) :
    C.scan xs = .body held ↔ xs = C.stuff held := by
  constructor
  · intro ht
    have := C.spells_scan xs h
    rwa [ht] at this
  · rintro rfl
    exact C.scan_stuff held

/-- Whatever was held before a piece stays in front of what the piece adds. -/
def prepend (a : List α) : Scan α → Scan α
  | .body held => .body (a ++ held)
  | .pending held => .pending (a ++ held)
  | .bad held => .bad (a ++ held)

theorem next_prepend (a : List α) (t : Scan α) (x : α) :
    C.next (prepend a t) x = prepend a (C.next t x) := by
  cases t <;> simp only [next, prepend]
  · split <;> simp
  · split <;> simp

theorem scanFrom_prepend (a : List α) (t : Scan α) (xs : List α) :
    C.scanFrom (prepend a t) xs = prepend a (C.scanFrom t xs) := by
  induction xs generalizing t with
  | nil => rfl
  | cons x xs ih => rw [scanFrom_cons, next_prepend, ih, scanFrom_cons]

/-- A piece read behind a held body. -/
theorem scanFrom_body (a xs : List α) : C.scanFrom (.body a) xs = prepend a (C.scan xs) := by
  simpa [prepend, scan] using C.scanFrom_prepend a (.body []) xs

end Code

/-! ## Cutting a stream at its delimiters -/

/-- The complete pieces of a stream and the piece still open at its end. -/
structure Cut (α : Type*) where
  closed : List (List α)
  rest : List α
  deriving DecidableEq, Repr

namespace Cut

variable {α : Type*} [DecidableEq α] (sof : α)

/-- One symbol: a delimiter closes the open piece. -/
def push (c : Cut α) (x : α) : Cut α :=
  if x = sof then ⟨c.closed ++ [c.rest], []⟩ else ⟨c.closed, c.rest ++ [x]⟩

/-- Cut a stream at every delimiter. -/
def of (xs : List α) : Cut α := xs.foldl (push sof) ⟨[], []⟩

@[simp] theorem of_nil : of sof [] = ⟨[], []⟩ := rfl

theorem of_snoc (xs : List α) (x : α) : of sof (xs ++ [x]) = push sof (of sof xs) x := by
  simp [of]

@[simp] theorem of_snoc_sof (xs : List α) :
    of sof (xs ++ [sof]) = ⟨(of sof xs).closed ++ [(of sof xs).rest], []⟩ := by
  simp [of_snoc, push]

theorem of_snoc_data (xs : List α) {x : α} (h : x ≠ sof) :
    of sof (xs ++ [x]) = ⟨(of sof xs).closed, (of sof xs).rest ++ [x]⟩ := by
  simp [of_snoc, push, h]

theorem of_notMem {xs : List α} (h : sof ∉ xs) : of sof xs = ⟨[], xs⟩ := by
  induction xs using List.reverseRecOn with
  | nil => rfl
  | append_singleton xs x ih =>
      simp only [List.mem_append, List.mem_singleton, not_or] at h
      rw [of_snoc_data sof xs (Ne.symm h.2), ih h.1]

/-- A delimiter separates what is before it from what is after it. -/
theorem of_append_sof (xs ys : List α) :
    of sof (xs ++ sof :: ys) =
      ⟨(of sof xs).closed ++ (of sof xs).rest :: (of sof ys).closed, (of sof ys).rest⟩ := by
  induction ys using List.reverseRecOn with
  | nil => exact of_snoc_sof sof xs
  | append_singleton ys y ih =>
      rw [← List.cons_append, ← List.append_assoc, of_snoc, ih, of_snoc, push, push]
      split <;> simp

/-- The open piece holds no delimiter. -/
theorem sof_notMem_rest (xs : List α) : sof ∉ (of sof xs).rest := by
  induction xs using List.reverseRecOn with
  | nil => simp
  | append_singleton xs x ih =>
      rw [of_snoc, push]
      split
      · simp
      · next h => simpa [ih] using Ne.symm h

/-- Nor does any complete piece. -/
theorem sof_notMem_closed (xs : List α) : ∀ piece ∈ (of sof xs).closed, sof ∉ piece := by
  induction xs using List.reverseRecOn with
  | nil => simp
  | append_singleton xs x ih =>
      rw [of_snoc, push]
      split
      · intro piece hp
        rcases List.mem_append.mp hp with hp | hp
        · exact ih piece hp
        · rw [List.mem_singleton.mp hp]
          exact sof_notMem_rest sof xs
      · exact ih

/-- The open piece ends the stream, and begins at its start or behind a delimiter. -/
theorem exists_eq_append_rest (xs : List α) :
    ∃ front, (front = [] ∨ ∃ a, front = a ++ [sof]) ∧ xs = front ++ (of sof xs).rest := by
  induction xs using List.reverseRecOn with
  | nil => exact ⟨[], .inl rfl, rfl⟩
  | append_singleton xs x ih =>
      by_cases hx : x = sof
      · subst hx
        exact ⟨xs ++ [x], .inr ⟨xs, rfl⟩, by simp⟩
      · obtain ⟨front, hfront, hxs⟩ := ih
        refine ⟨front, hfront, ?_⟩
        rw [of_snoc_data sof xs hx, ← List.append_assoc, ← hxs]

/-- A piece in that place is the open piece. -/
theorem rest_append {front piece : List α} (hfront : front = [] ∨ ∃ a, front = a ++ [sof])
    (hpiece : sof ∉ piece) : (of sof (front ++ piece)).rest = piece := by
  rcases hfront with rfl | ⟨a, rfl⟩
  · rw [List.nil_append, of_notMem sof hpiece]
  · rw [List.append_assoc, List.singleton_append, of_append_sof, of_notMem sof hpiece]

end Cut

end Framing
