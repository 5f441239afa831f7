import SpectrumAnalyzer.Lib.Framing

/-!
# Single edits of a framed stream

One symbol of a frame on the wire is substituted, inserted or deleted.  The edit may
make or break a delimiter or an escape pair, so the pieces of the edited stream need
not look like the frame at all.  A piece that still spells a body of the old length
spells one that agrees with the old body outside a gap of at most one symbol.

## Main definitions

* `Edit` — one symbol substituted, inserted or deleted.
* `Gap` — agreement outside a gap of at most one symbol on either side.
* `gap_of_edited_frame` — what is left of a frame after one edit.
-/

namespace Framing

variable {α : Type*}

/-- One symbol substituted, inserted or deleted. -/
inductive Edit : List α → List α → Prop where
  | substitute (front : List α) (x y : α) (back : List α) :
      Edit (front ++ x :: back) (front ++ y :: back)
  | insert (front : List α) (y : α) (back : List α) :
      Edit (front ++ back) (front ++ y :: back)
  | delete (front : List α) (x : α) (back : List α) :
      Edit (front ++ x :: back) (front ++ back)

/-- The symbol at an index deleted. -/
theorem Edit.eraseIdx {xs : List α} {i : ℕ} (h : i < xs.length) : Edit xs (xs.eraseIdx i) := by
  have hxs : xs = xs.take i ++ xs[i] :: xs.drop (i + 1) := by simp
  rw [List.eraseIdx_eq_take_drop_succ]
  nth_rewrite 1 [hxs]
  exact .delete _ _ _

/-- The lists agree outside a gap that holds at most one symbol of either. -/
def Gap (xs ys : List α) : Prop :=
  ∃ front u v back, u.length ≤ 1 ∧ v.length ≤ 1 ∧
    xs = front ++ (u ++ back) ∧ ys = front ++ (v ++ back)

theorem Edit.gap {xs ys : List α} (h : Edit xs ys) : Gap xs ys := by
  cases h with
  | substitute front x y back => exact ⟨front, [x], [y], back, by simp⟩
  | insert front y back => exact ⟨front, [], [y], back, by simp⟩
  | delete front x back => exact ⟨front, [x], [], back, by simp⟩

theorem Gap.refl (xs : List α) : Gap xs xs := ⟨xs, [], [], [], by simp⟩

theorem Gap.symm {xs ys : List α} (h : Gap xs ys) : Gap ys xs := by
  obtain ⟨front, u, v, back, hu, hv, hxs, hys⟩ := h
  exact ⟨front, v, u, back, hv, hu, hys, hxs⟩

/-- Short lists are all gap. -/
theorem Gap.of_length_le {xs ys : List α} (hx : xs.length ≤ 1) (hy : ys.length ≤ 1) :
    Gap xs ys := ⟨[], xs, ys, [], hx, hy, by simp, by simp⟩

/-- Lists of one length that differ in a gap differ in one place. -/
theorem Gap.eq_or_single {xs ys : List α} (h : Gap xs ys) (hl : xs.length = ys.length) :
    xs = ys ∨ ∃ front x y back, xs = front ++ x :: back ∧ ys = front ++ y :: back := by
  obtain ⟨front, u, v, back, hu, hv, rfl, rfl⟩ := h
  have huv : u.length = v.length := by
    simp only [List.length_append] at hl
    omega
  rcases u with _ | ⟨x, _ | ⟨x', u⟩⟩
  · left
    rw [List.length_eq_zero_iff.mp huv.symm]
  · obtain ⟨y, rfl⟩ := List.length_eq_one_iff.mp huv.symm
    exact .inr ⟨front, x, y, back, by simp⟩
  · simp at hu

/-! ## The pieces of an edited frame -/

namespace Cut

variable [DecidableEq α] (sof : α)

/-- The complete pieces of a stream and the open one. -/
def pieces (xs : List α) : List (List α) := (of sof xs).closed ++ [(of sof xs).rest]

@[simp] theorem pieces_nil : pieces sof [] = [[]] := rfl

theorem pieces_append_sof (xs ys : List α) :
    pieces sof (xs ++ sof :: ys) = pieces sof xs ++ pieces sof ys := by
  simp [pieces, of_append_sof]

theorem pieces_cons_sof (ys : List α) : pieces sof (sof :: ys) = [] :: pieces sof ys :=
  pieces_append_sof sof [] ys

theorem pieces_snoc_sof (xs : List α) : pieces sof (xs ++ [sof]) = pieces sof xs ++ [[]] :=
  pieces_append_sof sof xs []

theorem pieces_notMem {xs : List α} (h : sof ∉ xs) : pieces sof xs = [xs] := by
  simp [pieces, of_notMem sof h]

theorem sof_notMem_pieces (xs : List α) : ∀ piece ∈ pieces sof xs, sof ∉ piece := by
  intro piece hp
  rcases List.mem_append.mp hp with hp | hp
  · exact sof_notMem_closed sof xs piece hp
  · rw [List.mem_singleton.mp hp]
    exact sof_notMem_rest sof xs

variable {sof}

/-- The pieces of a short list are short. -/
theorem length_le_of_mem_pieces {xs piece : List α} (hx : xs.length ≤ 1)
    (hp : piece ∈ pieces sof xs) : piece.length ≤ 1 := by
  rcases xs with _ | ⟨x, _ | ⟨x', xs⟩⟩
  · rw [pieces_nil, List.mem_singleton] at hp
    rw [hp]
    simp
  · by_cases h : x = sof
    · rw [h, pieces_cons_sof, pieces_nil] at hp
      have : piece = [] := by simpa using hp
      rw [this]
      simp
    · rw [pieces_notMem sof (by simpa using Ne.symm h), List.mem_singleton] at hp
      rw [hp]
      simp
  · simp at hx

/-- What a piece of an edited stream can be: short, part of the old piece, or the old
piece with a gap. -/
def Remnant (s piece : List α) : Prop := piece.length ≤ 1 ∨ piece <:+: s ∨ Gap s piece

omit [DecidableEq α] in
theorem Remnant.nil (s : List α) : Remnant s [] := .inl (by simp)

/-- An edit inside the piece. -/
theorem remnant_inside (front u v back : List α) (hu : u.length ≤ 1) (hv : v.length ≤ 1)
    (hs : sof ∉ front ++ (u ++ back)) :
    ∀ piece ∈ pieces sof (front ++ (v ++ back)), Remnant (front ++ (u ++ back)) piece := by
  intro piece hp
  simp only [List.mem_append, not_or] at hs
  by_cases hsof : v = [sof]
  · rw [hsof, List.singleton_append, pieces_append_sof, pieces_notMem sof hs.1,
      pieces_notMem sof hs.2.2] at hp
    simp only [List.cons_append, List.nil_append, List.mem_cons, List.not_mem_nil,
      or_false] at hp
    rcases hp with rfl | rfl
    · exact .inr (.inl (List.prefix_append _ _).isInfix)
    · exact .inr (.inl ((List.suffix_append u _).trans (List.suffix_append front _)).isInfix)
  · have hv' : sof ∉ v := by
      rcases v with _ | ⟨y, _ | ⟨y', v⟩⟩
      · simp
      · simpa [eq_comm] using hsof
      · simp at hv
    rw [pieces_notMem sof (by simp [hs, hv']), List.mem_singleton] at hp
    subst hp
    exact .inr (.inr ⟨front, u, v, back, hu, hv, rfl, rfl⟩)

/-- An edit at the opening delimiter. -/
theorem remnant_front {s u v back : List α} (hv : v.length ≤ 1) (hs : sof ∉ s)
    (hw : sof :: s = u ++ back) (hu : u.length ≤ 1) :
    ∀ piece ∈ pieces sof (v ++ back), Remnant s piece := by
  intro piece hp
  rcases u with _ | ⟨x, _ | ⟨x', u⟩⟩
  · rw [List.nil_append] at hw
    rw [← hw, pieces_append_sof, pieces_notMem sof hs, List.mem_append,
      List.mem_singleton] at hp
    rcases hp with hp | rfl
    · exact .inl (length_le_of_mem_pieces hv hp)
    · exact .inr (.inl (List.infix_refl _))
  · obtain ⟨-, rfl⟩ := List.cons.inj hw
    exact remnant_inside [] [] v s (by simp) hv (by simpa using hs) piece
      (by simpa using hp)
  · simp at hu

/-- An edit at the closing delimiter. -/
theorem remnant_back {s front u v : List α} (hv : v.length ≤ 1) (hs : sof ∉ s)
    (hw : s ++ [sof] = front ++ u) (hu : u.length ≤ 1) :
    ∀ piece ∈ pieces sof (front ++ v), Remnant s piece := by
  intro piece hp
  rcases u with _ | ⟨x, _ | ⟨x', u⟩⟩
  · rw [List.append_nil] at hw
    rw [← hw, List.append_assoc, List.singleton_append, pieces_append_sof,
      pieces_notMem sof hs, List.singleton_append, List.mem_cons] at hp
    rcases hp with rfl | hp
    · exact .inr (.inl (List.infix_refl _))
    · exact .inl (length_le_of_mem_pieces hv hp)
  · obtain ⟨rfl, -⟩ := List.append_inj' hw rfl
    have hp' := remnant_inside s [] v [] (by simp) hv
      (by simpa using hs) piece (by simpa using hp)
    simpa using hp'
  · simp at hu

/-- The pieces of an edited frame. -/
theorem remnant_of_gap {s w : List α} (hs : sof ∉ s) (h : Gap (sof :: s ++ [sof]) w) :
    ∀ piece ∈ pieces sof w, Remnant s piece := by
  obtain ⟨front, u, v, back, hu, hv, hw, rfl⟩ := h
  rcases front with _ | ⟨x, front⟩
  · -- The gap covers the opening delimiter or lies before it.
    rcases List.eq_nil_or_concat back with rfl | ⟨back, z, rfl⟩
    · have hlen := congrArg List.length hw
      simp at hlen
      omega
    · rw [List.concat_eq_append] at hw ⊢
      have hw' : sof :: s ++ [sof] = (u ++ back) ++ [z] := by simpa using hw
      obtain ⟨hw', hz⟩ := List.append_inj' hw' rfl
      rw [List.cons.inj hz |>.1.symm, List.nil_append, ← List.append_assoc, pieces_snoc_sof]
      intro piece hp
      rcases List.mem_append.mp hp with hp | hp
      · exact remnant_front hv hs hw' hu piece hp
      · rw [List.mem_singleton.mp hp]
        exact .nil s
  · rw [List.cons_append, List.cons_append] at hw
    obtain ⟨rfl, hs'⟩ := List.cons.inj hw
    clear hw
    rw [List.cons_append, pieces_cons_sof]
    intro piece hp
    rcases List.mem_cons.mp hp with rfl | hp
    · exact .nil s
    rcases List.eq_nil_or_concat back with rfl | ⟨back, z, rfl⟩
    · rw [List.append_nil] at hs' hp
      exact remnant_back hv hs hs' hu piece hp
    · rw [List.concat_eq_append] at hs' hp
      have hs'' : s ++ [sof] = (front ++ (u ++ back)) ++ [z] := by simpa using hs'
      obtain ⟨rfl, hz⟩ := List.append_inj' hs'' rfl
      rw [← (List.cons.inj hz).1, ← List.append_assoc, ← List.append_assoc, pieces_snoc_sof,
        List.append_assoc] at hp
      rcases List.mem_append.mp hp with hp | hp
      · exact remnant_inside front u v back hu hv hs piece hp
      · rw [List.mem_singleton.mp hp]
        exact .nil _

end Cut

/-! ## The bodies they spell -/

namespace Code

variable [DecidableEq α] (C : Code α)

/-- A body read behind a held body. -/
theorem scanFrom_body_eq {a xs b : List α} (h : C.scanFrom (.body a) xs = .body b) :
    ∃ k, C.scan xs = .body k ∧ b = a ++ k := by
  rw [scanFrom_body] at h
  cases hk : C.scan xs with
  | body k =>
      rw [hk] at h
      exact ⟨k, rfl, (Scan.body.inj h).symm⟩
  | pending k => simp [hk, prepend] at h
  | bad k => simp [hk, prepend] at h

/-- A body read behind an outstanding escape symbol. -/
theorem scanFrom_pending_eq {a xs b : List α} (h : C.scanFrom (.pending a) xs = .body b) :
    ∃ y ys k, xs = y :: ys ∧ C.Masked y ∧ C.scan ys = .body k ∧ b = a ++ C.mask y :: k := by
  cases xs with
  | nil => simp at h
  | cons y ys =>
      rw [scanFrom_cons, next] at h
      split at h
      · next hy =>
          obtain ⟨k, hk, rfl⟩ := C.scanFrom_body_eq h
          exact ⟨y, ys, k, rfl, hy, hk, by simp⟩
      · simp at h

/-- What a gap does to the scan in front of it. -/
theorem scanFrom_gap (t : Scan α) {u : List α} (hu : u.length ≤ 1) {h : List α}
    (ht : t = .body h ∨ t = .pending h) :
    (∃ g, g.length ≤ 1 ∧ C.scanFrom t u = .body (h ++ g)) ∨ C.scanFrom t u = .pending h ∨
      C.scanFrom t u = .bad h := by
  rcases u with _ | ⟨x, _ | ⟨x', u⟩⟩
  · rcases ht with rfl | rfl
    · exact .inl ⟨[], by simp, by simp⟩
    · exact .inr (.inl rfl)
  · rcases ht with rfl | rfl
    · by_cases hx : x = C.esc
      · simp [next, hx]
      · exact .inl ⟨[x], by simp, by simp [next, hx]⟩
    · by_cases hx : C.Masked x
      · exact .inl ⟨[C.mask x], by simp, by simp [next, hx]⟩
      · simp [next, hx]
  · simp at hu

/-- Bodies read behind a body and behind an outstanding escape symbol: the first symbol
is masked in the one and not in the other. -/
theorem gap_mixed {h g back a b : List α} (hb : C.scanFrom (.pending h) back = .body b)
    (ha : C.scanFrom (.body (h ++ g)) back = .body a) (hl : a.length = b.length) : Gap a b := by
  obtain ⟨y, ys, k, rfl, hy, hk, rfl⟩ := C.scanFrom_pending_eq hb
  have hye : y ≠ C.esc := fun he => hy.not_special (.inr he)
  have hgk : C.scanFrom (.body (h ++ g ++ [y])) ys = .body a := by
    simpa [next, hye] using ha
  obtain ⟨k', hk', rfl⟩ := C.scanFrom_body_eq hgk
  obtain rfl : k = k' := by simpa [hk] using hk'
  have hg : g = [] := by
    simp only [List.length_append, List.length_cons, List.length_nil] at hl
    exact List.length_eq_zero_iff.mp (by omega)
  exact ⟨h, [y], [C.mask y], k, by simp, by simp, by simp [hg], by simp⟩

/-- Spellings that agree outside a gap spell bodies that do, at equal lengths. -/
theorem gap_of_gap_stuff {a b : List α} (h : Gap (C.stuff a) (C.stuff b))
    (hl : a.length = b.length) : Gap a b := by
  obtain ⟨front, u, v, back, hu, hv, ha, hb⟩ := h
  have ha' : C.scanFrom (C.scanFrom (C.scan front) u) back = .body a := by
    rw [← C.scan_stuff a, ha, scan_append, scanFrom_append]
  have hb' : C.scanFrom (C.scanFrom (C.scan front) v) back = .body b := by
    rw [← C.scan_stuff b, hb, scan_append, scanFrom_append]
  obtain ⟨held, hheld⟩ : ∃ held, C.scan front = .body held ∨ C.scan front = .pending held := by
    cases ht : C.scan front with
    | body held => exact ⟨held, .inl rfl⟩
    | pending held => exact ⟨held, .inr rfl⟩
    | bad held => simp [ht] at ha'
  rcases C.scanFrom_gap _ hu hheld with ⟨g, hg, hta⟩ | hta | hta <;> rw [hta] at ha' <;>
    rcases C.scanFrom_gap _ hv hheld with ⟨g', hg', htb⟩ | htb | htb <;> rw [htb] at hb'
  · obtain ⟨k, hk, rfl⟩ := C.scanFrom_body_eq ha'
    obtain ⟨k', hk', rfl⟩ := C.scanFrom_body_eq hb'
    obtain rfl : k = k' := by simpa [hk] using hk'
    exact ⟨held, g, g', k, hg, hg', by simp, by simp⟩
  · exact C.gap_mixed hb' ha' hl
  · simp at hb'
  · exact (C.gap_mixed ha' hb' hl.symm).symm
  · obtain rfl : a = b := by simpa [ha'] using hb'
    exact .refl a
  all_goals simp at ha' hb'

/-- A spelling inside another of the same body length: at most the first symbol differs. -/
theorem gap_of_infix_stuff {a b : List α} (h : C.stuff b <:+: C.stuff a)
    (hl : a.length = b.length) : Gap a b := by
  obtain ⟨front, back, ha⟩ := h
  have ha' : C.scanFrom (C.scan front) (C.stuff b ++ back) = .body a := by
    rw [← C.scan_stuff a, ← ha, List.append_assoc, scan_append]
  cases ht : C.scan front with
  | body held =>
      rw [ht, scanFrom_append, scanFrom_stuff] at ha'
      obtain ⟨k, -, rfl⟩ := C.scanFrom_body_eq ha'
      simp only [List.length_append] at hl
      have hheld : held = [] := List.length_eq_zero_iff.mp (by omega)
      have hk : k = [] := List.length_eq_zero_iff.mp (by omega)
      simpa [hheld, hk] using Gap.refl b
  | pending held =>
      rw [ht] at ha'
      cases b with
      | nil =>
          rw [List.length_eq_zero_iff.mp hl]
          exact .refl []
      | cons y b =>
          by_cases hs : C.Special y
          · have hesc : ¬ C.Masked C.esc := fun hm => hm.not_special (.inr rfl)
            simp [C.stuffSymbol_of_special hs, next, hesc] at ha'
          · rw [stuff_cons, C.stuffSymbol_of_not_special hs, List.append_assoc,
              List.singleton_append] at ha'
            obtain ⟨y', ys, k, hy, -, hk, rfl⟩ := C.scanFrom_pending_eq ha'
            obtain ⟨rfl, rfl⟩ := List.cons.inj hy
            rw [scan_append, scan_stuff] at hk
            obtain ⟨k', -, rfl⟩ := C.scanFrom_body_eq hk
            simp only [List.length_append, List.length_cons] at hl
            have hheld : held = [] := List.length_eq_zero_iff.mp (by omega)
            have hk' : k' = [] := List.length_eq_zero_iff.mp (by omega)
            exact ⟨[], [C.mask y], [y], b, by simp, by simp, by simp [hheld, hk'], by simp⟩
  | bad held => simp [ht] at ha'

end Code

/-- **What one edit leaves of a frame.**  A piece of the edited stream that spells a
body of the old length spells one that differs from the old body in one place at most. -/
theorem gap_of_edited_frame [DecidableEq α] (C : Code α) {a b w : List α}
    (h : Edit (C.sof :: C.stuff a ++ [C.sof]) w) (hb : C.stuff b ∈ Cut.pieces C.sof w)
    (hl : a.length = b.length) : Gap a b := by
  rcases Cut.remnant_of_gap (C.sof_notMem_stuff a) h.gap _ hb with hshort | hinfix | hgap
  · rw [C.length_stuff] at hshort
    exact .of_length_le (by omega) (by omega)
  · exact C.gap_of_infix_stuff hinfix hl
  · exact C.gap_of_gap_stuff hgap hl

end Framing
