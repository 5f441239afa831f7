import SpectrumAnalyzer.Host.FrameDecoder

/-!
# Where host and firmware differ

The host appends an unescaped byte to its buffer without looking at the length, so it
keeps bodies that the firmware's buffer has no room for.  Such an over-run is charged as
an over-long frame by the firmware at once, and by the host as something else or not at
all.  This is the only difference between the fault counters of the two, and the only
way for the host buffer to outgrow a packet.

## Main definitions

* `OverRun` — a body that only the host keeps.
* `misfiledFormat`, `misfiledEscape`, `OpenOverRun` — over-runs by what the host makes of them.
* `FaultsAgree` — equal fault counters, the firmware's modulo `2 ^ 32`.
* `EscapedOverrun` — a stream with an over-run in it.
-/

namespace SpectrumAnalyzer.Host

open Framing

/-- A body that is too long for a packet, everything beyond it sent escaped. -/
def OverRun (body : List UInt8) : Prop :=
  236 < body.length ∧ ∀ x ∈ body.drop 236, telemetryCode.Special x

instance (body : List UInt8) : Decidable (OverRun body) := inferInstanceAs (Decidable (_ ∧ _))

theorem overRun_iff (body : List UInt8) :
    OverRun body ↔ hostPolicy.keeps body ∧ ¬ firmwarePolicy.keeps body := by
  rw [OverRun, host_keeps, firmware_keeps, Nat.not_le, and_comm]

/-- A complete piece that the host calls malformed and the firmware over-long. -/
def overRunBody : Scan UInt8 → Bool
  | .body held => decide (OverRun held)
  | _ => false

/-- A complete piece that the host calls badly escaped and the firmware over-long. -/
def overRunEscape : Scan UInt8 → Bool
  | .body _ => false
  | .pending held => decide (OverRun held)
  | .bad held => decide (OverRun held)

/-- An open piece that the host has not charged and the firmware has. -/
def overRunOpen : Scan UInt8 → Bool
  | .body held => decide (OverRun held)
  | .pending held => decide (OverRun held)
  | .bad _ => false

/-- An open piece that the host has charged as badly escaped, the firmware as over-long. -/
def overRunBad : Scan UInt8 → Bool
  | .bad held => decide (OverRun held)
  | _ => false

/-- The over-runs that the host counts as format errors. -/
def misfiledFormat (bytes : List UInt8) : ℕ :=
  (Cut.of telemetrySof bytes).closed.countP fun piece => overRunBody (telemetryCode.scan piece)

/-- The over-runs that the host counts as escape errors. -/
def misfiledEscape (bytes : List UInt8) : ℕ :=
  (Cut.of telemetrySof bytes).closed.countP
      (fun piece => overRunEscape (telemetryCode.scan piece)) +
    if overRunBad (telemetryCode.scan (Cut.of telemetrySof bytes).rest) then 1 else 0

/-- The stream ends inside an over-run that the host has not noticed. -/
def OpenOverRun (bytes : List UInt8) : Prop :=
  overRunOpen (telemetryCode.scan (Cut.of telemetrySof bytes).rest) = true

/-- The five fault counters of the two decoders agree. -/
def FaultsAgree (c : TelemetryDecoder) (h : FrameDecoder) : Prop :=
  c.stats.crcErrors = UInt32.ofNat h.crcErrors ∧
    c.stats.formatErrors = UInt32.ofNat h.formatErrors ∧
    c.stats.overflowErrors = UInt32.ofNat h.overflowErrors ∧
    c.stats.escapeErrors = UInt32.ofNat h.escapeErrors ∧
    c.stats.resyncEvents = UInt32.ofNat h.resyncEvents

/-! ## Piece by piece -/

theorem judgeBody_of_long {body : List UInt8} (h : 236 < body.length) :
    judgeBody body = some .format := by
  have hne : body ≠ [] := fun he => by simp [he] at h
  rw [judgeBody, if_neg hne, decodeBytes_of_length (by omega)]
  rfl

/-- The body that a scan holds. -/
def heldOf : Scan UInt8 → List UInt8
  | .body held => held
  | .pending held => held
  | .bad held => held

/-- Without an over-run the two policies keep the same bodies. -/
theorem host_keeps_iff {body : List UInt8} (h : ¬ OverRun body) :
    hostPolicy.keeps body ↔ firmwarePolicy.keeps body := by
  rw [overRun_iff, not_and_not_right] at h
  exact ⟨h, fun hk => host_keeps_of_length (firmware_keeps.mp hk)⟩

theorem closedFault_eq {t : Scan UInt8} (h : ¬ OverRun (heldOf t)) :
    hostPolicy.closedFault t = firmwarePolicy.closedFault t := by
  have hkeeps := host_keeps_iff h
  by_cases hk : firmwarePolicy.keeps (heldOf t)
  · have hk' := hkeeps.mpr hk
    cases t <;> simp only [heldOf] at hk hk' <;>
      simp only [Policy.closedFault, hk, hk', if_true]
    rfl
  · have hk' := mt hkeeps.mp hk
    cases t <;> simp only [heldOf] at hk hk' <;>
      simp only [Policy.closedFault, hk, hk', if_false]

theorem openFault_eq {t : Scan UInt8} (h : ¬ OverRun (heldOf t)) :
    hostPolicy.openFault t = firmwarePolicy.openFault t := by
  have hkeeps := host_keeps_iff h
  by_cases hk : firmwarePolicy.keeps (heldOf t)
  · have hk' := hkeeps.mpr hk
    cases t <;> simp only [heldOf] at hk hk' <;>
      simp only [Policy.openFault, hk, hk', if_true]
  · have hk' := mt hkeeps.mp hk
    cases t <;> simp only [heldOf] at hk hk' <;>
      simp only [Policy.openFault, hk, hk', if_false]

/-- The firmware calls a complete over-run over-long, the host malformed or badly escaped. -/
theorem closedFault_overRun {t : Scan UInt8} (h : OverRun (heldOf t)) :
    firmwarePolicy.closedFault t = some .overlong ∧
      hostPolicy.closedFault t = some (if overRunBody t then .refused .format else .escape) := by
  obtain ⟨hk', hk⟩ := (overRun_iff _).mp h
  cases t with
  | body held =>
      simp only [heldOf] at h hk hk'
      simp only [Policy.closedFault, hk, hk', if_true, if_false, overRunBody, h, decide_true]
      rw [show hostPolicy.judge held = some .format from judgeBody_of_long h.1]
      exact ⟨trivial, rfl⟩
  | pending held =>
      simp only [heldOf] at hk hk'
      simp [Policy.closedFault, hk, hk', overRunBody]
  | bad held =>
      simp only [heldOf] at hk hk'
      simp [Policy.closedFault, hk, hk', overRunBody]

theorem openFault_overRun {t : Scan UInt8} (h : OverRun (heldOf t)) :
    firmwarePolicy.openFault t = some .overlong ∧
      hostPolicy.openFault t = if overRunBad t then some .escape else none := by
  obtain ⟨hk', hk⟩ := (overRun_iff _).mp h
  cases t <;> simp only [heldOf] at h hk hk' <;>
    simp [Policy.openFault, hk, hk', overRunBad, h]

/-! ## Over a stream -/

/-- Two exclusive parts of a count. -/
theorem countP_add {α : Type*} {p q r : α → Bool}
    (h : ∀ x, (p x).toNat = (q x).toNat + (r x).toNat) (l : List α) :
    l.countP p = l.countP q + l.countP r := by
  induction l with
  | nil => rfl
  | cons x xs ih =>
      have hx := h x
      rw [List.countP_cons, List.countP_cons, List.countP_cons, ih]
      cases hp : p x <;> cases hq : q x <;> cases hr : r x <;> simp [hp, hq, hr] at hx ⊢ <;> omega

/-- Any over-run, complete. -/
def overRunClosed (t : Scan UInt8) : Bool := decide (OverRun (heldOf t))

theorem overRunClosed_split (t : Scan UInt8) :
    (overRunClosed t).toNat = (overRunBody t).toNat + (overRunEscape t).toNat := by
  cases t with
  | body held => rfl
  | pending held => exact (Nat.zero_add _).symm
  | bad held => exact (Nat.zero_add _).symm

theorem closed_overlong (t : Scan UInt8) :
    (decide (firmwarePolicy.closedFault t = some .overlong)).toNat =
      (decide (hostPolicy.closedFault t = some .overlong)).toNat + (overRunClosed t).toNat := by
  by_cases h : OverRun (heldOf t)
  · obtain ⟨hfirmware, hhost⟩ := closedFault_overRun h
    rw [hfirmware, hhost]
    cases overRunBody t <;> simp [overRunClosed, h]
  · simp [closedFault_eq h, overRunClosed, h]

theorem closed_format (t : Scan UInt8) :
    (decide (hostPolicy.closedFault t = some (.refused .format))).toNat =
      (decide (firmwarePolicy.closedFault t = some (.refused .format))).toNat +
        (overRunBody t).toNat := by
  by_cases h : OverRun (heldOf t)
  · obtain ⟨hfirmware, hhost⟩ := closedFault_overRun h
    rw [hfirmware, hhost]
    cases overRunBody t <;> simp
  · have hbody : overRunBody t = false := by
      cases t <;> simp_all [overRunBody, heldOf]
    simp [closedFault_eq h, hbody]

theorem closed_escape (t : Scan UInt8) :
    (decide (hostPolicy.closedFault t = some .escape)).toNat =
      (decide (firmwarePolicy.closedFault t = some .escape)).toNat +
        (overRunEscape t).toNat := by
  have hsplit := overRunClosed_split t
  by_cases h : OverRun (heldOf t)
  · obtain ⟨hfirmware, hhost⟩ := closedFault_overRun h
    have hone : (overRunClosed t).toNat = 1 := by simp [overRunClosed, h]
    rw [hone] at hsplit
    rw [hfirmware, hhost]
    cases hb : overRunBody t <;> cases he : overRunEscape t <;> simp_all
  · have hzero : (overRunClosed t).toNat = 0 := by simp [overRunClosed, h]
    rw [hzero] at hsplit
    rw [closedFault_eq h]
    omega

theorem closed_crc (t : Scan UInt8) :
    hostPolicy.closedFault t = some (.refused .crc) ↔
      firmwarePolicy.closedFault t = some (.refused .crc) := by
  by_cases h : OverRun (heldOf t)
  · obtain ⟨hfirmware, hhost⟩ := closedFault_overRun h
    rw [hfirmware, hhost]
    cases overRunBody t <;> simp
  · rw [closedFault_eq h]

theorem closed_isSome (t : Scan UInt8) :
    (hostPolicy.closedFault t).isSome = (firmwarePolicy.closedFault t).isSome := by
  by_cases h : OverRun (heldOf t)
  · obtain ⟨hfirmware, hhost⟩ := closedFault_overRun h
    rw [hfirmware, hhost]
    rfl
  · rw [closedFault_eq h]

/-- How the charges for the open piece differ. -/
theorem open_compare (t : Scan UInt8) :
    (if firmwarePolicy.openFault t = some .overlong then 1 else 0) =
        (if hostPolicy.openFault t = some .overlong then 1 else 0) +
          (if overRunBad t then 1 else 0) + (if overRunOpen t then 1 else 0) ∧
      (if hostPolicy.openFault t = some .escape then 1 else 0) =
        (if firmwarePolicy.openFault t = some .escape then 1 else 0) +
          (if overRunBad t then 1 else 0) ∧
      ∀ reason, hostPolicy.openFault t = some (.refused reason) ↔
        firmwarePolicy.openFault t = some (.refused reason) := by
  by_cases h : OverRun (heldOf t)
  · obtain ⟨hfirmware, hhost⟩ := openFault_overRun h
    rw [hfirmware, hhost]
    cases t <;> simp only [heldOf] at h <;> simp [overRunBad, overRunOpen, h]
  · have hbad : overRunBad t = false := by cases t <;> simp_all [overRunBad, heldOf]
    have hopen : overRunOpen t = false := by cases t <;> simp_all [overRunOpen, heldOf]
    simp [openFault_eq h, hbad, hopen]

/-- How the fault counters of the two decoders differ. -/
theorem faultCount_compare (bytes : List UInt8) :
    hostPolicy.faultCount telemetryCode bytes (.refused .crc) =
        firmwarePolicy.faultCount telemetryCode bytes (.refused .crc) ∧
      hostPolicy.faultCount telemetryCode bytes (.refused .format) =
        firmwarePolicy.faultCount telemetryCode bytes (.refused .format) + misfiledFormat bytes ∧
      firmwarePolicy.faultCount telemetryCode bytes .overlong =
        hostPolicy.faultCount telemetryCode bytes .overlong + misfiledFormat bytes +
          misfiledEscape bytes +
          (if overRunOpen (telemetryCode.scan (Cut.of telemetrySof bytes).rest) then 1 else 0) ∧
      hostPolicy.faultCount telemetryCode bytes .escape =
        firmwarePolicy.faultCount telemetryCode bytes .escape + misfiledEscape bytes ∧
      hostPolicy.resyncCount telemetryCode bytes =
        firmwarePolicy.resyncCount telemetryCode bytes := by
  have hsof : telemetryCode.sof = telemetrySof := rfl
  have hformat := countP_add (fun piece => closed_format (telemetryCode.scan piece))
    (Cut.of telemetrySof bytes).closed
  have hescape := countP_add (fun piece => closed_escape (telemetryCode.scan piece))
    (Cut.of telemetrySof bytes).closed
  have hlong := countP_add (fun piece => closed_overlong (telemetryCode.scan piece))
    (Cut.of telemetrySof bytes).closed
  have hsplit := countP_add (fun piece => overRunClosed_split (telemetryCode.scan piece))
    (Cut.of telemetrySof bytes).closed
  obtain ⟨holong, hoescape, horefused⟩ :=
    open_compare (telemetryCode.scan (Cut.of telemetrySof bytes).rest)
  simp only [Policy.faultCount, Policy.resyncCount, misfiledFormat, misfiledEscape]
  rw [hsof]
  refine ⟨?_, ?_, ?_, ?_, ?_⟩
  · simp only [closed_crc, horefused]
  · simp only [hformat, horefused]
    omega
  · rw [hlong, hsplit, holong]
    omega
  · rw [hescape, hoescape]
    omega
  · simp only [closed_isSome]

theorem ofNat_add_eq_iff {m n : ℕ} :
    UInt32.ofNat (m + n) = UInt32.ofNat m ↔ n % 2 ^ 32 = 0 := by
  rw [← UInt32.toNat_inj, UInt32.toNat_ofNat', UInt32.toNat_ofNat']
  omega

/-- **When the fault counters agree.**  After any stream, exactly when the over-runs that
the host files elsewhere vanish modulo `2 ^ 32` and none is still open. -/
theorem faults_agree_iff (bytes : List UInt8) :
    FaultsAgree (decoderAfter bytes) (FrameDecoder.after bytes) ↔
      misfiledFormat bytes % 2 ^ 32 = 0 ∧ misfiledEscape bytes % 2 ^ 32 = 0 ∧
        ¬ OpenOverRun bytes := by
  obtain ⟨-, hfirmware, hfresync⟩ := fault_decoderAfter bytes
  obtain ⟨-, -, hhost, hhresync⟩ := FrameDecoder.fault_after bytes
  obtain ⟨hcrc, hformat, hlong, hescape, hresync⟩ := faultCount_compare bytes
  have hc : (decoderAfter bytes).stats.crcErrors =
      UInt32.ofNat (FrameDecoder.after bytes).crcErrors :=
    (hfirmware (.refused .crc)).trans (congrArg UInt32.ofNat (hcrc.symm.trans (hhost _).symm))
  have hr : (decoderAfter bytes).stats.resyncEvents =
      UInt32.ofNat (FrameDecoder.after bytes).resyncEvents := by
    rw [hfresync, hhresync, hresync]
  have hf : (decoderAfter bytes).stats.formatErrors =
      UInt32.ofNat (FrameDecoder.after bytes).formatErrors ↔ misfiledFormat bytes % 2 ^ 32 = 0 := by
    rw [eq_comm, show (decoderAfter bytes).stats.formatErrors = _ from hfirmware (.refused .format),
      show (FrameDecoder.after bytes).formatErrors = _ from hhost (.refused .format), hformat]
    exact ofNat_add_eq_iff
  have he : (decoderAfter bytes).stats.escapeErrors =
      UInt32.ofNat (FrameDecoder.after bytes).escapeErrors ↔ misfiledEscape bytes % 2 ^ 32 = 0 := by
    rw [eq_comm, show (decoderAfter bytes).stats.escapeErrors = _ from hfirmware .escape,
      show (FrameDecoder.after bytes).escapeErrors = _ from hhost .escape, hescape]
    exact ofNat_add_eq_iff
  have ho : (decoderAfter bytes).stats.overflowErrors =
      UInt32.ofNat (FrameDecoder.after bytes).overflowErrors ↔
        (misfiledFormat bytes + misfiledEscape bytes +
          (if overRunOpen (telemetryCode.scan (Cut.of telemetrySof bytes).rest) then 1 else 0)) %
            2 ^ 32 = 0 := by
    rw [show (decoderAfter bytes).stats.overflowErrors = _ from hfirmware .overlong,
      show (FrameDecoder.after bytes).overflowErrors = _ from hhost .overlong, hlong,
      Nat.add_assoc, Nat.add_assoc, ← Nat.add_assoc (misfiledFormat bytes)]
    exact ofNat_add_eq_iff
  simp only [FaultsAgree, OpenOverRun]
  rw [hf, ho, he]
  clear hf ho he hlong hformat hescape
  cases overRunOpen (telemetryCode.scan (Cut.of telemetrySof bytes).rest) with
  | true =>
      simp only [if_true, not_true_eq_false, and_false, iff_false]
      rintro ⟨-, hf, ho, he, -⟩
      omega
  | false =>
      simp only [Bool.false_eq_true, if_false, Nat.add_zero, not_false_eq_true, and_true]
      constructor
      · rintro ⟨-, hf, -, he, -⟩
        exact ⟨hf, he⟩
      · rintro ⟨hf, he⟩
        exact ⟨hc, hf, by omega, he, hr⟩

/-- One escaped byte beyond a full packet is an over-run. -/
theorem overRun_snoc {body : List UInt8} (h : body.length = 236) {x : UInt8}
    (hx : telemetryCode.Special x) : OverRun (body ++ [x]) := by
  refine ⟨by rw [List.length_append, List.length_singleton]; omega, ?_⟩
  rw [← h, List.drop_left]
  intro y hy
  rwa [List.mem_singleton.mp hy]

/-- The overflow counters after an over-run that a delimiter ends. -/
theorem overflow_of_overRun {body : List UInt8} (h : OverRun body) :
    (decoderAfter (telemetryCode.stuff body ++ [telemetrySof])).stats.overflowErrors = 1 ∧
      (FrameDecoder.after (telemetryCode.stuff body ++ [telemetrySof])).overflowErrors = 0 := by
  obtain ⟨-, hfirmware, -⟩ := fault_decoderAfter (telemetryCode.stuff body ++ [telemetrySof])
  obtain ⟨-, -, hhost, -⟩ := FrameDecoder.fault_after (telemetryCode.stuff body ++ [telemetrySof])
  have hcut : Cut.of telemetryCode.sof (telemetryCode.stuff body ++ [telemetrySof]) =
      ⟨[telemetryCode.stuff body], []⟩ := by
    have hdata := Cut.of_notMem _ (telemetryCode.sof_notMem_stuff body)
    change Cut.of telemetryCode.sof (telemetryCode.stuff body ++ [telemetryCode.sof]) = _
    rw [Cut.of_snoc_sof, hdata]
    rfl
  obtain ⟨hlong, hformat⟩ := closedFault_overRun (t := .body body) h
  constructor
  · refine (hfirmware .overlong).trans ?_
    rw [Policy.faultCount_single _ _ hcut, telemetryCode.scan_stuff, hlong]
    rfl
  · refine (hhost .overlong).trans ?_
    rw [Policy.faultCount_single _ _ hcut, telemetryCode.scan_stuff, hformat]
    exact if_neg (by split <;> simp)

/-- A full packet of zeros and one escaped byte more. -/
def overRunPiece : List UInt8 := List.replicate 236 0 ++ [0x7D, 0x5E]

theorem overRunPiece_eq :
    overRunPiece = telemetryCode.stuff (List.replicate 236 0 ++ [telemetrySof]) := by
  have hzero : telemetryCode.stuff (List.replicate 236 0) = List.replicate 236 0 := by
    apply telemetryCode.stuff_eq_self
    intro x hx
    rw [List.eq_of_mem_replicate hx]
    decide
  rw [Code.stuff_snoc, hzero]
  rfl

theorem faults_differ :
    ¬ FaultsAgree (decoderAfter (overRunPiece ++ [telemetrySof]))
      (FrameDecoder.after (overRunPiece ++ [telemetrySof])) := by
  rintro ⟨-, -, hoverflow, -, -⟩
  obtain ⟨hfirmware, hhost⟩ := overflow_of_overRun
    (overRun_snoc List.length_replicate (.inl rfl : telemetryCode.Special telemetrySof))
  rw [overRunPiece_eq, hfirmware, hhost] at hoverflow
  exact absurd hoverflow (by decide)

/-! ## The buffer of the host -/

/-- Somewhere a piece begins with a full packet and an escaped byte more. -/
def EscapedOverrun (bytes : List UInt8) : Prop :=
  ∃ front body x back, (front = [] ∨ ∃ a, front = a ++ [telemetrySof]) ∧ body.length = 236 ∧
    telemetryCode.Special x ∧ bytes = front ++ (telemetryCode.stuff (body ++ [x]) ++ back)

/-- A decoder that shows a body holds it. -/
theorem buffer_of_view {d : FrameDecoder} {held : List UInt8} {pending : Bool}
    (h : d.view = some (held, pending)) : d.buffer = held ∧ d.escaped = pending := by
  rw [FrameDecoder.view] at h
  split at h
  · cases h
  · exact ⟨congrArg Prod.fst (Option.some.inj h), congrArg Prod.snd (Option.some.inj h)⟩

/-- The buffer behind such a beginning. -/
theorem buffer_of_overRun {front body : List UInt8} {x : UInt8}
    (hfront : front = [] ∨ ∃ a, front = a ++ [telemetrySof]) (hbody : body.length = 236)
    (hx : telemetryCode.Special x) :
    (FrameDecoder.after (front ++ telemetryCode.stuff (body ++ [x]))).buffer = body ++ [x] := by
  obtain ⟨-, hview, -⟩ := FrameDecoder.fault_after (front ++ telemetryCode.stuff (body ++ [x]))
  have hrest := Cut.rest_append telemetrySof hfront (telemetryCode.sof_notMem_stuff (body ++ [x]))
  have hkeeps := ((overRun_iff _).mp (overRun_snoc hbody hx)).1
  rw [hrest, telemetryCode.scan_stuff, hostPolicy.shown_eq_body.mpr ⟨rfl, hkeeps⟩] at hview
  exact (buffer_of_view hview).1

/-- A buffer that outgrew the packet holds the beginning of an over-run. -/
theorem overRun_of_buffer {bytes : List UInt8}
    (h : 236 < (FrameDecoder.after bytes).buffer.length) : EscapedOverrun bytes := by
  obtain ⟨hwf, hview, -⟩ := FrameDecoder.fault_after bytes
  obtain ⟨front, hfront, hbytes⟩ := Cut.exists_eq_append_rest telemetrySof bytes
  have hspells := telemetryCode.spells_scan _ (Cut.sof_notMem_rest telemetrySof bytes)
  set held := (FrameDecoder.after bytes).buffer with hheld
  have hdrop : (FrameDecoder.after bytes).dropping = false := by
    by_contra hd
    have := hwf.buffer_of_dropping (by simpa using hd)
    rw [hheld, this] at h
    simp at h
  -- The open piece spells what the buffer holds, and perhaps an escape symbol more.
  obtain ⟨tail, htail⟩ : ∃ tail, (Cut.of telemetrySof bytes).rest =
      telemetryCode.stuff held ++ tail := by
    by_cases hesc : (FrameDecoder.after bytes).escaped = true
    · have hshown : (FrameDecoder.after bytes).view = some (held, true) := by
        simp [FrameDecoder.view, hdrop, hesc, hheld]
      rw [(hostPolicy.shown_eq_pending.mp (hview.symm.trans hshown)).1] at hspells
      exact ⟨_, hspells⟩
    · have hshown : (FrameDecoder.after bytes).view = some (held, false) := by
        simp [FrameDecoder.view, hdrop, hesc, hheld]
      rw [(hostPolicy.shown_eq_body.mp (hview.symm.trans hshown)).1] at hspells
      exact ⟨[], by rw [List.append_nil]; exact hspells⟩
  have hspecial : telemetryCode.Special held[236] := hwf.keeps _ (by
    rw [← hheld, List.drop_eq_getElem_cons h]
    exact List.mem_cons_self)
  refine ⟨front, held.take 236, held[236], telemetryCode.stuff (held.drop 237) ++ tail, hfront,
    by rw [List.length_take]; omega, hspecial, ?_⟩
  rw [← List.append_assoc (telemetryCode.stuff _), ← telemetryCode.stuff_split held h, ← htail,
    ← hbytes]

/-- **When the host buffer stays within a packet.**  After every byte of a stream,
exactly when no piece of it begins with a full packet and an escaped byte more. -/
theorem buffer_bounded_iff (bytes : List UInt8) :
    (∀ n, (FrameDecoder.after (bytes.take n)).buffer.length ≤ rawLength) ↔
      ¬ EscapedOverrun bytes := by
  constructor
  · rintro h ⟨front, body, x, back, hfront, hbody, hx, rfl⟩
    have hlen := h (front ++ telemetryCode.stuff (body ++ [x])).length
    rw [← List.append_assoc, List.take_left, buffer_of_overRun hfront hbody hx,
      List.length_append, List.length_singleton, hbody] at hlen
    exact absurd hlen (by decide)
  · intro h n
    by_contra hlen
    have hover : EscapedOverrun (bytes.take n) := overRun_of_buffer (by
      rw [rawLength] at hlen
      omega)
    obtain ⟨front, body, x, back, hfront, hbody, hx, htake⟩ := hover
    refine h ⟨front, body, x, back ++ bytes.drop n, hfront, hbody, hx, ?_⟩
    rw [← List.append_assoc _ back, ← List.append_assoc, ← htake, List.take_append_drop]

theorem buffer_outgrows :
    ¬ (FrameDecoder.after overRunPiece).buffer.length ≤ rawLength := by
  have hbody : (List.replicate 236 (0 : UInt8)).length = 236 := List.length_replicate
  have hx : telemetryCode.Special telemetrySof := .inl rfl
  have hbuffer := buffer_of_overRun (.inl rfl : ([] : List UInt8) = [] ∨ _) hbody hx
  rw [List.nil_append, ← overRunPiece_eq] at hbuffer
  rw [hbuffer, List.length_append, List.length_replicate]
  decide

end SpectrumAnalyzer.Host
