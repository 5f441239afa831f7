import SpectrumAnalyzer.Firmware.Undisturbed

/-!
# Who owns a half-buffer

`dsp_task` accepts a block when the completed generation equals the generation of the
block before and after it has read the samples.  Unless the generation counter went all
the way round in between, no fill was completed between the two checks, so DMA was busy
with the other half throughout, and both passes have read the words of one fill.

The invariant has three parts.  `Adc.Filled` says what is in the buffer.  `Adc.Paired`
says that a descriptor points to the half that its generation was stored in, wherever the
descriptor is on its way from the interrupt to the DSP task.  `Reading` says what the
words read so far are, as long as no fill has been completed since the first check.

## Main definitions

* `Adc.Filled`, `Adc.Paired`, `Reading` — the parts of the invariant.
* `Owned` — the invariant.
* `accepts_one_fill` — an accepted block holds one fill.
-/

namespace SpectrumAnalyzer

/-- The half of a fill depends on its number modulo `2 ^ 32` only. -/
theorem halfOf_toNat_ofNat (n : ℕ) : halfOf (UInt32.ofNat n).toNat = halfOf n := by
  rw [UInt32.toNat_ofNat', halfOf, halfOf]
  omega

theorem halfOf_lt (n : ℕ) : halfOf n < 2 := Nat.mod_lt _ (by decide)

theorem halfOf_succ_ne (n : ℕ) : halfOf (n + 1) ≠ halfOf n := by
  rw [halfOf, halfOf]
  omega

namespace Adc

/-- The last completed fill is in its half, and the fill in progress up to `position`;
half and generation are published together. -/
structure Filled (env : Environment) (a : Adc) : Prop where
  position_le : a.position ≤ 1024
  last : 1 ≤ a.completed → ∀ i < 1024,
    a.words (halfOf a.completed * 1024 + i) = env.conversion a.completed i
  next : ∀ i < a.position,
    a.words (halfOf (a.completed + 1) * 1024 + i) = env.conversion (a.completed + 1) i
  generation : a.completedGeneration = UInt32.ofNat a.completed
  half : 1 ≤ a.completed → a.completedHalf.toNat = halfOf a.completed

variable {env : Environment} {a : Adc}

theorem Filled.store (h : a.Filled env) (hroom : a.position < 1024) :
    (a.store (env.conversion (a.completed + 1) a.position)).Filled env where
  position_le := hroom
  last := by
    intro hc i hi
    have hne := halfOf_succ_ne a.completed
    have h1 := halfOf_lt a.completed
    have h2 := halfOf_lt (a.completed + 1)
    rw [completed_store, words_store, if_neg (by omega)]
    exact h.last hc i hi
  next := by
    intro i hi
    rw [position_store] at hi
    rw [completed_store, words_store]
    by_cases hlast : i = a.position
    · rw [if_pos (by rw [hlast]), hlast]
    · rw [if_neg (by omega)]
      exact h.next i (by omega)
  generation := h.generation
  half := h.half

theorem Filled.publish (h : a.Filled env) (hfull : a.position = 1024) :
    (a.publishCompletedHalf (UInt32.ofNat (halfOf (a.completed + 1)))).Filled env where
  position_le := Nat.zero_le _
  last := fun _ i hi => h.next i (hfull ▸ hi)
  next := fun i hi => absurd hi (Nat.not_lt_zero i)
  generation := by
    change a.completedGeneration + 1 = UInt32.ofNat (a.completed + 1)
    rw [h.generation, UInt32.ofNat_add]
    rfl
  half := by
    intro _
    have hlt := halfOf_lt (a.completed + 1)
    change (UInt32.ofNat (halfOf (a.completed + 1))).toNat = halfOf (a.completed + 1)
    rw [UInt32.toNat_ofNat']
    omega

/-- A descriptor of a completed fill, with the half that belongs to its generation. -/
structure Paired (a : Adc) (b : AdcDmaBlock) : Prop where
  half : b.packedSamples = halfOf b.generation.toNat * 1024
  frames : b.frames = 1024
  generation : ∃ n, 1 ≤ n ∧ n ≤ a.completed ∧ b.generation = UInt32.ofNat n

/-- The critical section pairs half and generation. -/
theorem Filled.paired (h : a.Filled env) (hc : 1 ≤ a.completed) (now : UInt32) :
    a.Paired (a.block now) where
  half := by
    change a.completedHalf.toNat * 1024 = halfOf a.completedGeneration.toNat * 1024
    rw [h.half hc, h.generation, halfOf_toNat_ofNat]
  frames := rfl
  generation := ⟨a.completed, hc, le_rfl, h.generation⟩

theorem Paired.mono {a' : Adc} {b : AdcDmaBlock} (h : a.Paired b)
    (hle : a.completed ≤ a'.completed) : a'.Paired b := by
  obtain ⟨n, h1, hn, hgen⟩ := h.generation
  exact ⟨h.half, h.frames, n, h1, hn.trans hle, hgen⟩

/-- The next word of the last completed fill. -/
theorem Filled.read (h : a.Filled env) (hc : 1 ≤ a.completed) {b : AdcDmaBlock}
    (hb : a.Paired b) (hgen : b.generation = a.completedGeneration) {reads : List UInt32}
    (hlen : reads.length < 1024)
    (hreads : reads = (List.range reads.length).map (env.conversion a.completed)) :
    a.read b reads =
      (List.range (a.read b reads).length).map (env.conversion a.completed) := by
  have hword : a.words (b.packedSamples + reads.length) =
      env.conversion a.completed reads.length := by
    rw [hb.half, hgen, h.generation, halfOf_toNat_ofNat]
    exact h.last hc _ hlen
  rw [length_read, List.range_succ, List.map_append, ← hreads, List.map_singleton, ← hword]
  rfl

end Adc

/-! ## The invariant -/

/-- The block that `acquisition_task` holds. -/
def AcquisitionPc.block? : AcquisitionPc → Option AdcDmaBlock
  | .acquired block => some block
  | .checked block => some block
  | .flagging block => some block
  | .sending block => some block
  | .dropping block => some block
  | _ => none

/-- `acquisition_task` has taken a notification and not yet read the generation. -/
def AcquisitionPc.Notified : AcquisitionPc → Prop
  | .taken _ => True
  | .loaded _ _ => True
  | .counted => True
  | _ => False

/-- The block that `dsp_task` is at work on. -/
def DspPc.block? : DspPc → Option AdcDmaBlock
  | .received block => some block
  | .firstPass block _ _ => some block
  | .secondPass block _ _ _ => some block
  | .unpacked block _ _ _ => some block
  | _ => none

/-- The words of fill `n`. -/
def Environment.fill (env : Environment) (n : ℕ) : List UInt32 :=
  (List.range 1024).map (env.conversion n)

/-- The first check of the generation passed when `since` fills were completed. -/
structure Began (a : Adc) (block : AdcDmaBlock) (since : ℕ) : Prop where
  pos : 1 ≤ since
  le : since ≤ a.completed
  generation : block.generation = UInt32.ofNat since

/-- What `dsp_task` has read, as long as no fill was completed since the first check. -/
def Reading (env : Environment) (a : Adc) : DspPc → Prop
  | .firstPass block since reads =>
      Began a block since ∧ reads.length < 1024 ∧
        (a.completed = since → reads = (List.range reads.length).map (env.conversion since))
  | .secondPass block since first reads =>
      Began a block since ∧ reads.length < 1024 ∧
        (a.completed = since → first = env.fill since ∧
          reads = (List.range reads.length).map (env.conversion since))
  | .unpacked block since first second =>
      Began a block since ∧
        (a.completed = since → first = env.fill since ∧ second = env.fill since)
  | _ => True

/-- The invariant. -/
structure Owned (env : Environment) (s : Firmware) : Prop where
  filled : s.adc.Filled env
  notified : s.adcNotifications ≠ 0 → 1 ≤ s.adc.completed
  taken : s.acquisition.Notified → 1 ≤ s.adc.completed
  acquisition : ∀ b, s.acquisition.block? = some b → s.adc.Paired b
  queue : ∀ b ∈ s.blockQueue, s.adc.Paired b
  dsp : ∀ b, s.dsp.block? = some b → s.adc.Paired b
  reading : Reading env s.adc s.dsp

theorem Began.mono {a a' : Adc} {block : AdcDmaBlock} {since : ℕ} (h : Began a block since)
    (hle : a.completed ≤ a'.completed) : Began a' block since :=
  ⟨h.pos, h.le.trans hle, h.generation⟩

/-- Storing a word changes nothing that was read. -/
theorem Reading.of_completed {env : Environment} {a a' : Adc} (heq : a'.completed = a.completed)
    {pc : DspPc} (h : Reading env a pc) : Reading env a' pc := by
  cases pc with
  | firstPass block since reads => exact ⟨h.1.mono heq.ge, h.2.1, fun hs => h.2.2 (heq ▸ hs)⟩
  | secondPass block since first reads =>
      exact ⟨h.1.mono heq.ge, h.2.1, fun hs => h.2.2 (heq ▸ hs)⟩
  | unpacked block since first second => exact ⟨h.1.mono heq.ge, fun hs => h.2 (heq ▸ hs)⟩
  | _ => exact trivial

/-- A completion ends what is known of the words read. -/
theorem Reading.of_lt {env : Environment} {a a' : Adc} (hlt : a.completed < a'.completed)
    {pc : DspPc} (h : Reading env a pc) : Reading env a' pc := by
  cases pc with
  | firstPass block since reads =>
      exact ⟨h.1.mono hlt.le, h.2.1, fun hs => absurd h.1.le (by omega)⟩
  | secondPass block since first reads =>
      exact ⟨h.1.mono hlt.le, h.2.1, fun hs => absurd h.1.le (by omega)⟩
  | unpacked block since first second =>
      exact ⟨h.1.mono hlt.le, fun hs => absurd h.1.le (by omega)⟩
  | _ => exact trivial

namespace Firmware

variable {env : Environment} {s s' : Firmware}

theorem owned_init : Owned env (init env) where
  filled := ⟨Nat.zero_le _, nofun, fun i hi => absurd hi (Nat.not_lt_zero i), rfl, nofun⟩
  notified := fun h => absurd rfl h
  taken := nofun
  acquisition := nofun
  queue := nofun
  dsp := nofun
  reading := trivial

theorem owned_store (h : Owned env s) (hroom : s.adc.position < 1024) :
    Owned env { s with
      adc := s.adc.store (env.conversion (s.adc.completed + 1) s.adc.position) } where
  filled := h.filled.store hroom
  notified := h.notified
  taken := h.taken
  acquisition := fun b hb => (h.acquisition b hb).mono le_rfl
  queue := fun b hb => (h.queue b hb).mono le_rfl
  dsp := fun b hb => (h.dsp b hb).mono le_rfl
  reading := h.reading.of_completed (Adc.completed_store _ _)

theorem owned_callback (h : Owned env s) (hfull : s.adc.position = 1024) :
    Owned env { s with
      adc := s.adc.publishCompletedHalf (UInt32.ofNat (halfOf (s.adc.completed + 1)))
      adcNotifications := s.adcNotifications + 1 } where
  filled := h.filled.publish hfull
  notified := fun _ => Nat.succ_pos _
  taken := fun _ => Nat.succ_pos _
  acquisition := fun b hb => (h.acquisition b hb).mono (Nat.le_succ _)
  queue := fun b hb => (h.queue b hb).mono (Nat.le_succ _)
  dsp := fun b hb => (h.dsp b hb).mono (Nat.le_succ _)
  reading := h.reading.of_lt (Nat.lt_succ_self _)

theorem owned_acquisition {now : UInt32} (h : Owned env s) (hstep : AcquisitionStep now s s') :
    Owned env s' := by
  have hholds : ∀ {b}, s.acquisition.block? = some b →
      ∀ b', some b = some b' → s.adc.Paired b' := by
    rintro b hb b' ⟨⟩
    exact h.acquisition b hb
  cases hstep with
  | timeout hpc => exact ⟨h.filled, h.notified, nofun, nofun, h.queue, h.dsp, h.reading⟩
  | take hpc hn =>
      exact ⟨h.filled, fun h0 => absurd rfl h0, fun _ => h.notified hn, nofun, h.queue, h.dsp,
        h.reading⟩
  | load hpc =>
      exact ⟨h.filled, h.notified, fun _ => h.taken (hpc ▸ trivial), nofun, h.queue, h.dsp,
        h.reading⟩
  | single hpc =>
      exact ⟨h.filled, h.notified, fun _ => h.taken (hpc ▸ trivial), nofun, h.queue, h.dsp,
        h.reading⟩
  | store hpc =>
      exact ⟨h.filled, h.notified, fun _ => h.taken (hpc ▸ trivial), nofun, h.queue, h.dsp,
        h.reading⟩
  | snapshot hpc =>
      have hpaired := h.filled.paired (h.taken (hpc ▸ trivial)) now
      refine ⟨h.filled, h.notified, nofun, ?_, h.queue, h.dsp, h.reading⟩
      rintro b ⟨⟩
      exact hpaired
  | check hpc =>
      exact ⟨h.filled, h.notified, nofun, hholds (hpc ▸ rfl), h.queue, h.dsp, h.reading⟩
  | overrun hpc =>
      exact ⟨h.filled, h.notified, nofun, hholds (hpc ▸ rfl), h.queue, h.dsp, h.reading⟩
  | noOverrun hpc =>
      exact ⟨h.filled, h.notified, nofun, hholds (hpc ▸ rfl), h.queue, h.dsp, h.reading⟩
  | flag hpc =>
      exact ⟨h.filled, h.notified, nofun, hholds (hpc ▸ rfl), h.queue, h.dsp, h.reading⟩
  | @send block hpc =>
      refine ⟨h.filled, h.notified, nofun, nofun, ?_, h.dsp, h.reading⟩
      intro b hb
      rcases List.mem_append.mp hb with hb | hb
      · exact h.queue b hb
      · rw [List.mem_singleton.mp hb]
        exact h.acquisition block (hpc ▸ rfl)
  | full hpc =>
      exact ⟨h.filled, h.notified, nofun, hholds (hpc ▸ rfl), h.queue, h.dsp, h.reading⟩
  | drop hpc => exact ⟨h.filled, h.notified, nofun, nofun, h.queue, h.dsp, h.reading⟩
  | kick hpc => exact ⟨h.filled, h.notified, nofun, nofun, h.queue, h.dsp, h.reading⟩
  | resume hpc => exact ⟨h.filled, h.notified, nofun, nofun, h.queue, h.dsp, h.reading⟩

/-- One more word of the fill that was complete at the first check. -/
theorem read_began (h : Owned env s) {block : AdcDmaBlock} {since : ℕ} {reads : List UInt32}
    (hb : s.adc.Paired block) (hbegan : Began s.adc block since) (hlen : reads.length < 1024)
    (hsince : s.adc.completed = since)
    (hreads : reads = (List.range reads.length).map (env.conversion since)) :
    s.adc.read block reads =
      (List.range (reads.length + 1)).map (env.conversion since) := by
  subst hsince
  have hgen : block.generation = s.adc.completedGeneration :=
    hbegan.generation.trans h.filled.generation.symm
  rw [h.filled.read hbegan.pos hb hgen hlen hreads, Adc.length_read]

theorem owned_dsp (h : Owned env s) (hstep : DspStep s s') : Owned env s' := by
  have hreading : ∀ {pc}, s.dsp = pc → Reading env s.adc pc := fun hpc => hpc ▸ h.reading
  have hholds : ∀ {b}, s.dsp.block? = some b → ∀ b', some b = some b' → s.adc.Paired b' := by
    rintro b hb b' ⟨⟩
    exact h.dsp b hb
  cases hstep with
  | idle hpc => exact h
  | @receive block rest hpc hqueue =>
      have hmem : ∀ b ∈ block :: rest, s.adc.Paired b := hqueue ▸ h.queue
      refine ⟨h.filled, h.notified, h.taken, h.acquisition,
        fun b hb => hmem b (List.mem_cons_of_mem _ hb), ?_, trivial⟩
      rintro b ⟨⟩
      exact hmem block List.mem_cons_self
  | @begin block hpc hgen =>
      obtain ⟨n, hn, hle, -⟩ := (h.dsp block (hpc ▸ rfl)).generation
      exact ⟨h.filled, h.notified, h.taken, h.acquisition, h.queue, hholds (hpc ▸ rfl),
        ⟨hn.trans hle, le_rfl, hgen.symm.trans h.filled.generation⟩, by decide, fun _ => rfl⟩
  | @readFirst block since reads hpc hroom =>
      obtain ⟨hbegan, hlen, hreads⟩ := hreading hpc
      refine ⟨h.filled, h.notified, h.taken, h.acquisition, h.queue, hholds (hpc ▸ rfl), hbegan,
        by rwa [Adc.length_read], ?_⟩
      intro hsince
      rw [Adc.length_read]
      exact read_began h (h.dsp block (hpc ▸ rfl)) hbegan hlen hsince (hreads hsince)
  | @lastFirst block since reads hpc hlast =>
      obtain ⟨hbegan, hlen, hreads⟩ := hreading hpc
      refine ⟨h.filled, h.notified, h.taken, h.acquisition, h.queue, hholds (hpc ▸ rfl), hbegan,
        by decide, fun hsince => ⟨?_, rfl⟩⟩
      have hfull : reads.length + 1 = 1024 := by omega
      rw [read_began h (h.dsp block (hpc ▸ rfl)) hbegan hlen hsince (hreads hsince), hfull]
      rfl
  | @readSecond block since first reads hpc hroom =>
      obtain ⟨hbegan, hlen, hreads⟩ := hreading hpc
      refine ⟨h.filled, h.notified, h.taken, h.acquisition, h.queue, hholds (hpc ▸ rfl), hbegan,
        by rwa [Adc.length_read], fun hsince => ⟨(hreads hsince).1, ?_⟩⟩
      rw [Adc.length_read]
      exact read_began h (h.dsp block (hpc ▸ rfl)) hbegan hlen hsince (hreads hsince).2
  | @lastSecond block since first reads hpc hlast =>
      obtain ⟨hbegan, hlen, hreads⟩ := hreading hpc
      refine ⟨h.filled, h.notified, h.taken, h.acquisition, h.queue, hholds (hpc ▸ rfl), hbegan,
        fun hsince => ⟨(hreads hsince).1, ?_⟩⟩
      have hfull : reads.length + 1 = 1024 := by omega
      rw [read_began h (h.dsp block (hpc ▸ rfl)) hbegan hlen hsince (hreads hsince).2, hfull]
      rfl
  | accept => exact ⟨h.filled, h.notified, h.taken, h.acquisition, h.queue, nofun, trivial⟩
  | reject => exact ⟨h.filled, h.notified, h.taken, h.acquisition, h.queue, nofun, trivial⟩
  | analyze => exact ⟨h.filled, h.notified, h.taken, h.acquisition, h.queue, nofun, trivial⟩
  | complete => exact ⟨h.filled, h.notified, h.taken, h.acquisition, h.queue, nofun, trivial⟩
  | publish => exact ⟨h.filled, h.notified, h.taken, h.acquisition, h.queue, nofun, trivial⟩
  | flagStale => exact ⟨h.filled, h.notified, h.taken, h.acquisition, h.queue, nofun, trivial⟩
  | kick => exact ⟨h.filled, h.notified, h.taken, h.acquisition, h.queue, nofun, trivial⟩

theorem owned_bystander (h : Owned env s) (hstep : Bystander s s') : Owned env s' where
  filled := hstep.adc ▸ h.filled
  notified := by
    rw [hstep.adcNotifications, hstep.adc]
    exact h.notified
  taken := by
    rw [hstep.acquisition, hstep.adc]
    exact h.taken
  acquisition := by
    rw [hstep.acquisition, hstep.adc]
    exact h.acquisition
  queue := by
    rw [hstep.blockQueue, hstep.adc]
    exact h.queue
  dsp := by
    rw [hstep.dsp, hstep.adc]
    exact h.dsp
  reading := by
    rw [hstep.dsp, hstep.adc]
    exact h.reading

/-- Every step keeps the invariant. -/
theorem owned_step (h : Owned env s) (hstep : Step env s s') : Owned env s' := by
  cases hstep with
  | store hroom => exact owned_store h hroom
  | callback hfull => exact owned_callback h hfull
  | acquisition hstep => exact owned_acquisition h hstep
  | dsp hstep => exact owned_dsp h hstep
  | bystander hstep => exact owned_bystander h hstep

theorem Reachable.owned (hs : Reachable env s) : Owned env s :=
  hs.induction owned_init fun _ _ => owned_step

/-! ## Acceptance -/

/-- **An accepted block holds one fill.**  When `dsp_task` accepts a block and fewer than
`2 ^ 32` fills were completed since its first check, every word of both passes is the word
that DMA stored for the fill whose number is the generation of the block. -/
theorem accepts_one_fill {a : Action} {block : AdcDmaBlock} {since : ℕ}
    {first second : List UInt32} (hs : Reachable env s) (hstep : step env s a = some s')
    (haccept : s'.log = s.log ++ [.accepted block since first second])
    (hfew : s.adc.completed < since + 2 ^ 32) :
    block.generation = UInt32.ofNat s.adc.completed ∧
      first = (List.range 1024).map (env.conversion s.adc.completed) ∧
      second = (List.range 1024).map (env.conversion s.adc.completed) := by
  -- only the second check of the generation logs an acceptance
  obtain ⟨hpc, hgen⟩ : s.dsp = .unpacked block since first second ∧
      s.adc.completedGeneration = block.generation := by
    cases logged_of_step (step_cases hstep) haccept id with
    | accepted hpc hgen => exact ⟨hpc, hgen⟩
  have howned := hs.owned
  have hreading : Reading env s.adc (.unpacked block since first second) := hpc ▸ howned.reading
  obtain ⟨hbegan, hwords⟩ := hreading
  have hnow := howned.filled.generation
  -- the counter shows the same value, so it has not moved
  have hmod : s.adc.completed % 2 ^ 32 = since % 2 ^ 32 := by
    have := congrArg UInt32.toNat (hnow.symm.trans (hgen.trans hbegan.generation))
    rwa [UInt32.toNat_ofNat', UInt32.toNat_ofNat'] at this
  have hsince : s.adc.completed = since := by
    have := hbegan.le
    omega
  obtain ⟨hfirst, hsecond⟩ := hwords hsince
  rw [hsince]
  exact ⟨hbegan.generation, hfirst, hsecond⟩

/-- Conversions that are all zero. -/
def silence : Environment := ⟨fun _ _ => 0, fun _ _ => (true, .zero), 180000000, false, false⟩

/-- Conversions that tell the fills and the places apart. -/
def counting : Environment := { silence with conversion := fun n i => UInt32.ofNat (1024 * n + i) }

/-- The first block is accepted. -/
theorem accepts_one_fill_counting :
    ∃ s s' block since first second, Reachable counting s ∧
      step counting s (.dsp 0) = some s' ∧
      s'.log = s.log ++ [.accepted block since first second] ∧
      s.adc.completed < since + 2 ^ 32 ∧
      block.generation = UInt32.ofNat s.adc.completed ∧
      first = (List.range 1024).map (counting.conversion s.adc.completed) ∧
      second = (List.range 1024).map (counting.conversion s.adc.completed) := by
  obtain ⟨actions, t, block, hdelivery, ht⟩ := run_delivery counting (ready_init counting) rfl
  obtain ⟨first, second, hunpack, haccept⟩ := accepts_undisturbed counting ht.dsp ht.current
  have hreach : Reachable counting
      { t with dsp := .unpacked block t.adc.completed first second } :=
    (Reachable.run ⟨[], rfl⟩ hdelivery).run hunpack
  have hfew : t.adc.completed < t.adc.completed + 2 ^ 32 := by omega
  exact ⟨_, _, block, t.adc.completed, first, second, hreach, haccept, rfl, hfew,
    accepts_one_fill hreach haccept rfl hfew⟩

end Firmware

end SpectrumAnalyzer
