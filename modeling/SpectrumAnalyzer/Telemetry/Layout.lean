import SpectrumAnalyzer.Lib.Bytes
import SpectrumAnalyzer.Telemetry.RawPacket

/-!
# The packet layout

The encoder stores fields at offsets, the decoder loads them from offsets, and the two
lists of offsets are written separately.  Both are compared here with one list of bytes,
`layout`, built from a decoded chunk.  `toList_rawSpectrumChunk` says that the encoder
writes the layout of the chunk it means to send; `toList_eq_layout` says that a body
which passes the checks is the layout of the chunk read from it.  Round trip,
injectivity and the description of the accepted bodies all follow from these two.

## Main definitions

* `chunkOf` — the chunk a packet is meant to carry.
* `sourceOf` — a result whose packet carries a given chunk.
* `layout` — the 236 bytes of a chunk.
-/

namespace SpectrumAnalyzer

open Bytes

/-! ## Stores and loads against a list of bytes -/

section Access
variable {n : ℕ} {p : Vector UInt8 n} {k : ℕ} {l : List UInt8}

theorem take_set_of (h : k < n) (hl : p.toList.take k = l) (x : UInt8) :
    (p.set k x).toList.take (k + 1) = l ++ [x] := by
  rw [take_set p h, hl]

theorem take_putU16 (h : k + 2 ≤ n) (hl : p.toList.take k = l) (v : UInt16) :
    (putU16 p k v h).toList.take (k + 2) = l ++ le16 v := by
  rw [putU16]
  rw [take_set _ (by omega), take_set _ (by omega), hl]
  simp [le16]

theorem take_putU32 (h : k + 4 ≤ n) (hl : p.toList.take k = l) (v : UInt32) :
    (putU32 p k v h).toList.take (k + 4) = l ++ le32 v := by
  rw [putU32]
  rw [take_set _ (by omega), take_set _ (by omega), take_set _ (by omega),
    take_set _ (by omega), hl]
  simp [le32]

theorem take_get (h : k < n) {x : UInt8} (hx : p[k] = x) (hl : p.toList.take k = l) :
    p.toList.take (k + 1) = l ++ [x] := by
  rw [take_succ p h, hl, hx]

theorem le16_getU16 (h : k + 2 ≤ n) (h0 : k < n) (h1 : k + 1 < n) :
    le16 (getU16 p k h) = [p[k], p[k + 1]] :=
  le16_ofLE16 _ _

theorem le32_getU32 (h : k + 4 ≤ n) (h0 : k < n) (h1 : k + 1 < n) (h2 : k + 2 < n)
    (h3 : k + 3 < n) :
    le32 (getU32 p k h) = [p[k], p[k + 1], p[k + 2], p[k + 3]] :=
  le32_ofLE32 _ _ _ _

theorem take_getU16 (h : k + 2 ≤ n) {v : UInt16} (hv : getU16 p k h = v)
    (hl : p.toList.take k = l) : p.toList.take (k + 2) = l ++ le16 v := by
  rw [← hv, le16_getU16 h (by omega) (by omega), take_succ p (by omega), take_succ p (by omega), hl]
  simp

theorem take_getU32 (h : k + 4 ≤ n) {v : UInt32} (hv : getU32 p k h = v)
    (hl : p.toList.take k = l) : p.toList.take (k + 4) = l ++ le32 v := by
  rw [← hv, le32_getU32 h (by omega) (by omega) (by omega) (by omega), take_succ p (by omega),
    take_succ p (by omega), take_succ p (by omega), take_succ p (by omega), hl]
  simp

/-! The same three facts read backwards: a known front of the buffer gives the field at
its end and the shorter front before it. -/

theorem get_of_take (h : k < n) {x : UInt8} (hl : p.toList.take (k + 1) = l ++ [x]) :
    p.toList.take k = l ∧ p[k] = x := by
  rw [take_succ p h] at hl
  obtain ⟨hfront, hback⟩ := List.append_inj' hl rfl
  exact ⟨hfront, by simpa using hback⟩

theorem getU16_of_take (h : k + 2 ≤ n) {v : UInt16}
    (hl : p.toList.take (k + 2) = l ++ le16 v) : p.toList.take k = l ∧ getU16 p k h = v := by
  rw [take_getU16 h rfl rfl] at hl
  obtain ⟨hfront, hback⟩ := List.append_inj' hl rfl
  refine ⟨hfront, ?_⟩
  rw [le16_getU16 h (by omega) (by omega)] at hback
  simp only [le16, List.cons.injEq, and_true] at hback
  rw [getU16]
  rw [hback.1, hback.2]
  exact ofLE16_bytes v

theorem getU32_of_take (h : k + 4 ≤ n) {v : UInt32}
    (hl : p.toList.take (k + 4) = l ++ le32 v) : p.toList.take k = l ∧ getU32 p k h = v := by
  rw [take_getU32 h rfl rfl] at hl
  obtain ⟨hfront, hback⟩ := List.append_inj' hl rfl
  refine ⟨hfront, ?_⟩
  rw [le32_getU32 h (by omega) (by omega) (by omega) (by omega)] at hback
  simp only [le32, List.cons.injEq, and_true] at hback
  rw [getU32]
  rw [hback.1, hback.2.1, hback.2.2.1, hback.2.2.2]
  exact ofLE32_bytes v

end Access

/-! ## The bytes of a chunk -/

/-- Offsets 0 to 17: what identifies the packet. -/
def addressLayout (c : SpectrumChunk) : List UInt8 :=
  [] ++ [telemetryProtocolVersion] ++ [telemetryTypeSpectrum] ++
    le16 telemetrySpectrumPayloadLen ++ le16 c.sequence ++ le32 c.timestampUs ++
    le32 c.status ++ [c.channel] ++ [c.chunkIndex] ++ [c.chunkCount] ++ [0]

/-- Offsets 0 to 41: the address and the measurements of the result. -/
def headerLayout (c : SpectrumChunk) : List UInt8 :=
  addressLayout c ++ le32 c.sampleRateHz ++ le16 c.binStart ++ le16 c.binCount ++
    le16 c.rmsQ15 ++ le16 c.peakQ15 ++ le32 c.dominantMillihz ++ le32 c.processingUs ++
    le32 c.droppedBlocks

/-- The samples of the preview as they are sent. -/
def previewBytes (samples : List Int16) : List UInt8 :=
  samples.flatMap fun sample => le16 sample.toUInt16

/-- Everything the CRC covers. -/
def coveredLayout (c : SpectrumChunk) : List UInt8 :=
  headerLayout c ++ c.magnitudeU8.toList ++ previewBytes c.previewQ15.toList

/-- The 236 bytes of the packet of a chunk. -/
def layout (c : SpectrumChunk) : List UInt8 :=
  coveredLayout c ++ le16 (crc16CcittFalse (coveredLayout c))

/-- The chunk a packet is meant to carry. -/
def chunkOf (sequence : UInt16) (result : SpectrumResult) (channel : Fin 2)
    (chunkIndex : Fin 4) : SpectrumChunk where
  sequence := sequence
  timestampUs := result.timestampUs
  status := result.status
  channel := UInt8.ofNat channel
  chunkIndex := UInt8.ofNat chunkIndex
  chunkCount := analyzerChunksPerChannel
  sampleRateHz := result.sampleRateHz
  binStart := UInt16.ofNat (chunkIndex * 128)
  binCount := analyzerBinsPerChunk
  rmsQ15 := (result.channel.get channel).rmsQ15
  peakQ15 := (result.channel.get channel).peakQ15
  dominantMillihz := (result.channel.get channel).dominantMillihz
  processingUs := result.processingUs
  droppedBlocks := result.droppedBlocks
  magnitudeU8 := .ofFn fun i =>
    compressMagnitude (result.channel.get channel).magnitudeQ15[chunkIndex * 128 + i.val]
  previewQ15 := .ofFn fun i => (result.channel.get channel).previewQ15[chunkIndex * 32 + i.val]

/-- A result whose packet carries the chunk `c`: the magnitudes are decompressed to the
middle of their range, and every chunk of the result repeats the same bins. -/
def sourceOf (c : SpectrumChunk) : SpectrumResult where
  timestampUs := c.timestampUs
  generation := 0
  sampleRateHz := c.sampleRateHz
  processingUs := c.processingUs
  droppedBlocks := c.droppedBlocks
  status := c.status
  channel := .replicate 2
    { magnitudeQ15 := .ofFn fun i => c.magnitudeU8[i.val % 128].toUInt16 * 128
      previewQ15 := .ofFn fun i => c.previewQ15[i.val % 32]
      rmsQ15 := c.rmsQ15
      peakQ15 := c.peakQ15
      clippedSamples := 0
      dominantMillihz := c.dominantMillihz }

/-- What the header checks establish about the chunk that is read. -/
structure SpectrumChunk.WellFormed (c : SpectrumChunk) : Prop where
  channel_lt : c.channel.toNat < 2
  chunkIndex_lt : c.chunkIndex.toNat < 4
  chunkCount_eq : c.chunkCount = analyzerChunksPerChannel
  binCount_eq : c.binCount = analyzerBinsPerChunk
  binStart_eq : c.binStart = c.chunkIndex.toUInt16 * analyzerBinsPerChunk

theorem length_previewBytes (samples : List Int16) :
    (previewBytes samples).length = samples.length * 2 := by
  induction samples with
  | nil => rfl
  | cons x xs ih =>
      simp only [previewBytes, List.flatMap_cons, List.length_append, length_le16,
        List.length_cons] at ih ⊢
      omega

theorem previewBytes_injective {xs ys : List Int16} (h : previewBytes xs = previewBytes ys) :
    xs = ys := by
  induction xs generalizing ys with
  | nil =>
      cases ys with
      | nil => rfl
      | cons y ys => simp [previewBytes, le16] at h
  | cons x xs ih =>
      cases ys with
      | nil => simp [previewBytes, le16] at h
      | cons y ys =>
          obtain ⟨hhead, htail⟩ := List.append_inj h rfl
          have hx : x = y := congrArg UInt16.toInt16 (le16_injective hhead)
          rw [hx, ih htail]

theorem length_headerLayout (c : SpectrumChunk) : (headerLayout c).length = 42 := by
  simp [headerLayout, addressLayout]

theorem length_coveredLayout (c : SpectrumChunk) : (coveredLayout c).length = 234 := by
  simp [coveredLayout, length_headerLayout, length_previewBytes]

theorem length_layout (c : SpectrumChunk) : (layout c).length = 236 := by
  simp [layout, length_coveredLayout]

/-! ## Compression of the magnitudes -/

theorem toNat_compressMagnitude (m : UInt16) :
    (compressMagnitude m).toNat = min 255 ((m.toNat + 64) / 128) := by
  have hm := m.toNat_lt
  have hcompressed : ((m.toUInt32 + 64) >>> 7).toUInt16.toNat = (m.toNat + 64) / 128 := by
    simp [Nat.shiftRight_eq_div_pow]
    omega
  simp only [compressMagnitude, gt_iff_lt, UInt16.lt_iff_toNat_lt, hcompressed]
  split
  · next h =>
      have h255 : 255 < (m.toNat + 64) / 128 := h
      simp
      omega
  · next h =>
      have h255 : ¬ 255 < (m.toNat + 64) / 128 := h
      rw [UInt16.toNat_toUInt8, hcompressed]
      omega

/-- Every byte is the compressed form of some magnitude. -/
theorem compressMagnitude_mul (v : UInt8) : compressMagnitude (v.toUInt16 * 128) = v := by
  apply UInt8.toNat_inj.mp
  have hv := v.toNat_lt
  rw [toNat_compressMagnitude]
  simp
  omega

/-! ## The encoder writes the layout -/

section Encoder

variable (sequence : UInt16) (result : SpectrumResult) (channel : Fin 2) (chunkIndex : Fin 4)

theorem take_putHeader (raw : Vector UInt8 236) :
    (putHeader raw sequence result channel chunkIndex).toList.take 42 =
      headerLayout (chunkOf sequence result channel chunkIndex) := by
  simp only [putHeader, headerLayout, addressLayout, chunkOf]
  apply take_putU32
  apply take_putU32
  apply take_putU32
  apply take_putU16
  apply take_putU16
  apply take_putU16
  apply take_putU16
  apply take_putU32
  apply take_set_of
  apply take_set_of
  apply take_set_of
  apply take_set_of
  apply take_putU32
  apply take_putU32
  apply take_putU16
  apply take_putU16
  apply take_set_of
  apply take_set_of
  exact List.take_zero

theorem take_putMagnitudes {raw : Vector UInt8 236} {l : List UInt8}
    (hl : raw.toList.take 42 = l) :
    (putMagnitudes raw (result.channel.get channel) chunkIndex).toList.take 170 =
      l ++ (chunkOf sequence result channel chunkIndex).magnitudeU8.toList := by
  let bytes := (chunkOf sequence result channel chunkIndex).magnitudeU8
  have loop := fold_invariant
    (fun i (raw : Vector UInt8 236) => i ≤ 128 →
      raw.toList.take (42 + i) = l ++ bytes.toList.take i)
    (a := raw) (by intro _; simpa using hl) 128
    (fun i _ raw => raw.set (42 + i)
      (compressMagnitude (result.channel.get channel).magnitudeQ15[chunkIndex * 128 + i]))
    (by
      intro i hi raw ih _
      rw [← Nat.add_assoc, take_set_of (by omega) (ih (by omega)), take_succ bytes hi]
      simp [bytes, chunkOf])
  have h := loop (Nat.le_refl 128)
  rwa [List.take_of_length_le (i := 128) (by simp)] at h

theorem take_putPreview {raw : Vector UInt8 236} {l : List UInt8}
    (hl : raw.toList.take 170 = l) :
    (putPreview raw (result.channel.get channel) chunkIndex).toList.take 234 =
      l ++ previewBytes (chunkOf sequence result channel chunkIndex).previewQ15.toList := by
  let samples := (chunkOf sequence result channel chunkIndex).previewQ15
  have loop := fold_invariant
    (fun i (raw : Vector UInt8 236) => i ≤ 32 →
      raw.toList.take (170 + i * 2) = l ++ previewBytes (samples.toList.take i))
    (a := raw) (by intro _; simpa [previewBytes] using hl) 32
    (fun i hi raw => putU16 raw (170 + i * 2)
      (result.channel.get channel).previewQ15[chunkIndex * 32 + i].toUInt16 (by omega))
    (by
      intro i hi raw ih _
      have hnext : 170 + (i + 1) * 2 = 170 + i * 2 + 2 := by ring
      have hget : samples.toList.take (i + 1) = samples.toList.take i ++ [samples[i]] := by
        rw [List.take_add_one]
        simp [hi]
      rw [hnext, take_putU16 (by omega) (ih (by omega)), hget]
      simp [samples, chunkOf, previewBytes])
  have h := loop (Nat.le_refl 32)
  rwa [List.take_of_length_le (i := 32) (by simp)] at h

/-- **The encoder writes the layout** of the chunk it means to send. -/
theorem toList_rawSpectrumChunk :
    (rawSpectrumChunk sequence result channel chunkIndex).toList =
      layout (chunkOf sequence result channel chunkIndex) := by
  have hcovered := take_putPreview sequence result channel chunkIndex
    (take_putMagnitudes sequence result channel chunkIndex
      (take_putHeader sequence result channel chunkIndex (.replicate 236 0)))
  unfold rawSpectrumChunk
  have h := take_putU16 (n := 236) (k := 234) (by decide) hcovered
    (crc16CcittFalse (coveredLayout (chunkOf sequence result channel chunkIndex)))
  simp only
  rw [hcovered]
  rw [List.take_of_length_le (by simp)] at h
  exact h

theorem wellFormed_chunkOf : (chunkOf sequence result channel chunkIndex).WellFormed := by
  have hch := channel.isLt
  have hci := chunkIndex.isLt
  refine ⟨?_, ?_, rfl, rfl, ?_⟩
  · simp [chunkOf]
    omega
  · simp [chunkOf]
    omega
  · apply UInt16.toNat_inj.mp
    simp [chunkOf, analyzerBinsPerChunk]
    omega

end Encoder

/-- Every well-formed chunk is carried by some packet. -/
theorem chunkOf_sourceOf {c : SpectrumChunk} (hc : c.WellFormed) :
    chunkOf c.sequence (sourceOf c) ⟨c.channel.toNat, hc.channel_lt⟩
      ⟨c.chunkIndex.toNat, hc.chunkIndex_lt⟩ = c := by
  have hstart : UInt16.ofNat (c.chunkIndex.toNat * 128) = c.binStart := by
    rw [hc.binStart_eq]
    apply UInt16.toNat_inj.mp
    have := hc.chunkIndex_lt
    simp [analyzerBinsPerChunk]
  have hmag : (Vector.ofFn fun i : Fin 128 =>
      compressMagnitude (c.magnitudeU8[i.val % 128].toUInt16 * 128)) = c.magnitudeU8 := by
    ext i hi
    simp [compressMagnitude_mul, Nat.mod_eq_of_lt hi]
  have hprev : (Vector.ofFn fun i : Fin 32 => c.previewQ15[i.val % 32]) = c.previewQ15 := by
    ext i hi
    simp [Nat.mod_eq_of_lt hi]
  have hget : ∀ (x : ChannelSpectrum) (i : Fin 2), (Vector.replicate 2 x).get i = x := by
    intro x i
    simp [Vector.get]
  have hcount := hc.chunkCount_eq
  have hbins := hc.binCount_eq
  cases c
  simp only at hmag hprev hstart hcount hbins
  simp [chunkOf, sourceOf, hget, hmag, hprev, hstart, hcount, hbins]

/-! ## The decoder reads the layout -/

section Decoder

variable {body : Vector UInt8 236} {c : SpectrumChunk}

/-- A body that passes the header checks carries a well-formed chunk. -/
theorem wellFormed_readChunk (h : headerValid body) : (readChunk body).WellFormed := by
  simp only [headerValid, not_or, ne_eq, not_not, ge_iff_le, UInt8.not_le] at h
  obtain ⟨-, -, -, hchannel, hindex, hcount, -, hbins, hstart⟩ := h
  exact ⟨UInt8.lt_iff_toNat_lt.mp hchannel, UInt8.lt_iff_toNat_lt.mp hindex, hcount, hbins, hstart⟩

theorem take_header (h : headerValid body) :
    body.toList.take 42 = headerLayout (readChunk body) := by
  simp only [headerValid, not_or, ne_eq, not_not] at h
  obtain ⟨hversion, htype, hlength, -, -, -, hreserved, -, -⟩ := h
  simp only [headerLayout, addressLayout, readChunk]
  apply take_getU32 (by decide) rfl
  apply take_getU32 (by decide) rfl
  apply take_getU32 (by decide) rfl
  apply take_getU16 (by decide) rfl
  apply take_getU16 (by decide) rfl
  apply take_getU16 (by decide) rfl
  apply take_getU16 (by decide) rfl
  apply take_getU32 (by decide) rfl
  apply take_get (by decide) hreserved
  apply take_get (by decide) rfl
  apply take_get (by decide) rfl
  apply take_get (by decide) rfl
  apply take_getU32 (by decide) rfl
  apply take_getU32 (by decide) rfl
  apply take_getU16 (by decide) rfl
  apply take_getU16 (by decide) hlength
  apply take_get (by decide) htype
  apply take_get (by decide) hversion
  exact List.take_zero

theorem take_magnitudes :
    body.toList.take 170 = body.toList.take 42 ++ (readChunk body).magnitudeU8.toList := by
  have loop : ∀ i ≤ 128, body.toList.take (42 + i) =
      body.toList.take 42 ++ (readChunk body).magnitudeU8.toList.take i := by
    intro i
    induction i with
    | zero => intro _; simp
    | succ i ih =>
        intro hi
        rw [← Nat.add_assoc, take_get (by omega) rfl (ih (by omega)),
          take_succ (readChunk body).magnitudeU8 (by omega)]
        simp [readChunk]
  have h := loop 128 (Nat.le_refl 128)
  rwa [List.take_of_length_le (i := 128) (by simp)] at h

theorem take_preview :
    body.toList.take 234 =
      body.toList.take 170 ++ previewBytes (readChunk body).previewQ15.toList := by
  let samples := (readChunk body).previewQ15
  have loop : ∀ i ≤ 32, body.toList.take (170 + i * 2) =
      body.toList.take 170 ++ previewBytes (samples.toList.take i) := by
    intro i
    induction i with
    | zero => intro _; simp [previewBytes]
    | succ i ih =>
        intro hi
        have hnext : 170 + (i + 1) * 2 = 170 + i * 2 + 2 := by ring
        have hget : samples.toList.take (i + 1) = samples.toList.take i ++ [samples[i]] := by
          rw [List.take_add_one]
          simp [show i < 32 by omega]
        rw [hnext, take_getU16 (by omega) rfl (ih (by omega)), hget]
        simp [samples, readChunk, previewBytes]
  have h := loop 32 (Nat.le_refl 32)
  rwa [List.take_of_length_le (i := 32) (by simp)] at h

theorem take_covered (h : headerValid body) :
    body.toList.take 234 = coveredLayout (readChunk body) := by
  rw [take_preview, take_magnitudes, take_header h, coveredLayout]

/-- **An accepted body is the layout of the chunk read from it.** -/
theorem toList_eq_layout (h : headerValid body)
    (hcrc : crc16CcittFalse (body.toList.take 234) = getU16 body 234) :
    body.toList = layout (readChunk body) := by
  have htake := take_getU16 (n := 236) (k := 234) (by decide) hcrc.symm (take_covered h)
  rw [List.take_of_length_le (by simp), take_covered h] at htake
  exact htake

/-- A body that is a layout reads back as the chunk it lays out. -/
theorem read_of_layout (hc : c.WellFormed) (hl : body.toList = layout c) :
    headerValid body ∧ readChunk body = c ∧
      crc16CcittFalse (body.toList.take 234) = getU16 body 234 := by
  have h236 : body.toList.take 236 = layout c := by
    rw [List.take_of_length_le (by simp), hl]
  obtain ⟨h234, hcrc⟩ := getU16_of_take (by decide) h236
  have hpreview := @take_preview body
  rw [h234, coveredLayout] at hpreview
  obtain ⟨h170, hpreview⟩ := List.append_inj' hpreview (by simp [length_previewBytes])
  have hmagnitude := @take_magnitudes body
  rw [← h170] at hmagnitude
  obtain ⟨h42, hmagnitude⟩ := List.append_inj' hmagnitude (by simp)
  have h42 := h42.symm
  -- the header, from its last field back to its first
  rw [headerLayout] at h42
  obtain ⟨h38, hdropped⟩ := getU32_of_take (by decide) h42
  obtain ⟨h34, hprocessing⟩ := getU32_of_take (by decide) h38
  obtain ⟨h30, hdominant⟩ := getU32_of_take (by decide) h34
  obtain ⟨h28, hpeak⟩ := getU16_of_take (by decide) h30
  obtain ⟨h26, hrms⟩ := getU16_of_take (by decide) h28
  obtain ⟨h24, hbins⟩ := getU16_of_take (by decide) h26
  obtain ⟨h22, hstart⟩ := getU16_of_take (by decide) h24
  obtain ⟨h18, hrate⟩ := getU32_of_take (by decide) h22
  rw [addressLayout] at h18
  obtain ⟨h17, hreserved⟩ := get_of_take (by decide) h18
  obtain ⟨h16, hcount⟩ := get_of_take (by decide) h17
  obtain ⟨h15, hindex⟩ := get_of_take (by decide) h16
  obtain ⟨h14, hchannel⟩ := get_of_take (by decide) h15
  obtain ⟨h10, hstatus⟩ := getU32_of_take (by decide) h14
  obtain ⟨h6, htimestamp⟩ := getU32_of_take (by decide) h10
  obtain ⟨h4, hsequence⟩ := getU16_of_take (by decide) h6
  obtain ⟨h2, hlength⟩ := getU16_of_take (by decide) h4
  obtain ⟨h1, htype⟩ := get_of_take (by decide) h2
  obtain ⟨-, hversion⟩ := get_of_take (by decide) h1
  refine ⟨?_, ?_, ?_⟩
  · simp only [headerValid, not_or, ne_eq, not_not, ge_iff_le, UInt8.not_le]
    refine ⟨hversion, htype, hlength, ?_, ?_, ?_, hreserved, ?_, ?_⟩
    · rw [hchannel]; exact UInt8.lt_iff_toNat_lt.mpr hc.channel_lt
    · rw [hindex]; exact UInt8.lt_iff_toNat_lt.mpr hc.chunkIndex_lt
    · rw [hcount]; exact hc.chunkCount_eq
    · rw [hbins]; exact hc.binCount_eq
    · rw [hstart, hindex]; exact hc.binStart_eq
  · have hm : (readChunk body).magnitudeU8 = c.magnitudeU8 := Vector.toList_inj.mp hmagnitude.symm
    have hp : (readChunk body).previewQ15 = c.previewQ15 :=
      Vector.toList_inj.mp (previewBytes_injective hpreview.symm)
    cases c
    simp only [readChunk, SpectrumChunk.mk.injEq] at hm hp ⊢
    exact ⟨hsequence, htimestamp, hstatus, hchannel, hindex, hcount, hrate, hstart, hbins, hrms,
      hpeak, hdominant, hprocessing, hdropped, hm, hp⟩
  · rw [hcrc, h234]

/-- **The accepted bodies** are the layouts of the well-formed chunks. -/
theorem decodeBody_eq_ok_iff {length : ℕ} :
    decodeBody body length = .ok c ↔ length = 236 ∧ c.WellFormed ∧ body.toList = layout c := by
  constructor
  · intro h
    rw [decodeBody] at h
    split at h
    · cases h
    · next hlength =>
        split at h
        · cases h
        · next hcrc =>
            split at h
            · next hheader =>
                cases h
                exact ⟨not_not.mp hlength, wellFormed_readChunk hheader,
                  toList_eq_layout hheader (not_not.mp hcrc)⟩
            · cases h
  · rintro ⟨rfl, hc, hl⟩
    obtain ⟨hheader, hread, hcrc⟩ := read_of_layout hc hl
    simp [decodeBody, hheader, hread, hcrc]

/-- The raw packet is accepted as the chunk it carries. -/
theorem decodeBody_rawSpectrumChunk (sequence : UInt16) (result : SpectrumResult)
    (channel : Fin 2) (chunkIndex : Fin 4) :
    decodeBody (rawSpectrumChunk sequence result channel chunkIndex) 236 =
      .ok (chunkOf sequence result channel chunkIndex) :=
  decodeBody_eq_ok_iff.mpr ⟨rfl, wellFormed_chunkOf sequence result channel chunkIndex,
    toList_rawSpectrumChunk sequence result channel chunkIndex⟩

end Decoder

end SpectrumAnalyzer
