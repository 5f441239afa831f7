import SpectrumAnalyzer.Host.EndToEnd

/-!
# The test frames of the host tool

`spectrum_monitor.py` has an encoder of its own, `make_test_frame`, with which its self-test
and its tests feed the decoder.  It packs the fields with `struct`, over unbounded integers
and with its own escaping.  Byte for byte it writes what the firmware would, for every
sequence number, channel, chunk and time stamp that fits.

## Main definitions

* `pack`, `escape`, `makeTestFrame` — the encoder.
* `testResult` — the result whose chunks the test frames carry.
* `makeTestFrame_eq` — the two encoders write the same.
* `makeTestFrame_eq_none_iff` — the arguments that do not fit.
* `test_frames_assemble` — four test frames at the host.
-/

namespace SpectrumAnalyzer.Host

open Bytes Framing

/-! ## The encoder -/

/-- `struct.pack` of one value; `none` stands for `struct.error`. -/
def packField (field : Field) (value : ℕ) : Option (List UInt8) :=
  if value < 256 ^ field.size then
    some ((List.range field.size).map fun i => UInt8.ofNat (value / 256 ^ i))
  else none

/-- `struct.pack`, little-endian and without padding. -/
def pack : List Field → List ℕ → Option (List UInt8)
  | [], [] => some []
  | f :: format, v :: values =>
      (packField f v).bind fun head => (pack format values).map (head ++ ·)
  | [], _ :: _ => none
  | _ :: _, [] => none

/-- `struct.pack` of a list for the format `h`, two's complement. -/
def packSigned (values : List ℤ) : Option (List UInt8) :=
  if ∀ v ∈ values, -0x8000 ≤ v ∧ v < 0x8000 then
    pack (List.replicate values.length .h) (values.map fun v => (v % 0x10000).toNat)
  else none

/-- One turn of the loop of `escape`. -/
def escapeByte (output : List UInt8) (byte : UInt8) : List UInt8 :=
  if byte = telemetrySof ∨ byte = telemetryEsc then output ++ [telemetryEsc, byte ^^^ 0x20]
  else output ++ [byte]

/-- `escape`. -/
def escape (raw : List UInt8) : List UInt8 :=
  raw.foldl escapeByte [telemetrySof] ++ [telemetrySof]

/-- `magnitudes` of `make_test_frame`. -/
def testMagnitudes (chunkIndex : ℕ) : List UInt8 :=
  (List.range 128).map fun index =>
    UInt8.ofNat (min 255 (((chunkIndex * 128 + index) * 17 + 64) >>> 7))

/-- `preview` of `make_test_frame`. -/
def testPreview (chunkIndex : ℕ) : List ℤ :=
  (List.range 32).map fun index => (chunkIndex * 32 + index : ℕ) * 257 - 16384

/-- The arguments of `HEADER.pack`. -/
def testHeader (sequence channel chunkIndex timestampUs : ℕ) : List ℕ :=
  [2, 1, payloadLength, sequence, timestampUs, 3, channel, chunkIndex, chunkCountPerSpectrum, 0,
    100000, chunkIndex * 128, 128, 12000, 20000, 1000000 + channel * 500000, 2300, 2]

/-- `make_test_frame`; `none` stands for `struct.error`. -/
def makeTestFrame (sequence channel chunkIndex timestampUs : ℕ) : Option (List UInt8) :=
  (pack headerFormat (testHeader sequence channel chunkIndex timestampUs)).bind fun header =>
    (packSigned (testPreview chunkIndex)).bind fun preview =>
      let raw := header ++ testMagnitudes chunkIndex ++ preview
      (pack [.h] [crc16 raw]).map fun crc => escape (raw ++ crc)

/-! ## Packing -/

theorem packField_b (v : UInt8) : packField .b v.toNat = some [v] := by
  have := v.toNat_lt
  simp [packField, Field.size, this]

theorem packField_h (v : UInt16) : packField .h v.toNat = some (le16 v) := by
  have hv := v.toNat_lt
  have hhigh : UInt8.ofNat (v.toNat / 256) = (v >>> 8).toUInt8 := by
    apply UInt8.toNat_inj.mp
    simp [Nat.shiftRight_eq_div_pow]
  simp [packField, Field.size, hv, List.range_succ, le16, hhigh]

theorem packField_i (v : UInt32) : packField .i v.toNat = some (le32 v) := by
  have hv := v.toNat_lt
  have hbyte : ∀ w : UInt32, ∀ n : ℕ, w.toNat % 256 = n % 256 → UInt8.ofNat n = w.toUInt8 := by
    intro w n h
    apply UInt8.toNat_inj.mp
    simpa using h.symm
  have h₁ : UInt8.ofNat (v.toNat / 256 ^ 1) = (v >>> 8).toUInt8 :=
    hbyte _ _ (by simp [Nat.shiftRight_eq_div_pow])
  have h₂ : UInt8.ofNat (v.toNat / 256 ^ 2) = (v >>> 16).toUInt8 :=
    hbyte _ _ (by simp [Nat.shiftRight_eq_div_pow])
  have h₃ : UInt8.ofNat (v.toNat / 256 ^ 3) = (v >>> 24).toUInt8 :=
    hbyte _ _ (by simp [Nat.shiftRight_eq_div_pow])
  have hsize : v.toNat < 256 ^ 4 := by omega
  rw [packField, Field.size, if_pos hsize, le32, ← h₁, ← h₂, ← h₃]
  simp [List.range_succ]

theorem pack_cons {f : Field} {v : ℕ} {bytes : List UInt8} (h : packField f v = some bytes)
    (format : List Field) (values : List ℕ) :
    pack (f :: format) (v :: values) = (pack format values).map (bytes ++ ·) := by
  rw [pack, h, Option.bind_some]

theorem pack_replicate_h (values : List UInt16) :
    pack (List.replicate values.length .h) (values.map UInt16.toNat) =
      some (values.flatMap le16) := by
  induction values with
  | nil => rfl
  | cons v values ih =>
      rw [List.length_cons, List.replicate_succ, List.map_cons, pack_cons (packField_h v), ih]
      rfl

theorem packSigned_eq (values : List Int16) :
    packSigned (values.map Int16.toInt) = some (previewBytes values) := by
  have hrange : ∀ v ∈ values.map Int16.toInt, -0x8000 ≤ v ∧ v < 0x8000 := by
    intro v hv
    obtain ⟨sample, -, rfl⟩ := List.mem_map.mp hv
    exact ⟨sample.le_toInt, sample.toInt_lt⟩
  have hwords : (values.map Int16.toInt).map (fun v => (v % 0x10000).toNat) =
      (values.map Int16.toUInt16).map UInt16.toNat := by
    rw [List.map_map, List.map_map]
    refine List.map_congr_left fun sample _ => ?_
    have hsigned := signed16_toNat sample.toUInt16
    have hlt := sample.toUInt16.toNat_lt
    rw [Int16.toInt16_toUInt16] at hsigned
    rw [Function.comp_apply, Function.comp_apply, ← hsigned, signed16]
    split
    · omega
    · omega
  rw [packSigned, if_pos hrange, hwords, List.length_map, ← List.length_map Int16.toUInt16,
    pack_replicate_h, previewBytes, List.flatMap_map]

/-- The fields of a chunk. -/
theorem pack_header (c : SpectrumAnalyzer.SpectrumChunk) :
    pack headerFormat [2, 1, payloadLength, c.sequence.toNat, c.timestampUs.toNat, c.status.toNat,
      c.channel.toNat, c.chunkIndex.toNat, c.chunkCount.toNat, 0, c.sampleRateHz.toNat,
      c.binStart.toNat, c.binCount.toNat, c.rmsQ15.toNat, c.peakQ15.toNat,
      c.dominantMillihz.toNat, c.processingUs.toNat, c.droppedBlocks.toNat] =
        some (headerLayout c) := by
  have hversion : packField .b 2 = some [telemetryProtocolVersion] := packField_b 2
  have htype : packField .b 1 = some [telemetryTypeSpectrum] := packField_b 1
  have hreserved : packField .b 0 = some [0] := packField_b 0
  have hlength : packField .h payloadLength = some (le16 telemetrySpectrumPayloadLen) :=
    packField_h 228
  rw [headerFormat, pack_cons hversion, pack_cons htype, pack_cons hlength,
    pack_cons (packField_h c.sequence),
    pack_cons (packField_i c.timestampUs), pack_cons (packField_i c.status),
    pack_cons (packField_b c.channel), pack_cons (packField_b c.chunkIndex),
    pack_cons (packField_b c.chunkCount), pack_cons hreserved,
    pack_cons (packField_i c.sampleRateHz), pack_cons (packField_h c.binStart),
    pack_cons (packField_h c.binCount), pack_cons (packField_h c.rmsQ15),
    pack_cons (packField_h c.peakQ15), pack_cons (packField_i c.dominantMillihz),
    pack_cons (packField_i c.processingUs), pack_cons (packField_i c.droppedBlocks), pack]
  simp [headerLayout, addressLayout]

theorem escape_eq (raw : List UInt8) :
    escape raw = telemetrySof :: telemetryCode.stuff raw ++ [telemetrySof] := by
  have hfold : ∀ output, raw.foldl escapeByte output = output ++ telemetryCode.stuff raw := by
    induction raw with
    | nil => simp
    | cons b bs ih =>
        intro output
        rw [List.foldl_cons, ih, Code.stuff_cons, ← List.append_assoc, escapeByte]
        congr 1
        split
        · next h => rw [telemetryCode.stuffSymbol_of_special h]; rfl
        · next h => rw [telemetryCode.stuffSymbol_of_not_special h]
  rw [escape, hfold]
  rfl

/-! ## The test frames -/

/-- The result whose chunks the test frames carry. -/
def testResult (timestampUs : UInt32) : SpectrumResult where
  timestampUs := timestampUs
  generation := 0
  sampleRateHz := 100000
  processingUs := 2300
  droppedBlocks := 2
  status := 3
  channel := .ofFn fun channel : Fin 2 =>
    { magnitudeQ15 := .ofFn fun bin => UInt16.ofNat (bin * 17)
      previewQ15 := .ofFn fun sample => Int16.ofInt (sample.val * 257 - 16384)
      rmsQ15 := 12000
      peakQ15 := 20000
      clippedSamples := 0
      dominantMillihz := UInt32.ofNat (1000000 + channel * 500000) }

section Frame
variable (sequence : UInt16) (channel : Fin 2) (chunkIndex : Fin 4) (timestampUs : UInt32)

theorem testHeader_eq :
    pack headerFormat (testHeader sequence.toNat channel chunkIndex timestampUs.toNat) =
      some (headerLayout (chunkOf sequence (testResult timestampUs) channel chunkIndex)) := by
  have hchannel : channel.val % 256 = channel := by omega
  have hchunk : chunkIndex.val % 256 = chunkIndex := by omega
  have hstart : chunkIndex.val * 128 % 65536 = chunkIndex * 128 := by omega
  have hfrequency : (1000000 + channel.val * 500000) % 4294967296 =
      1000000 + channel * 500000 := by omega
  rw [← pack_header]
  congr 1
  simp [testHeader, chunkOf, testResult, get_eq_getElem, hchannel, hchunk, hstart, hfrequency,
    chunkCountPerSpectrum, analyzerChunksPerChannel, analyzerBinsPerChunk]

theorem testMagnitudes_eq : testMagnitudes chunkIndex =
    (chunkOf sequence (testResult timestampUs) channel chunkIndex).magnitudeU8.toList := by
  apply List.ext_getElem
  · simp [testMagnitudes]
  · intro i h₁ h₂
    have hi : i < 128 := by simpa [testMagnitudes] using h₁
    have hword : ((chunkIndex.val * 128 + i) * 17) % 65536 = (chunkIndex * 128 + i) * 17 := by omega
    apply UInt8.toNat_inj.mp
    simp [testMagnitudes, chunkOf, testResult, get_eq_getElem, toNat_compressMagnitude, hword,
      Nat.shiftRight_eq_div_pow]

theorem testPreview_eq : testPreview chunkIndex =
    (chunkOf sequence (testResult timestampUs) channel chunkIndex).previewQ15.toList.map
      Int16.toInt := by
  apply List.ext_getElem
  · simp [testPreview]
  · intro i h₁ h₂
    have hi : i < 32 := by simpa [testPreview] using h₁
    have hword : (Int16.ofInt (((chunkIndex.val * 32 + i : ℕ) : ℤ) * 257 - 16384)).toInt =
        ((chunkIndex.val * 32 + i : ℕ) : ℤ) * 257 - 16384 :=
      Int16.toInt_ofInt_of_le (by omega) (by omega)
    simpa [testPreview, chunkOf, testResult, get_eq_getElem] using hword.symm

/-- **The two encoders** write the same bytes. -/
theorem makeTestFrame_eq :
    makeTestFrame sequence.toNat channel chunkIndex timestampUs.toNat =
      some (packetAt sequence (testResult timestampUs) (channel, chunkIndex)).wire := by
  let c := chunkOf sequence (testResult timestampUs) channel chunkIndex
  have hraw : headerLayout c ++ testMagnitudes chunkIndex ++ previewBytes c.previewQ15.toList =
      coveredLayout c := by
    rw [testMagnitudes_eq sequence channel chunkIndex timestampUs, coveredLayout]
  have hcrc : pack [.h] [crc16 (coveredLayout c)] =
      some (le16 (crc16CcittFalse (coveredLayout c))) := by
    rw [crc16_eq, pack_cons (packField_h _), pack, Option.map_some, List.append_nil]
  rw [makeTestFrame, testHeader_eq, Option.bind_some,
    testPreview_eq sequence channel chunkIndex timestampUs, packSigned_eq, Option.bind_some]
  simp only
  rw [hraw, hcrc, Option.map_some, escape_eq, Packet.wire_eq, Packet.toList_raw, chunk_packetAt,
    layout]

end Frame

/-! ## Arguments that do not fit -/

theorem packField_isSome_iff {field : Field} {value : ℕ} :
    (packField field value).isSome ↔ value < 256 ^ field.size := by
  rw [packField]
  split
  · next h => simpa using h
  · next h => simpa using h

theorem pack_isSome_iff {format : List Field} {values : List ℕ} :
    (pack format values).isSome ↔
      List.Forall₂ (fun f v => v < 256 ^ f.size) format values := by
  induction format generalizing values with
  | nil =>
      cases values with
      | nil => simp [pack]
      | cons v values => simp [pack]
  | cons f format ih =>
      cases values with
      | nil => simp [pack]
      | cons v values =>
          rw [List.forall₂_cons, ← ih, ← packField_isSome_iff, pack]
          cases packField f v with
          | none => simp
          | some head => simp

theorem pack_testHeader_isSome_iff (sequence channel chunkIndex timestampUs : ℕ) :
    (pack headerFormat (testHeader sequence channel chunkIndex timestampUs)).isSome ↔
      sequence < 2 ^ 16 ∧ timestampUs < 2 ^ 32 ∧ channel < 256 ∧ chunkIndex < 256 := by
  rw [pack_isSome_iff]
  simp only [headerFormat, testHeader, List.forall₂_cons, List.forall₂_nil_left_iff, Field.size,
    payloadLength, chunkCountPerSpectrum, and_true]
  omega

theorem packSigned_isSome_iff {values : List ℤ} :
    (packSigned values).isSome ↔ ∀ v ∈ values, -0x8000 ≤ v ∧ v < 0x8000 := by
  constructor
  · intro h
    by_contra hrange
    rw [packSigned, if_neg hrange] at h
    exact absurd h (by simp)
  · intro hrange
    have hvalues : values = (values.map Int16.ofInt).map Int16.toInt := by
      rw [List.map_map]
      refine (List.map_id values).symm.trans (List.map_congr_left fun v hv => ?_)
      obtain ⟨hlow, hhigh⟩ := hrange v hv
      rw [id, Function.comp_apply, Int16.toInt_ofInt_of_le (by omega) (by omega)]
    rw [hvalues, packSigned_eq]
    rfl

theorem packSigned_testPreview_isSome_iff (chunkIndex : ℕ) :
    (packSigned (testPreview chunkIndex)).isSome ↔ chunkIndex ≤ 5 := by
  rw [packSigned_isSome_iff]
  simp only [testPreview, List.mem_map, List.mem_range]
  constructor
  · intro h
    have hlast := (h _ ⟨31, by decide, rfl⟩).2
    omega
  · rintro h v ⟨index, hindex, rfl⟩
    exact ⟨by omega, by omega⟩

/-- When `struct.error` is raised. -/
theorem makeTestFrame_eq_none_iff (sequence channel chunkIndex timestampUs : ℕ) :
    makeTestFrame sequence channel chunkIndex timestampUs = none ↔
      ¬ (sequence < 2 ^ 16 ∧ timestampUs < 2 ^ 32 ∧ channel < 256 ∧ chunkIndex ≤ 5) := by
  have hheader := pack_testHeader_isSome_iff sequence channel chunkIndex timestampUs
  have hpreview := packSigned_testPreview_isSome_iff chunkIndex
  have hcrc : ∀ raw, pack [.h] [crc16 raw] = some (le16 (crc16CcittFalse raw)) := by
    intro raw
    rw [crc16_eq, pack_cons (packField_h _), pack, Option.map_some, List.append_nil]
  rw [makeTestFrame]
  cases hh : pack headerFormat (testHeader sequence channel chunkIndex timestampUs) with
  | none =>
      rw [hh] at hheader
      simp at hheader ⊢
      omega
  | some header =>
      rw [hh] at hheader
      cases hp : packSigned (testPreview chunkIndex) with
      | none =>
          rw [hp] at hpreview
          simp at hpreview ⊢
          omega
      | some preview =>
          rw [hp] at hpreview
          simp [hcrc] at hheader hpreview ⊢
          omega

/-! ## At the host -/

/-- **The test frames at the host.**  `make_test_frame` writes what the firmware's encoder
writes for the test result; the four frames of a channel, numbered from any sequence number,
make exactly the spectrum of that channel and no error; and it raises only for arguments that
do not fit their fields, or for a chunk whose preview leaves the range. -/
theorem test_frames_assemble :
    (∀ (sequence : UInt16) (channel : Fin 2) (chunkIndex : Fin 4) (timestampUs : UInt32),
      makeTestFrame sequence.toNat channel chunkIndex timestampUs.toNat =
        some (telemetryEncodeSpectrumChunk sequence (testResult timestampUs)
          (UInt8.ofNat channel) (UInt8.ofNat chunkIndex) telemetryMaxFrame).output) ∧
    (∀ (sequence : UInt16) (channel : Fin 2) (timestampUs : UInt32),
      ∃ frames : List (List UInt8),
        ((List.range 4).map fun i => makeTestFrame (sequence + UInt16.ofNat i).toNat channel i
          timestampUs.toNat) = frames.map some ∧
        framesFrom frames.flatten = [frameOf (testResult timestampUs) channel] ∧
        (FrameDecoder.after frames.flatten).errors = 0 ∧
        (FrameDecoder.after frames.flatten).lost = 0 ∧
        (FrameDecoder.after frames.flatten).duplicates = 0 ∧
        (FrameDecoder.after frames.flatten).outOfOrder = 0) ∧
    (∀ sequence channel chunkIndex timestampUs,
      makeTestFrame sequence channel chunkIndex timestampUs = none ↔
        ¬ (sequence < 2 ^ 16 ∧ timestampUs < 2 ^ 32 ∧ channel < 256 ∧ chunkIndex ≤ 5)) := by
  refine ⟨makeTestFrame_eq, fun sequence channel timestampUs => ?_, makeTestFrame_eq_none_iff⟩
  let packets := packetsOf (testResult timestampUs) sequence ((List.range 4).map (placeOf channel))
  have hpackets : packets = (List.range 4).map fun i =>
      packetAt (sequence + UInt16.ofNat i) (testResult timestampUs) (placeOf channel i) :=
    packetsOf_range _ _ _ _
  have hstream : (packets.map Packet.wire).flatten = packets.flatMap Packet.wire := rfl
  refine ⟨packets.map Packet.wire, ?_, ?_, ?_⟩
  · rw [hpackets, List.map_map, List.map_map]
    refine List.map_congr_left fun i hi => ?_
    have hplace : (placeOf channel i).2.val = i := by
      rw [placeOf, Fin.val_ofNat, Nat.mod_eq_of_lt (List.mem_range.mp hi)]
    have hframe := makeTestFrame_eq (sequence + UInt16.ofNat i) channel (placeOf channel i).2
      timestampUs
    rw [hplace] at hframe
    exact hframe
  · have hchunks : packets.map hostChunk =
        (List.range 4).map (chunksOf (testResult timestampUs) channel sequence) := by
      rw [hpackets, List.map_map]
      rfl
    have hpush := push_channel (a := .init) (testResult timestampUs) channel sequence
      (by simp [SpectrumAssembler.init]) le_rfl
    rw [hstream, framesFrom, yields_wires, hchunks, hpush.1, if_pos rfl]
  · rw [hstream]
    exact quiet_after (numbered_packetsOf _ _ _)

end SpectrumAnalyzer.Host
