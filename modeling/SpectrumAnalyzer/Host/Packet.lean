import SpectrumAnalyzer.Telemetry.Receiver

/-!
# The packets of the host

`decode_raw` of the host tool and what it calls.  A decoded chunk keeps the integers of
the packet: the source divides them by constants to get floats, and no comparison made
on the floats can tell apart what the integers do not.

`decodeRaw` and the firmware's `decodeBody` are separate texts.  `reads_decodeRaw` says
that they accept the same bodies, read the same integers and refuse the others for the
same reason.

## Main definitions

* `unpackFrom` — `struct.unpack_from` for the little-endian formats in use.
* `crc16` — the CRC over unbounded integers.
* `decodeRaw` — the checks of a complete body and the chunk it holds.
* `ofFirmware` — a firmware chunk as the host reads it.
* `Decoded` — a chunk that `decodeRaw` returned.
-/

namespace SpectrumAnalyzer.Host

open Bytes

def payloadLength : ℕ := 228
def rawLength : ℕ := 236
def chunkCountPerSpectrum : ℕ := 4

/-! ## `struct` -/

/-- The format characters `B`, `H` and `I`. -/
inductive Field where
  | b
  | h
  | i
  deriving DecidableEq, Repr

/-- The bytes a field takes. -/
def Field.size : Field → ℕ
  | .b => 1
  | .h => 2
  | .i => 4

/-- Read the fields of a format, little-endian and without padding. -/
def unpack : List Field → List UInt8 → Option (List ℕ)
  | [], _ => some []
  | f :: format, bytes =>
      if bytes.length < f.size then none
      else (unpack format (bytes.drop f.size)).map (readLE (bytes.take f.size) :: ·)

/-- `struct.unpack_from`; `none` stands for `struct.error`. -/
def unpackFrom (format : List Field) (raw : List UInt8) (offset : ℕ) : Option (List ℕ) :=
  unpack format (raw.drop offset)

/-- The value of a format `h`, given that of `H`. -/
def signed16 (value : ℕ) : ℤ := if value < 0x8000 then value else value - 0x10000

/-! ## The CRC -/

/-- One turn of the inner loop. -/
def crc16Bit (crc : ℕ) : ℕ :=
  if crc &&& 0x8000 ≠ 0 then ((crc <<< 1) ^^^ 0x1021) &&& 0xFFFF else (crc <<< 1) &&& 0xFFFF

/-- `crc16`. -/
def crc16 (data : List UInt8) : ℕ :=
  data.foldl (fun crc byte => crc16Bit^[8] (crc ^^^ (byte.toNat <<< 8))) 0xFFFF

/-! ## Chunks -/

/-- The values of `HEADER`, under the names `decode_raw` gives them. -/
structure Header where
  version : ℕ
  packetType : ℕ
  payloadLength : ℕ
  sequence : ℕ
  timestampUs : ℕ
  status : ℕ
  channel : ℕ
  chunkIndex : ℕ
  chunkCount : ℕ
  reserved : ℕ
  sampleRateHz : ℕ
  binStart : ℕ
  binCount : ℕ
  rmsQ15 : ℕ
  peakQ15 : ℕ
  dominantMillihz : ℕ
  processingUs : ℕ
  droppedBlocks : ℕ
  deriving DecidableEq, Repr

/-- The format of `HEADER`. -/
def headerFormat : List Field :=
  [.b, .b, .h, .h, .i, .i, .b, .b, .b, .b, .i, .h, .h, .h, .h, .i, .i, .i]

/-- `HEADER.unpack_from` and the assignment of its values. -/
def unpackHeader (raw : List UInt8) : Option Header :=
  match unpackFrom headerFormat raw 0 with
  | some [version, packetType, payloadLength, sequence, timestampUs, status, channel, chunkIndex,
      chunkCount, reserved, sampleRateHz, binStart, binCount, rmsQ15, peakQ15, dominantMillihz,
      processingUs, droppedBlocks] =>
      some ⟨version, packetType, payloadLength, sequence, timestampUs, status, channel, chunkIndex,
        chunkCount, reserved, sampleRateHz, binStart, binCount, rmsQ15, peakQ15, dominantMillihz,
        processingUs, droppedBlocks⟩
  | _ => none

/-- `SpectrumChunk`, with the integers the packet holds in place of the scaled floats. -/
structure SpectrumChunk where
  sequence : ℕ
  timestampUs : ℕ
  status : ℕ
  channel : ℕ
  chunkIndex : ℕ
  sampleRateHz : ℕ
  binStart : ℕ
  rmsQ15 : ℕ
  peakQ15 : ℕ
  dominantMillihz : ℕ
  processingUs : ℕ
  droppedBlocks : ℕ
  magnitudesU8 : List ℕ
  previewQ15 : List ℤ
  deriving DecidableEq, Repr

/-- What `decode_raw` may raise.  `FrameDecoder.feed` handles the first two only. -/
inductive DecodeError where
  | format (message : String)
  | crc
  | struct
  deriving DecidableEq, Repr

/-- The message of the first header check that fails. -/
def Header.fault (header : Header) : Option String :=
  if header.version ≠ 2 ∨ header.packetType ≠ 1 then
    some "unsupported version or packet type"
  else if header.payloadLength ≠ Host.payloadLength ∨ header.reserved ≠ 0 then
    some "invalid payload header"
  else if header.channel ≥ 2 ∨ header.chunkCount ≠ chunkCountPerSpectrum ∨
      header.chunkIndex ≥ chunkCountPerSpectrum then
    some "invalid channel or chunk index"
  else if header.binCount ≠ 128 ∨ header.binStart ≠ header.chunkIndex * 128 then
    some "invalid bin range"
  else none

/-- The chunk that `decode_raw` builds. -/
def Header.chunk (header : Header) (magnitudes : List UInt8) (preview : List ℕ) :
    SpectrumChunk where
  sequence := header.sequence
  timestampUs := header.timestampUs
  status := header.status
  channel := header.channel
  chunkIndex := header.chunkIndex
  sampleRateHz := header.sampleRateHz
  binStart := header.binStart
  rmsQ15 := header.rmsQ15
  peakQ15 := header.peakQ15
  dominantMillihz := header.dominantMillihz
  processingUs := header.processingUs
  droppedBlocks := header.droppedBlocks
  magnitudesU8 := magnitudes.map UInt8.toNat
  previewQ15 := preview.map signed16

/-- `decode_raw`. -/
def decodeRaw (raw : List UInt8) : Except DecodeError SpectrumChunk :=
  if raw.length ≠ rawLength then .error (.format s!"wrong raw length: {raw.length}")
  else
    match unpackFrom [.h] raw 234 with
    | some [stored] =>
        if crc16 (raw.take (raw.length - 2)) ≠ stored then .error .crc
        else
          match unpackHeader raw with
          | none => .error .struct
          | some header =>
              match header.fault with
              | some message => .error (.format message)
              | none =>
                  match unpackFrom (List.replicate 32 .h) raw 170 with
                  | none => .error .struct
                  | some preview => .ok (header.chunk ((raw.take 170).drop 42) preview)
    | _ => .error .struct

/-- A firmware chunk as the host reads it. -/
def ofFirmware (c : SpectrumAnalyzer.SpectrumChunk) : SpectrumChunk where
  sequence := c.sequence.toNat
  timestampUs := c.timestampUs.toNat
  status := c.status.toNat
  channel := c.channel.toNat
  chunkIndex := c.chunkIndex.toNat
  sampleRateHz := c.sampleRateHz.toNat
  binStart := c.binStart.toNat
  rmsQ15 := c.rmsQ15.toNat
  peakQ15 := c.peakQ15.toNat
  dominantMillihz := c.dominantMillihz.toNat
  processingUs := c.processingUs.toNat
  droppedBlocks := c.droppedBlocks.toNat
  magnitudesU8 := c.magnitudeU8.toList.map UInt8.toNat
  previewQ15 := c.previewQ15.toList.map Int16.toInt

/-! ## The two CRCs -/

theorem crc16Bit_toNat (crc : UInt16) :
    crc16Bit crc.toNat = (SpectrumAnalyzer.crc16Bit crc).toNat := by
  have hlow : ∀ v : ℕ, v &&& 0xFFFF = v % 2 ^ 16 := fun v => Nat.and_two_pow_sub_one_eq_mod v 16
  have hbit : crc.toNat &&& 0x8000 ≠ 0 ↔ crc &&& 0x8000 ≠ 0 := by
    rw [Ne, Ne, ← UInt16.toNat_inj, UInt16.toNat_and]
    rfl
  have hshift : (crc <<< 1).toNat = (crc.toNat <<< 1) % 2 ^ 16 := by
    rw [UInt16.toNat_shiftLeft]
    rfl
  simp only [crc16Bit, SpectrumAnalyzer.crc16Bit]
  simp only [hbit, hlow]
  split
  · rw [UInt16.toNat_xor, hshift, Nat.xor_mod_two_pow]
    rfl
  · rw [hshift]

theorem crc16_eq (data : List UInt8) : crc16 data = (crc16CcittFalse data).toNat := by
  have hbits : ∀ n : ℕ, ∀ c : UInt16,
      crc16Bit^[n] c.toNat = ((SpectrumAnalyzer.crc16Bit)^[n] c).toNat := by
    intro n
    induction n with
    | zero => exact fun _ => rfl
    | succ n ih =>
        intro c
        rw [Function.iterate_succ_apply, Function.iterate_succ_apply, crc16Bit_toNat, ih]
  have hfold : ∀ c : UInt16,
      data.foldl (fun crc byte => crc16Bit^[8] (crc ^^^ (byte.toNat <<< 8))) c.toNat =
        (data.foldl crc16Byte c).toNat := by
    induction data with
    | nil => exact fun _ => rfl
    | cons b bs ih =>
        intro c
        have hb : b.toNat <<< 8 = (b.toUInt16 <<< 8).toNat := by
          have := b.toNat_lt
          rw [UInt16.toNat_shiftLeft, UInt8.toNat_toUInt16]
          change _ = (b.toNat <<< 8) % 2 ^ 16
          rw [Nat.shiftLeft_eq]
          omega
        rw [List.foldl_cons, List.foldl_cons, hb, ← UInt16.toNat_xor, hbits, ← ih]
        rfl
  exact hfold 0xFFFF

/-! ## Unpacking a body -/

section Unpack
variable {n k : ℕ} (p : Vector UInt8 n) (format : List Field)

theorem drop_cons (h : k < n) : p.toList.drop k = p[k] :: p.toList.drop (k + 1) := by
  rw [List.drop_eq_getElem_cons (by simpa using h)]
  simp

theorem unpack_b (h : k < n) :
    unpack (.b :: format) (p.toList.drop k) =
      (unpack format (p.toList.drop (k + 1))).map (p[k].toNat :: ·) := by
  rw [drop_cons p h]
  simp [unpack, Field.size, readLE]

theorem unpack_h (h : k + 2 ≤ n) :
    unpack (.h :: format) (p.toList.drop k) =
      (unpack format (p.toList.drop (k + 2))).map ((getU16 p k h).toNat :: ·) := by
  have hread : (getU16 p k h).toNat = readLE [p[k], p[k + 1]] := toNat_ofLE16 _ _
  rw [drop_cons p (by omega), drop_cons p (by omega), hread]
  simp [unpack, Field.size]

theorem unpack_i (h : k + 4 ≤ n) :
    unpack (.i :: format) (p.toList.drop k) =
      (unpack format (p.toList.drop (k + 4))).map ((getU32 p k h).toNat :: ·) := by
  have hread : (getU32 p k h).toNat = readLE [p[k], p[k + 1], p[k + 2], p[k + 3]] :=
    toNat_ofLE32 _ _ _ _
  rw [drop_cons p (by omega), drop_cons p (by omega), drop_cons p (by omega),
    drop_cons p (by omega), hread]
  simp [unpack, Field.size]

/-- A run of `count` 16-bit fields. -/
theorem unpack_replicate_h (count k : ℕ) (h : k + 2 * count ≤ n) :
    unpack (List.replicate count .h) (p.toList.drop k) =
      some (List.ofFn fun i : Fin count => (getU16 p (k + i.val * 2) (by omega)).toNat) := by
  induction count generalizing k with
  | zero => simp [unpack]
  | succ count ih =>
      have hnext : ∀ i : Fin count, getU16 p (k + 2 + i.val * 2) (by omega) =
          getU16 p (k + i.succ.val * 2) (by simp only [Fin.val_succ]; omega) := by
        intro i
        congr 1
        simp only [Fin.val_succ]
        omega
      rw [List.replicate_succ, unpack_h p _ (by omega), ih (k + 2) (by omega), List.ofFn_succ]
      simp only [Option.map_some, hnext]
      rfl

end Unpack

/-- What the header checks ask for. -/
theorem Header.fault_eq_none_iff (header : Header) :
    header.fault = none ↔ header.version = 2 ∧ header.packetType = 1 ∧
      header.payloadLength = 228 ∧ header.channel < 2 ∧ header.chunkIndex < 4 ∧
      header.chunkCount = 4 ∧ header.reserved = 0 ∧ header.binCount = 128 ∧
      header.binStart = header.chunkIndex * 128 := by
  unfold Header.fault Host.payloadLength chunkCountPerSpectrum
  split
  · simp only [reduceCtorEq, false_iff]
    omega
  split
  · simp only [reduceCtorEq, false_iff]
    omega
  split
  · simp only [reduceCtorEq, false_iff]
    omega
  split
  · simp only [reduceCtorEq, false_iff]
    omega
  · simp only [true_iff]
    omega

/-- The header of a body: it passes the checks of the host when it passes those of the
firmware, and it holds what the firmware reads. -/
theorem unpackHeader_body (body : Vector UInt8 236) :
    ∃ header, unpackHeader body.toList = some header ∧
      (header.fault = none ↔ headerValid body) ∧
      ∀ magnitudes preview, header.chunk magnitudes preview =
        { ofFirmware (readChunk body) with
          magnitudesU8 := magnitudes.map UInt8.toNat, previewQ15 := preview.map signed16 } := by
  have hunpack : unpackFrom headerFormat body.toList 0 = some [body[0].toNat, body[1].toNat,
      (getU16 body 2).toNat, (getU16 body 4).toNat, (getU32 body 6).toNat,
      (getU32 body 10).toNat, body[14].toNat, body[15].toNat, body[16].toNat, body[17].toNat,
      (getU32 body 18).toNat, (getU16 body 22).toNat, (getU16 body 24).toNat,
      (getU16 body 26).toNat, (getU16 body 28).toNat, (getU32 body 30).toNat,
      (getU32 body 34).toNat, (getU32 body 38).toNat] := by
    simp only [unpackFrom, headerFormat]
    rw [unpack_b body _ (by decide), unpack_b body _ (by decide), unpack_h body _ (by decide),
      unpack_h body _ (by decide), unpack_i body _ (by decide), unpack_i body _ (by decide),
      unpack_b body _ (by decide), unpack_b body _ (by decide), unpack_b body _ (by decide),
      unpack_b body _ (by decide), unpack_i body _ (by decide), unpack_h body _ (by decide),
      unpack_h body _ (by decide), unpack_h body _ (by decide), unpack_h body _ (by decide),
      unpack_i body _ (by decide), unpack_i body _ (by decide), unpack_i body _ (by decide)]
    rfl
  have hstart : (body[15].toUInt16 * analyzerBinsPerChunk).toNat = body[15].toNat * 128 := by
    have := body[15].toNat_lt
    rw [UInt16.toNat_mul, UInt8.toNat_toUInt16]
    exact Nat.mod_eq_of_lt (by change _ * 128 < 65536; omega)
  rw [unpackHeader]
  rw [hunpack]
  refine ⟨_, rfl, ?_, fun _ _ => rfl⟩
  rw [headerValid]
  rw [Header.fault_eq_none_iff]
  simp only [ge_iff_le, UInt8.le_iff_toNat_le, ← UInt8.toNat_inj, ← UInt16.toNat_inj, ne_eq,
    not_or, not_not, not_le, hstart]
  rfl

theorem signed16_toNat (v : UInt16) : signed16 v.toNat = v.toInt16.toInt := by
  have htoInt : v.toInt16.toInt = v.toBitVec.toInt := rfl
  have htoNat : v.toNat = v.toBitVec.toNat := rfl
  rw [htoInt, htoNat, BitVec.toInt_eq_toNat_cond, signed16]
  split <;> split <;> omega

theorem unpackPreview_eq (body : Vector UInt8 236) :
    unpackFrom (List.replicate 32 .h) body.toList 170 =
      some ((readChunk body).previewQ15.toList.map fun sample => sample.toUInt16.toNat) := by
  rw [unpackFrom, unpack_replicate_h body 32 170 (by decide)]
  simp only [readChunk, Vector.toList_ofFn, List.map_ofFn]
  rfl

/-- The chunk that is built from the fields of a body. -/
theorem ofFirmware_readChunk (body : Vector UInt8 236) :
    { ofFirmware (readChunk body) with
      magnitudesU8 := ((body.toList.take 170).drop 42).map UInt8.toNat
      previewQ15 := ((readChunk body).previewQ15.toList.map fun sample =>
        sample.toUInt16.toNat).map signed16 } = ofFirmware (readChunk body) := by
  have hmag : (body.toList.take 170).drop 42 = (readChunk body).magnitudeU8.toList := by
    apply List.ext_getElem
    · simp
    · intro i h1 h2
      simp [readChunk]
  have hpreview : ((readChunk body).previewQ15.toList.map fun sample =>
      sample.toUInt16.toNat).map signed16 = (readChunk body).previewQ15.toList.map Int16.toInt := by
    rw [List.map_map]
    congr 1
    funext sample
    exact signed16_toNat _
  rw [hmag, hpreview]
  rfl

/-! ## Agreement with the firmware -/

theorem decodeRaw_of_length {raw : List UInt8} (h : raw.length ≠ 236) :
    decodeRaw raw = .error (.format s!"wrong raw length: {raw.length}") := by
  simp [decodeRaw, rawLength, h]

/-- `decodeRaw` on a body of the right length, in the firmware's terms. -/
theorem decodeRaw_body (body : Vector UInt8 236) :
    ∃ header, (Header.fault header = none ↔ headerValid body) ∧ decodeRaw body.toList =
      if crc16CcittFalse (body.toList.take 234) ≠ getU16 body 234 then .error .crc
      else
        match header.fault with
        | some message => .error (.format message)
        | none => .ok (ofFirmware (readChunk body)) := by
  obtain ⟨header, hheader, hvalid, hchunk⟩ := unpackHeader_body body
  have hstored : unpackFrom [.h] body.toList 234 = some [(getU16 body 234).toNat] := by
    rw [unpackFrom]
    rw [unpack_h body _ (by decide)]
    rfl
  have hcrc : crc16 (body.toList.take 234) ≠ (getU16 body 234).toNat ↔
      crc16CcittFalse (body.toList.take 234) ≠ getU16 body 234 := by
    rw [crc16_eq, Ne, Ne, UInt16.toNat_inj]
  refine ⟨header, hvalid, ?_⟩
  rw [decodeRaw]
  rw [if_neg (by simp [rawLength]), hstored]
  simp only [Vector.length_toList, hheader, unpackPreview_eq, hchunk, ofFirmware_readChunk, hcrc]

/-- How the host reads a result of the firmware's `decodeBody`. -/
inductive Reads : RawResult → Except DecodeError SpectrumChunk → Prop where
  | ok (c : SpectrumAnalyzer.SpectrumChunk) : Reads (.ok c) (.ok (ofFirmware c))
  | badCrc : Reads .badCrc (.error .crc)
  | badFormat (message : String) : Reads .badFormat (.error (.format message))

/-- **One body, two decoders.**  Host and firmware accept the same bodies, read the same
integers, and refuse the others for the same reason. -/
theorem reads_decodeRaw (body : Vector UInt8 236) (length : ℕ) (h : length ≤ 236) :
    Reads (decodeBody body length) (decodeRaw (body.toList.take length)) := by
  by_cases hl : length = 236
  · subst hl
    obtain ⟨header, hvalid, hraw⟩ := decodeRaw_body body
    rw [List.take_of_length_le (by simp), hraw]
    rw [decodeBody]
    rw [if_neg (by simp)]
    split
    · exact .badCrc
    · cases hf : header.fault with
      | none =>
          rw [if_pos (hvalid.mp hf)]
          exact .ok _
      | some message =>
          have hinvalid : ¬ headerValid body := by
            intro hv
            simp [hvalid.mpr hv] at hf
          rw [if_neg hinvalid]
          exact .badFormat _
  · have hraw : (body.toList.take length).length ≠ 236 := by
      simp only [List.length_take, Vector.length_toList]
      omega
    rw [decodeRaw_of_length hraw, decodeBody, if_pos hl]
    exact .badFormat _

/-! ## Decoded chunks -/

/-- A chunk that `decode_raw` returned. -/
def Decoded (c : SpectrumChunk) : Prop := ∃ raw, decodeRaw raw = .ok c

/-- A decoded chunk is one that the firmware reads from the same body. -/
theorem Decoded.exists_ofFirmware {c : SpectrumChunk} (h : Decoded c) :
    ∃ c', c = ofFirmware c' := by
  obtain ⟨raw, hraw⟩ := h
  have hl : raw.length = 236 := by
    by_contra hne
    rw [decodeRaw_of_length hne] at hraw
    cases hraw
  let body : Vector UInt8 236 := ⟨raw.toArray, by simpa using hl⟩
  have hbody : body.toList.take 236 = raw := List.take_of_length_le hl.le
  have hreads := reads_decodeRaw body 236 le_rfl
  rw [hbody, hraw] at hreads
  generalize decodeBody body 236 = r at hreads
  cases hreads with
  | ok c' => exact ⟨c', rfl⟩

/-- Every decoded chunk has 128 magnitudes and 32 preview samples. -/
theorem Decoded.lengths {c : SpectrumChunk} (h : Decoded c) :
    c.magnitudesU8.length = 128 ∧ c.previewQ15.length = 32 := by
  obtain ⟨c', rfl⟩ := h.exists_ofFirmware
  simp [ofFirmware]

theorem chunkIndex_of_fault {header : Header} (h : header.fault = none) :
    header.chunkIndex < 4 := by
  rw [Header.fault] at h
  split at h
  · cases h
  split at h
  · cases h
  split at h
  · cases h
  · next hchannel =>
      rw [not_or, not_or] at hchannel
      exact Nat.lt_of_not_le hchannel.2.2

theorem Decoded.chunkIndex_lt {c : SpectrumChunk} (h : Decoded c) : c.chunkIndex < 4 := by
  obtain ⟨raw, hraw⟩ := h
  rw [decodeRaw] at hraw
  split at hraw
  · cases hraw
  split at hraw
  · split at hraw
    · cases hraw
    split at hraw
    · cases hraw
    split at hraw
    · cases hraw
    · next hfault =>
        split at hraw
        · cases hraw
        · cases hraw
          exact chunkIndex_of_fault hfault
  · cases hraw

end SpectrumAnalyzer.Host
