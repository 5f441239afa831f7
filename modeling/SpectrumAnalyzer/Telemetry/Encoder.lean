import SpectrumAnalyzer.Telemetry.RawPacket

/-!
# The telemetry encoder

`telemetry_encode_spectrum_chunk`: the raw packet between delimiters, escaped.  The output
buffer is the list of bytes written so far, so the write position is its length; what a
failed call has already written stays visible.

## Main definitions

* `appendEscaped`, `appendAllEscaped` — the escaping loop.
* `telemetryEncodeSpectrumChunk` — the returned size and the bytes written.
-/

namespace SpectrumAnalyzer

/-- `append_escaped`: whether the byte fitted, and the output after it. -/
def appendEscaped (byte : UInt8) (out : List UInt8) (capacity : ℕ) : Bool × List UInt8 :=
  if byte = telemetrySof ∨ byte = telemetryEsc then
    if out.length + 2 > capacity then (false, out)
    else (true, out ++ [telemetryEsc, byte ^^^ 0x20])
  else if out.length + 1 > capacity then (false, out)
  else (true, out ++ [byte])

/-- The loop over the raw bytes, which stops at the first byte that does not fit. -/
def appendAllEscaped (capacity : ℕ) : List UInt8 → List UInt8 → Bool × List UInt8
  | [], out => (true, out)
  | byte :: rest, out =>
      match appendEscaped byte out capacity with
      | (true, out') => appendAllEscaped capacity rest out'
      | (false, out') => (false, out')

/-- The size returned, zero on failure, and the bytes written to the output buffer. -/
structure EncodeResult where
  size : ℕ
  output : List UInt8
  deriving DecidableEq, Repr

/-- `telemetry_encode_spectrum_chunk`. -/
def telemetryEncodeSpectrumChunk (sequence : UInt16) (result : SpectrumResult)
    (channel chunkIndex : UInt8) (outputCapacity : ℕ) : EncodeResult :=
  if h : channel.toNat < 2 ∧ chunkIndex.toNat < 4 then
    let raw := rawSpectrumChunk sequence result ⟨channel.toNat, h.1⟩ ⟨chunkIndex.toNat, h.2⟩
    if outputCapacity < 2 then ⟨0, []⟩
    else
      match appendAllEscaped (outputCapacity - 1) raw.toList [telemetrySof] with
      | (false, out) => ⟨0, out⟩
      | (true, out) =>
          if out.length ≥ outputCapacity then ⟨0, out⟩
          else ⟨out.length + 1, out ++ [telemetrySof]⟩
  else ⟨0, []⟩

end SpectrumAnalyzer
