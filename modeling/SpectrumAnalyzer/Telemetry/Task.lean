import Mathlib.Data.List.Nodup
import SpectrumAnalyzer.Telemetry.RoundTrip

/-!
# The telemetry task

The loop of `telemetry_task` for a list of results, one UART call after the other.  The
outcome of a call is given by an oracle on the number of calls made before it.  A packet
reaches the wire whole when its call succeeds and not at all when it fails.  The nested
loops stop at the first failure, so the packets of a result that are sent are those before
its first failing call; `telemetryTask_spec` says so for a whole run.

## Main definitions

* `Sender` — the sequence counter, the calls made and the bytes delivered.
* `telemetryTask` — the loop over the results, with one health vote each.
* `plan` — channel and chunk of the eight packets of a result.
* `outcomesFrom` — how many packets each result sends, as the oracle says.
* `packetsOfRun`, `writesOfRun` — packets and calls, given how many each result sent.
* `Delivered` — all four packets of a channel were sent.
-/

namespace SpectrumAnalyzer

/-- One call of `platform_uart_write_dma` and what became of it. -/
structure Write where
  timestampUs : UInt32
  channel : UInt8
  chunk : UInt8
  delivered : Bool
  deriving DecidableEq, Repr

/-- The sequence counter, the calls made so far, the bytes delivered, and whether
`STATUS_UART_BACKPRESSURE` was set. -/
structure Sender where
  sequence : UInt16
  writes : List Write
  wire : List UInt8
  backpressure : Bool
  deriving DecidableEq, Repr

/-- The task before its first result. -/
def Sender.init : Sender := ⟨0, [], [], false⟩

section Task
variable (uart : ℕ → Bool) (result : SpectrumResult)

/-- One turn of the inner loop: whether the chunk was sent. -/
def sendChunk (channel chunk : UInt8) (s : Sender) : Bool × Sender :=
  let frame := telemetryEncodeSpectrumChunk s.sequence result channel chunk telemetryMaxFrame
  if frame.size = 0 then (false, { s with backpressure := true })
  else if uart s.writes.length then
    (true, { s with
      sequence := s.sequence + 1
      writes := s.writes ++ [⟨result.timestampUs, channel, chunk, true⟩]
      wire := s.wire ++ frame.output })
  else
    (false, { s with
      writes := s.writes ++ [⟨result.timestampUs, channel, chunk, false⟩]
      backpressure := true })

/-- The inner loop, left at the first failure. -/
def sendChunks (channel : UInt8) : List UInt8 → Sender → Bool × Sender
  | [], s => (true, s)
  | chunk :: rest, s =>
      match sendChunk uart result channel chunk s with
      | (true, s') => sendChunks channel rest s'
      | (false, s') => (false, s')

/-- The outer loop, left with `transmitted` false. -/
def sendChannels : List UInt8 → Sender → Bool × Sender
  | [], s => (true, s)
  | channel :: rest, s =>
      match sendChunks uart result channel [0, 1, 2, 3] s with
      | (true, s') => sendChannels rest s'
      | (false, s') => (false, s')

end Task

/-- `telemetry_task`: the health votes, one for each result, and the state behind the last. -/
def telemetryTask (uart : ℕ → Bool) : List SpectrumResult → Sender → List Bool × Sender
  | [], s => ([], s)
  | result :: rest, s =>
      let sent := sendChannels uart result [0, 1] s
      let run := telemetryTask uart rest sent.2
      (sent.1 :: run.1, run.2)

/-! ## One loop for the two -/

/-- Channel and chunk of the eight packets, in the order of the loops. -/
def plan : List (Fin 2 × Fin 4) :=
  [(0, 0), (0, 1), (0, 2), (0, 3), (1, 0), (1, 1), (1, 2), (1, 3)]

/-- The place of chunk `i` of a channel. -/
def placeOf (channel : Fin 2) (i : ℕ) : Fin 2 × Fin 4 := (channel, Fin.ofNat 4 i)

section Loops
variable (uart : ℕ → Bool) (result : SpectrumResult)

/-- A single loop over channel and chunk. -/
def sendAll : List (Fin 2 × Fin 4) → Sender → Bool × Sender
  | [], s => (true, s)
  | address :: rest, s =>
      match sendChunk uart result (UInt8.ofNat address.1) (UInt8.ofNat address.2) s with
      | (true, s') => sendAll rest s'
      | (false, s') => (false, s')

theorem sendAll_append (xs ys : List (Fin 2 × Fin 4)) (s : Sender) :
    sendAll uart result (xs ++ ys) s =
      match sendAll uart result xs s with
      | (true, s') => sendAll uart result ys s'
      | (false, s') => (false, s') := by
  induction xs generalizing s with
  | nil => rfl
  | cons x xs ih =>
      rw [List.cons_append, sendAll, sendAll]
      cases sendChunk uart result (UInt8.ofNat x.1) (UInt8.ofNat x.2) s with
      | mk sent s' => cases sent <;> simp only [ih]

theorem sendChunks_eq (channel : Fin 2) (chunks : List (Fin 4)) (s : Sender) :
    sendChunks uart result (UInt8.ofNat channel) (chunks.map fun c : Fin 4 => UInt8.ofNat c) s =
      sendAll uart result (chunks.map fun c => (channel, c)) s := by
  induction chunks generalizing s with
  | nil => rfl
  | cons c cs ih =>
      simp only [List.map_cons, sendChunks, sendAll, ih]

/-- The nested loops with their early exits are one loop over the plan. -/
theorem sendChannels_eq (s : Sender) :
    sendChannels uart result [0, 1] s = sendAll uart result plan s := by
  have hplan : plan = ([0, 1, 2, 3] : List (Fin 4)).map (fun c => ((0 : Fin 2), c)) ++
      ([0, 1, 2, 3] : List (Fin 4)).map (fun c => ((1 : Fin 2), c)) := rfl
  have hchunks : ([0, 1, 2, 3] : List (Fin 4)).map (fun c : Fin 4 => UInt8.ofNat c) =
      [0, 1, 2, 3] := by decide
  have hzero : UInt8.ofNat (0 : Fin 2) = 0 := by decide
  have hone : UInt8.ofNat (1 : Fin 2) = 1 := by decide
  have h0 := sendChunks_eq uart result 0 [0, 1, 2, 3]
  have h1 := sendChunks_eq uart result 1 [0, 1, 2, 3]
  rw [hchunks, hzero] at h0
  rw [hchunks, hone] at h1
  rw [hplan, sendAll_append, sendChannels, h0]
  cases sendAll uart result (([0, 1, 2, 3] : List (Fin 4)).map fun c => ((0 : Fin 2), c)) s with
  | mk sent s' =>
      cases sent with
      | false => rfl
      | true =>
          simp only [sendChannels, h1]
          cases sendAll uart result
            (([0, 1, 2, 3] : List (Fin 4)).map fun c => ((1 : Fin 2), c)) s' with
          | mk sent s'' => cases sent <;> rfl

end Loops

/-! ## What is sent -/

/-- The packet at a place of the plan. -/
def packetAt (sequence : UInt16) (result : SpectrumResult) (address : Fin 2 × Fin 4) :
    Packet where
  sequence := sequence
  result := result
  channel := UInt8.ofNat address.1
  chunkIndex := UInt8.ofNat address.2
  channel_lt := by
    have := address.1.isLt
    rw [UInt8.toNat_ofNat']
    omega
  chunkIndex_lt := by
    have := address.2.isLt
    rw [UInt8.toNat_ofNat']
    omega

/-- The packets of a result, numbered from `sequence`. -/
def packetsOf (result : SpectrumResult) : UInt16 → List (Fin 2 × Fin 4) → List Packet
  | _, [] => []
  | sequence, address :: rest =>
      packetAt sequence result address :: packetsOf result (sequence + 1) rest

/-- The calls for the packets of a result. -/
def writeAt (result : SpectrumResult) (delivered : Bool) (address : Fin 2 × Fin 4) : Write :=
  ⟨result.timestampUs, UInt8.ofNat address.1, UInt8.ofNat address.2, delivered⟩

/-- The calls for a result of which `n` packets are sent: the next one fails. -/
def writesOf (result : SpectrumResult) (addresses : List (Fin 2 × Fin 4)) (n : ℕ) : List Write :=
  (addresses.take n).map (writeAt result true) ++
    (addresses[n]?.map (writeAt result false)).toList

theorem sendChunk_eq (uart : ℕ → Bool) (result : SpectrumResult) (address : Fin 2 × Fin 4)
    (s : Sender) :
    sendChunk uart result (UInt8.ofNat address.1) (UInt8.ofNat address.2) s =
      if uart s.writes.length then
        (true, { s with
          sequence := s.sequence + 1
          writes := s.writes ++ [writeAt result true address]
          wire := s.wire ++ (packetAt s.sequence result address).wire })
      else
        (false, { s with
          writes := s.writes ++ [writeAt result false address]
          backpressure := true }) := by
  have hsize : (packetAt s.sequence result address).encode.size ≠ 0 := by
    rw [Packet.size_encode, Packet.length_wire]
    omega
  rw [sendChunk]
  exact if_neg hsize

/-- How many of `count` calls, made from call number `first` on, succeed before one fails. -/
def successes (uart : ℕ → Bool) (first count : ℕ) : ℕ :=
  ((List.range count).takeWhile fun i => uart (first + i)).length

section Successes
variable (uart : ℕ → Bool) (first count : ℕ)

theorem successes_le : successes uart first count ≤ count := by
  have hprefix := List.takeWhile_prefix (l := List.range count) fun i => uart (first + i)
  simpa [successes] using hprefix.length_le

theorem successes_succ :
    successes uart first (count + 1) =
      if uart first then successes uart (first + 1) count + 1 else 0 := by
  have hshift : (fun i => uart (first + i)) ∘ Nat.succ = fun i => uart (first + 1 + i) := by
    funext i
    rw [Function.comp_apply, Nat.succ_eq_add_one, Nat.add_assoc, Nat.add_comm 1 i]
  rw [successes, List.range_succ_eq_map, List.takeWhile_cons, List.takeWhile_map, hshift]
  cases uart first <;> simp [successes]

/-- Without a failure all of them succeed. -/
theorem successes_of_all (h : ∀ k, uart k = true) : successes uart first count = count := by
  induction count generalizing first with
  | zero => rfl
  | succ count ih => rw [successes_succ, if_pos (h first), ih]

end Successes

/-- **The single loop** sends a packet with every call before the first that fails. -/
theorem sendAll_spec (uart : ℕ → Bool) (result : SpectrumResult)
    (addresses : List (Fin 2 × Fin 4)) (s : Sender) :
    let n := successes uart s.writes.length addresses.length
    (sendAll uart result addresses s).1 = decide (n = addresses.length) ∧
      (sendAll uart result addresses s).2.sequence = s.sequence + UInt16.ofNat n ∧
      (sendAll uart result addresses s).2.writes = s.writes ++ writesOf result addresses n ∧
      (sendAll uart result addresses s).2.wire =
        s.wire ++ (packetsOf result s.sequence (addresses.take n)).flatMap Packet.wire := by
  induction addresses generalizing s with
  | nil => simp [sendAll, successes, writesOf, packetsOf]
  | cons address rest ih =>
      rw [sendAll, sendChunk_eq, List.length_cons, successes_succ]
      by_cases hok : uart s.writes.length = true
      · rw [if_pos hok, if_pos hok]
        obtain ⟨hsent, hseq, hwrites, hwire⟩ := ih { s with
          sequence := s.sequence + 1
          writes := s.writes ++ [writeAt result true address]
          wire := s.wire ++ (packetAt s.sequence result address).wire }
        simp only [List.length_append, List.length_singleton] at hsent hseq hwrites hwire
        refine ⟨?_, ?_, ?_, ?_⟩
        · simp only [hsent, Nat.add_right_cancel_iff]
        · rw [hseq, sequence_add_succ]
        · rw [hwrites]
          simp [writesOf]
        · rw [hwire]
          simp [packetsOf]
      · rw [if_neg hok, if_neg hok]
        simp [writesOf, packetsOf]

/-! ## A whole run -/

/-- The packets of a run in which each result sends the given number. -/
def packetsOfRun : UInt16 → List (SpectrumResult × ℕ) → List Packet
  | _, [] => []
  | sequence, (result, n) :: rest =>
      packetsOf result sequence (plan.take n) ++ packetsOfRun (sequence + UInt16.ofNat n) rest

/-- The calls of such a run. -/
def writesOfRun (outcomes : List (SpectrumResult × ℕ)) : List Write :=
  outcomes.flatMap fun o => writesOf o.1 plan o.2

/-- How many packets each result sends, when the first is tried with call number `first`. -/
def outcomesFrom (uart : ℕ → Bool) : ℕ → List SpectrumResult → List (SpectrumResult × ℕ)
  | _, [] => []
  | first, result :: rest =>
      let n := successes uart first 8
      (result, n) :: outcomesFrom uart (first + (writesOf result plan n).length) rest

section Outcomes
variable (uart : ℕ → Bool)

@[simp] theorem map_fst_outcomesFrom (results : List SpectrumResult) (first : ℕ) :
    (outcomesFrom uart first results).map Prod.fst = results := by
  induction results generalizing first with
  | nil => rfl
  | cons result rest ih => rw [outcomesFrom, List.map_cons, ih]

theorem le_of_mem_outcomesFrom {results : List SpectrumResult} {first : ℕ}
    {o : SpectrumResult × ℕ} (h : o ∈ outcomesFrom uart first results) : o.2 ≤ 8 := by
  induction results generalizing first with
  | nil => cases h
  | cons result rest ih =>
      rcases List.mem_cons.mp h with rfl | h
      · exact successes_le uart first 8
      · exact ih h

/-- Without a failure every result sends all eight. -/
theorem eq_eight_of_mem_outcomesFrom (hall : ∀ k, uart k = true) {results : List SpectrumResult}
    {first : ℕ} {o : SpectrumResult × ℕ} (h : o ∈ outcomesFrom uart first results) : o.2 = 8 := by
  induction results generalizing first with
  | nil => cases h
  | cons result rest ih =>
      rcases List.mem_cons.mp h with rfl | h
      · exact successes_of_all uart first 8 hall
      · exact ih h

end Outcomes

/-- **A run of the telemetry task.**  Each result sends a packet with every call before its
first failure, numbered without gaps across results, and votes when these are all eight. -/
theorem telemetryTask_spec (uart : ℕ → Bool) (results : List SpectrumResult) (s : Sender) :
    let outcomes := outcomesFrom uart s.writes.length results
    (telemetryTask uart results s).1 = outcomes.map (fun o => decide (o.2 = 8)) ∧
      (telemetryTask uart results s).2.writes = s.writes ++ writesOfRun outcomes ∧
      (telemetryTask uart results s).2.wire =
        s.wire ++ (packetsOfRun s.sequence outcomes).flatMap Packet.wire := by
  induction results generalizing s with
  | nil => simp [telemetryTask, outcomesFrom, writesOfRun, packetsOfRun]
  | cons result rest ih =>
      obtain ⟨hsent, hseq, hwrites, hwire⟩ := sendAll_spec uart result plan s
      obtain ⟨hvotes, hwrites', hwire'⟩ := ih (sendAll uart result plan s).2
      rw [hwrites, List.length_append] at hvotes hwrites' hwire'
      refine ⟨?_, ?_, ?_⟩
      · rw [telemetryTask, sendChannels_eq, hsent, hvotes]
        rfl
      · rw [telemetryTask, sendChannels_eq, hwrites', List.append_assoc]
        rfl
      · rw [telemetryTask, sendChannels_eq, hwire', hwire, hseq, outcomesFrom, packetsOfRun,
          List.flatMap_append, List.append_assoc]
        rfl

/-! ## The calls and the oracle -/

section Oracle
variable (uart : ℕ → Bool)

/-- The calls for a result, each with the outcome that the oracle gives it. -/
theorem delivered_writesOf (result : SpectrumResult) (addresses : List (Fin 2 × Fin 4))
    (first : ℕ) :
    (writesOf result addresses (successes uart first addresses.length)).map Write.delivered =
      (List.range' first
        (writesOf result addresses (successes uart first addresses.length)).length).map uart := by
  induction addresses generalizing first with
  | nil => rfl
  | cons address rest ih =>
      rw [List.length_cons, successes_succ]
      cases hok : uart first with
      | false => simp [writesOf, writeAt, hok]
      | true =>
          have hcons : ∀ n, writesOf result (address :: rest) (n + 1) =
              writeAt result true address :: writesOf result rest n := by simp [writesOf]
          rw [if_pos rfl, hcons, List.map_cons, List.length_cons, List.range'_succ, List.map_cons,
            ← ih (first + 1), hok]
          rfl

/-- The calls of a run. -/
theorem delivered_writesOfRun (results : List SpectrumResult) (first : ℕ) :
    (writesOfRun (outcomesFrom uart first results)).map Write.delivered =
      (List.range' first (writesOfRun (outcomesFrom uart first results)).length).map uart := by
  induction results generalizing first with
  | nil => rfl
  | cons result rest ih =>
      have hcalls := delivered_writesOf uart result plan first
      rw [show plan.length = 8 from rfl] at hcalls
      rw [outcomesFrom, writesOfRun, List.flatMap_cons, ← writesOfRun, List.map_append, ih,
        List.length_append, ← List.range'_append_1, List.map_append, hcalls]

end Oracle

/-- All four packets of a channel of a result were sent. -/
def Delivered (writes : List Write) (result : SpectrumResult) (channel : Fin 2) : Prop :=
  ∀ chunk : Fin 4, writeAt result true (channel, chunk) ∈ writes

instance (writes : List Write) (result : SpectrumResult) (channel : Fin 2) :
    Decidable (Delivered writes result channel) := inferInstanceAs (Decidable (∀ _, _))

theorem writeAt_injective {r r' : SpectrumResult} {b b' : Bool} {a a' : Fin 2 × Fin 4}
    (h : writeAt r b a = writeAt r' b' a') :
    r.timestampUs = r'.timestampUs ∧ b = b' ∧ a = a' := by
  simp only [writeAt, Write.mk.injEq] at h
  obtain ⟨hts, hch, hck, hb⟩ := h
  have h1 := congrArg UInt8.toNat hch
  have h2 := congrArg UInt8.toNat hck
  have := a.1.isLt
  have := a'.1.isLt
  have := a.2.isLt
  have := a'.2.isLt
  rw [UInt8.toNat_ofNat', UInt8.toNat_ofNat'] at h1 h2
  exact ⟨hts, hb, Prod.ext (Fin.ext (by omega)) (Fin.ext (by omega))⟩

theorem mem_writesOf {r : SpectrumResult} {addresses : List (Fin 2 × Fin 4)} {n : ℕ}
    {a : Fin 2 × Fin 4} :
    writeAt r true a ∈ writesOf r addresses n ↔ a ∈ addresses.take n := by
  rw [writesOf, List.mem_append, List.mem_map]
  constructor
  · rintro (⟨b, hb, he⟩ | hfailed)
    · rwa [← (writeAt_injective he).2.2]
    · cases hb : addresses[n]? with
      | none => simp [hb] at hfailed
      | some b =>
          simp only [hb, Option.map_some, Option.toList_some, List.mem_singleton] at hfailed
          exact absurd (writeAt_injective hfailed).2.1 (by decide)
  · exact fun h => .inl ⟨a, h, rfl⟩

/-- Where a channel stands in the plan. -/
theorem plan_take : ∀ n : Fin 9, ∀ channel : Fin 2,
    (∀ chunk, (channel, chunk) ∈ plan.take n) ↔ 4 * (channel.val + 1) ≤ n.val := by
  decide

/-- A channel is delivered when the packets sent reach to its last. -/
theorem delivered_iff {outcomes : List (SpectrumResult × ℕ)}
    (hnodup : (outcomes.map fun o => o.1.timestampUs).Nodup) {o : SpectrumResult × ℕ}
    (ho : o ∈ outcomes) (hle : o.2 ≤ 8) (channel : Fin 2) :
    Delivered (writesOfRun outcomes) o.1 channel ↔ 4 * (channel.val + 1) ≤ o.2 := by
  have hmem : ∀ a, writeAt o.1 true a ∈ writesOfRun outcomes ↔ a ∈ plan.take o.2 := by
    intro a
    rw [← mem_writesOf (r := o.1), writesOfRun, List.mem_flatMap]
    constructor
    · rintro ⟨o', ho', h⟩
      have hts : o.1.timestampUs = o'.1.timestampUs := by
        rw [writesOf, List.mem_append, List.mem_map] at h
        rcases h with ⟨b, -, hb⟩ | h
        · exact (writeAt_injective hb).1.symm
        · obtain ⟨b, -, hb⟩ := Option.map_eq_some_iff.mp (Option.mem_toList.mp h)
          exact (writeAt_injective hb).1.symm
      have hsame : o = o' := List.inj_on_of_nodup_map hnodup ho ho' hts
      rwa [← hsame] at h
    · exact fun h => ⟨o, ho, h⟩
  simp only [Delivered, hmem]
  exact plan_take ⟨o.2, by omega⟩ channel

end SpectrumAnalyzer
