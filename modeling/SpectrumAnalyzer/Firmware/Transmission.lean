import SpectrumAnalyzer.Firmware.Provenance
import SpectrumAnalyzer.Host.EndToEnd

/-!
# What the running system has sent

`telemetry_task` of the running system takes results from a queue that `dsp_task` overwrites
while packets are still on their way.  Whatever the order of the steps and whichever UART
calls fail, the bytes on the wire are those of a list of outcomes: results in the order of
their publication, some left out, each with the number of its packets that were sent.

## Main definitions

* `deliveredResults` — the results that the log records as delivered.
* `TransmitStep` — what a step does to result queue, sender and wire.
* `Transmitted` — the invariant.
* `Reachable.transmitted` — the outcomes of every run.
-/

namespace SpectrumAnalyzer

/-- A result all of whose packets were sent. -/
def Event.delivered? : Event → Option SpectrumResult
  | .delivered result => some result
  | _ => none

/-- The delivered results, in order. -/
def deliveredResults (log : List Event) : List SpectrumResult := log.filterMap Event.delivered?

theorem deliveredResults_snoc (log : List Event) (e : Event) :
    deliveredResults (log ++ [e]) = deliveredResults log ++ e.delivered?.toList := by
  cases e <;> simp [deliveredResults, Event.delivered?]

/-! ## Packets -/

theorem packetsOfRun_append (sequence : UInt16) (xs ys : List (SpectrumResult × ℕ)) :
    packetsOfRun sequence (xs ++ ys) = packetsOfRun sequence xs ++
      packetsOfRun (sequence + UInt16.ofNat (xs.map Prod.snd).sum) ys := by
  induction xs generalizing sequence with
  | nil => simp [packetsOfRun]
  | cons x xs ih =>
      rw [List.cons_append, packetsOfRun, packetsOfRun, ih, List.map_cons, List.sum_cons,
        UInt16.ofNat_add, UInt16.add_assoc, List.append_assoc]

/-- One packet more of the last result. -/
theorem packetsOfRun_snoc_succ (before : List (SpectrumResult × ℕ)) (result : SpectrumResult)
    {n : ℕ} {address : Fin 2 × Fin 4} {rest : List (Fin 2 × Fin 4)}
    (hplan : plan.drop n = address :: rest) :
    packetsOfRun 0 (before ++ [(result, n + 1)]) = packetsOfRun 0 (before ++ [(result, n)]) ++
      [packetAt (UInt16.ofNat ((before ++ [(result, n)]).map Prod.snd).sum) result address] := by
  have hlt : n < plan.length := by
    by_contra hge
    rw [List.drop_eq_nil_of_le (not_lt.mp hge)] at hplan
    cases hplan
  have haddress : plan[n] = address := by
    rw [List.drop_eq_getElem_cons hlt] at hplan
    exact (List.cons.inj hplan).1
  have htake : plan.take (n + 1) = plan.take n ++ [address] := by
    rw [List.take_add_one, List.getElem?_eq_getElem hlt, haddress]
    rfl
  have hlength : (plan.take n).length = n := Host.length_plan_take (Nat.le_of_lt hlt)
  simp only [packetsOfRun_append, packetsOfRun, htake, Host.packetsOf_append, hlength,
    List.append_nil, List.append_assoc, List.map_append, List.sum_append, List.map_cons,
    List.map_nil, List.sum_singleton, UInt16.ofNat_add, UInt16.zero_add]
  rw [packetsOf, packetsOf]

namespace Firmware
variable {env : Environment} {s s' : Firmware}

/-! ## The steps -/

/-- What a step does to result queue, sender and wire. -/
inductive TransmitStep (s s' : Firmware) : Prop where
  | offer {result : SpectrumResult}
      (hpublished : publishedResults s'.log = publishedResults s.log ++ [result])
      (hdelivered : deliveredResults s'.log = deliveredResults s.log)
      (hqueue : s'.resultQueue = some result) (htelemetry : s'.telemetry = s.telemetry)
      (hsender : s'.sender = s.sender)
  | take {result : SpectrumResult} (hlog : s'.log = s.log)
      (hqueue : s.resultQueue = some result) (hqueue' : s'.resultQueue = none)
      (hpc : s'.telemetry = .sending result plan) (hsender : s'.sender = s.sender)
  | send {result : SpectrumResult} {address : Fin 2 × Fin 4} {rest : List (Fin 2 × Fin 4)}
      (hlog : s'.log = s.log) (hqueue : s'.resultQueue = s.resultQueue)
      (hpc : s.telemetry = .sending result (address :: rest))
      (hpc' : s'.telemetry = .sending result rest)
      (hsequence : s'.sender.sequence = s.sender.sequence + 1)
      (hwire : s'.sender.wire =
        s.sender.wire ++ (packetAt s.sender.sequence result address).wire)
  | finish {result : SpectrumResult} (hlog : s'.log = s.log ++ [.delivered result])
      (hqueue : s'.resultQueue = s.resultQueue) (hpc : s.telemetry = .sending result [])
      (hpc' : s'.telemetry = .kicking) (hsender : s'.sender = s.sender)
  | pass (hpublished : publishedResults s'.log = publishedResults s.log)
      (hdelivered : deliveredResults s'.log = deliveredResults s.log)
      (hqueue : s'.resultQueue = s.resultQueue)
      (htelemetry : s'.telemetry = s.telemetry ∨
        ∀ result todo, s'.telemetry ≠ .sending result todo)
      (hsequence : s'.sender.sequence = s.sender.sequence)
      (hwire : s'.sender.wire = s.sender.wire)

theorem transmitStep_telemetry {written : Bool} (h : TelemetryStep written s s') :
    TransmitStep s s' := by
  cases h with
  | idle => exact .pass rfl rfl rfl (.inl rfl) rfl rfl
  | begin hpc hqueue => exact .take rfl hqueue rfl rfl rfl
  | finish hpc => exact .finish rfl rfl hpc rfl rfl
  | send hpc hsent =>
      rw [sendChunk_eq] at hsent
      cases written with
      | false => cases hsent
      | true =>
          cases hsent
          exact .send rfl rfl hpc rfl rfl rfl
  | fail hpc hsent =>
      rw [sendChunk_eq] at hsent
      cases written with
      | true => cases hsent
      | false =>
          cases hsent
          exact .pass rfl rfl rfl (.inr nofun) rfl rfl
  | flag => exact .pass rfl rfl rfl (.inr nofun) rfl rfl
  | kick =>
      refine .pass ?_ ?_ rfl (.inr nofun) rfl rfl
      · simp [healthKick, publishedResults_snoc, Event.result?]
      · simp [healthKick, deliveredResults_snoc, Event.delivered?]

/-- A step of another task that only adds an event to the log. -/
theorem transmitStep_event {e : Event} (hlog : s'.log = s.log ++ [e]) (hresult : e.result? = none)
    (hdelivered : e.delivered? = none) (hqueue : s'.resultQueue = s.resultQueue)
    (htelemetry : s'.telemetry = s.telemetry) (hsender : s'.sender = s.sender) :
    TransmitStep s s' := by
  refine .pass ?_ ?_ hqueue (.inl htelemetry) (by rw [hsender]) (by rw [hsender])
  · rw [hlog, publishedResults_snoc, hresult]
    exact List.append_nil _
  · rw [hlog, deliveredResults_snoc, hdelivered]
    exact List.append_nil _

theorem transmitStep_dsp (h : DspStep s s') : TransmitStep s s' := by
  cases h with
  | receive => exact transmitStep_event rfl rfl rfl rfl rfl rfl
  | accept => exact transmitStep_event rfl rfl rfl rfl rfl rfl
  | kick => exact transmitStep_event rfl rfl rfl rfl rfl rfl
  | publish => exact .offer (publishedResults_snoc _ _) (by
      rw [deliveredResults_snoc]
      exact List.append_nil _) rfl rfl rfl
  | _ => exact .pass rfl rfl rfl (.inl rfl) rfl rfl

theorem transmitStep_acquisition {now : UInt32} (h : AcquisitionStep now s s') :
    TransmitStep s s' := by
  cases h with
  | take => exact transmitStep_event rfl rfl rfl rfl rfl rfl
  | snapshot => exact transmitStep_event rfl rfl rfl rfl rfl rfl
  | kick => exact transmitStep_event rfl rfl rfl rfl rfl rfl
  | _ => exact .pass rfl rfl rfl (.inl rfl) rfl rfl

theorem transmitStep_of_step {a : Action} (h : step env s a = some s') : TransmitStep s s' := by
  cases actionStep_of_step h with
  | dmaStore => exact .pass rfl rfl rfl (.inl rfl) rfl rfl
  | adcCallback => exact .pass rfl rfl rfl (.inl rfl) rfl rfl
  | adcError => exact transmitStep_event rfl rfl rfl rfl rfl rfl
  | acquisition hstep => exact transmitStep_acquisition hstep
  | dsp hstep => exact transmitStep_dsp hstep
  | telemetry hstep => exact transmitStep_telemetry hstep
  | watchdog hstep =>
      cases hstep with
      | sample => exact transmitStep_event rfl rfl rfl rfl rfl rfl
      | feed => exact transmitStep_event rfl rfl rfl rfl rfl rfl
      | withhold => exact .pass rfl rfl rfl (.inl rfl) rfl rfl

/-! ## The invariant -/

/-- The results all of whose packets were sent. -/
def wholeResults (outcomes : List (SpectrumResult × ℕ)) : List SpectrumResult :=
  (outcomes.filter fun o => o.2 = 8).map Prod.fst

theorem wholeResults_sublist (xs ys : List (SpectrumResult × ℕ)) :
    (wholeResults xs).Sublist (wholeResults (xs ++ ys)) := by
  simp [wholeResults]

/-- The wire holds the packets of `outcomes`: results taken from the queue, each with the
number of its packets sent. -/
structure Transmitted (s : Firmware) (outcomes : List (SpectrumResult × ℕ)) : Prop where
  taken : (outcomes.map Prod.fst ++ s.resultQueue.toList).Sublist (publishedResults s.log)
  le : ∀ o ∈ outcomes, o.2 ≤ 8
  sequence : s.sender.sequence = UInt16.ofNat (outcomes.map Prod.snd).sum
  wire : s.sender.wire = (packetsOfRun 0 outcomes).flatMap Packet.wire
  sending : ∀ result todo, s.telemetry = .sending result todo →
    ∃ before n, outcomes = before ++ [(result, n)] ∧ todo = plan.drop n
  delivered : (deliveredResults s.log).Sublist (wholeResults outcomes)
  current : ∀ result todo, s.telemetry = .sending result todo →
    (deliveredResults s.log).Sublist (wholeResults outcomes.dropLast)

theorem transmitted_init : Transmitted (init env) [] where
  taken := List.nil_sublist _
  le := nofun
  sequence := rfl
  wire := rfl
  sending := nofun
  delivered := List.nil_sublist _
  current := fun _ _ _ => List.nil_sublist _

/-- One more packet of the result that is being sent. -/
theorem Transmitted.send {outcomes : List (SpectrumResult × ℕ)} (h : Transmitted s outcomes)
    {result : SpectrumResult} {address : Fin 2 × Fin 4} {rest : List (Fin 2 × Fin 4)}
    (hlog : s'.log = s.log) (hqueue : s'.resultQueue = s.resultQueue)
    (hpc : s.telemetry = .sending result (address :: rest))
    (hpc' : s'.telemetry = .sending result rest)
    (hsequence : s'.sender.sequence = s.sender.sequence + 1)
    (hwire : s'.sender.wire =
      s.sender.wire ++ (packetAt s.sender.sequence result address).wire) :
    ∃ outcomes', Transmitted s' outcomes' := by
  obtain ⟨before, n, rfl, hplan⟩ := h.sending result _ hpc
  have hlt : n < 8 := by
    by_contra hge
    have hlength : plan.length ≤ n := not_lt.mp hge
    rw [List.drop_eq_nil_of_le hlength] at hplan
    cases hplan
  have hcurrent := h.current result _ hpc
  rw [List.dropLast_concat] at hcurrent
  refine ⟨before ++ [(result, n + 1)], ?_, ?_, ?_, ?_, ?_, ?_, ?_⟩
  · rw [hlog, hqueue]
    simpa using h.taken
  · intro o ho
    rcases List.mem_append.mp ho with ho | ho
    · exact h.le o (List.mem_append_left _ ho)
    · rw [List.mem_singleton.mp ho]
      exact hlt
  · rw [hsequence, h.sequence, List.map_append, List.map_append, List.sum_append, List.sum_append]
    simp only [List.map_cons, List.map_nil, List.sum_singleton, ← Nat.add_assoc]
    rw [UInt16.ofNat_add _ 1]
    rfl
  · rw [hwire, h.wire, packetsOfRun_snoc_succ before result hplan.symm, h.sequence,
      List.flatMap_append]
    simp
  · intro r todo hr
    cases hpc'.symm.trans hr
    refine ⟨before, n + 1, rfl, ?_⟩
    rw [← List.drop_drop, ← hplan]
    rfl
  · rw [hlog]
    exact hcurrent.trans (wholeResults_sublist _ _)
  · intro r todo hr
    rw [hlog, List.dropLast_concat]
    exact hcurrent

theorem transmitted_step {outcomes : List (SpectrumResult × ℕ)} (h : Transmitted s outcomes)
    (hstep : TransmitStep s s') : ∃ outcomes', Transmitted s' outcomes' := by
  cases hstep with
  | offer hpublished hdelivered hqueue htelemetry hsender =>
      refine ⟨outcomes, ?_, h.le, by rw [hsender, h.sequence], by rw [hsender, h.wire], ?_, ?_,
        ?_⟩
      · rw [hpublished, hqueue]
        exact ((List.sublist_append_left _ _).trans h.taken).append (List.Sublist.refl _)
      · rw [htelemetry]
        exact h.sending
      · rw [hdelivered]
        exact h.delivered
      · rw [hdelivered, htelemetry]
        exact h.current
  | @take result hlog hqueue hqueue' hpc hsender =>
      have htaken := h.taken
      rw [hqueue] at htaken
      refine ⟨outcomes ++ [(result, 0)], ?_, ?_, ?_, ?_, ?_, ?_, ?_⟩
      · rw [hlog, hqueue']
        simpa using htaken
      · intro o ho
        rcases List.mem_append.mp ho with ho | ho
        · exact h.le o ho
        · rw [List.mem_singleton.mp ho]
          exact Nat.zero_le _
      · rw [hsender, h.sequence]
        simp
      · rw [hsender, h.wire, packetsOfRun_append]
        simp [packetsOfRun, packetsOf]
      · intro r todo hr
        cases hpc.symm.trans hr
        exact ⟨outcomes, 0, rfl, rfl⟩
      · rw [hlog]
        exact h.delivered.trans (wholeResults_sublist _ _)
      · intro r todo hr
        rw [hlog, List.dropLast_concat]
        exact h.delivered
  | send hlog hqueue hpc hpc' hsequence hwire =>
      exact h.send hlog hqueue hpc hpc' hsequence hwire
  | @finish result hlog hqueue hpc hpc' hsender =>
      obtain ⟨before, n, hbefore, hplan⟩ := h.sending result [] hpc
      have hle := h.le (result, n) (by simp [hbefore])
      have hfull : plan.length ≤ n := List.drop_eq_nil_iff.mp hplan.symm
      obtain rfl : n = 8 := le_antisymm hle hfull
      refine ⟨outcomes, ?_, h.le, by rw [hsender, h.sequence], by rw [hsender, h.wire], ?_, ?_,
        ?_⟩
      · rw [hlog, publishedResults_snoc, hqueue]
        simpa [Event.result?] using h.taken
      · intro r todo hr
        cases hpc'.symm.trans hr
      · have hcurrent := h.current result [] hpc
        rw [hbefore, List.dropLast_concat] at hcurrent
        rw [hlog, deliveredResults_snoc, hbefore]
        simpa [wholeResults, Event.delivered?] using hcurrent.append (List.Sublist.refl [result])
      · intro r todo hr
        cases hpc'.symm.trans hr
  | pass hpublished hdelivered hqueue htelemetry hsequence hwire =>
      refine ⟨outcomes, ?_, h.le, by rw [hsequence, h.sequence], by rw [hwire, h.wire], ?_, ?_,
        ?_⟩
      · rw [hpublished, hqueue]
        exact h.taken
      · intro r todo hr
        rcases htelemetry with htelemetry | hnot
        · exact h.sending r todo (htelemetry.symm.trans hr)
        · exact absurd hr (hnot r todo)
      · rw [hdelivered]
        exact h.delivered
      · intro r todo hr
        rw [hdelivered]
        rcases htelemetry with htelemetry | hnot
        · exact h.current r todo (htelemetry.symm.trans hr)
        · exact absurd hr (hnot r todo)

theorem Transmitted.mem_of_delivered {outcomes : List (SpectrumResult × ℕ)}
    (h : Transmitted s outcomes) {result : SpectrumResult}
    (hresult : result ∈ deliveredResults s.log) : (result, 8) ∈ outcomes := by
  simpa [wholeResults] using h.delivered.subset hresult

theorem Reachable.transmitted (hs : Reachable env s) : ∃ outcomes, Transmitted s outcomes := by
  obtain ⟨actions, hrun⟩ := hs
  refine Transition.run_invariant (step env) (I := fun s => ∃ outcomes, Transmitted s outcomes) ?_
    ⟨[], transmitted_init⟩ hrun
  intro s a s' h hstep
  obtain ⟨outcomes, h⟩ := h
  exact transmitted_step h (transmitStep_of_step hstep)

end Firmware

end SpectrumAnalyzer
