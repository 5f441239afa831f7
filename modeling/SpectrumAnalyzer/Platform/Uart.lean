import SpectrumAnalyzer.Lib.Transition

/-!
# The UART transfer and its completion

`platform_uart_write_dma`, statement by statement, and `HAL_UART_TxCpltCallback`, which
may run between any two of them.  The HAL starts a transfer only when none is in
progress; a transfer is in progress until its callback runs or it is aborted.  The
notification count of the task outlives the call that waits on it.

A callback that runs after the wait of its call has timed out and before the call has
cleared `uart_waiter` leaves a notification for the next call.
`returns_own_transfer` says that this is the only way to a wrong return value.

## Main definitions

* `Uart`, `Uart.step` — the task, the peripheral and the callback.
* `Return` — what a call returned, and whether its transfer was complete then.
* `Uart.Prompt` — no callback between a timeout and the clearing of the waiter.
-/

namespace SpectrumAnalyzer

/-- Where the telemetry task stands in `platform_uart_write_dma`. -/
inductive WritePc where
  /-- Outside the function. -/
  | outside
  /-- The arguments have been accepted. -/
  | entered
  /-- `uart_waiter` is set. -/
  | armed
  /-- `HAL_UART_Transmit_DMA` has failed. -/
  | refused
  /-- The transfer is started. -/
  | started
  /-- `completed` is known. -/
  | taken (completed : Bool)
  /-- `uart_waiter` is cleared again. -/
  | cleared (completed : Bool)
  deriving DecidableEq, Repr

/-- What a call returned.  `transferDone` is not part of the program: it records whether
the transfer that the call had started was complete at its return. -/
structure Return where
  call : ℕ
  completed : Bool
  transferDone : Bool
  deriving DecidableEq, Repr

/-- The state shared by the task, the peripheral and the callback.  A transfer bears the
number of the call that started it; `call`, `done` and `returns` are kept for the record. -/
structure Uart where
  pc : WritePc
  uartWaiter : Bool
  notifications : UInt32
  transfer : Option ℕ
  call : ℕ
  done : List ℕ
  returns : List Return
  deriving DecidableEq, Repr

/-- One statement of the function, or the callback. -/
inductive UartAction where
  /-- A call; it is rejected when the arguments are bad. -/
  | call (argumentsOk : Bool)
  | setWaiter
  /-- `HAL_UART_Transmit_DMA` and its result. -/
  | transmit (ok : Bool)
  /-- The failed call clears the waiter and returns. -/
  | refuse
  /-- `ulTaskNotifyTake`: a timeout when the count is zero. -/
  | take
  | clearWaiter
  /-- Abort the transfer after a timeout, and return. -/
  | finish
  /-- The transfer completes and `HAL_UART_TxCpltCallback` runs. -/
  | callback
  deriving DecidableEq, Repr

namespace Uart

/-- Before the first call. -/
def init : Uart := ⟨.outside, false, 0, none, 0, [], []⟩

/-- The end of a call. -/
def leave (u : Uart) (completed : Bool) : Uart :=
  { u with
    pc := .outside
    returns := u.returns ++ [⟨u.call, completed, decide (u.call ∈ u.done)⟩] }

/-- `HAL_UART_TxCpltCallback` for the transfer of call `n`. -/
def txCpltCallback (u : Uart) (n : ℕ) : Uart :=
  { u with
    transfer := none
    done := n :: u.done
    notifications := if u.uartWaiter then u.notifications + 1 else u.notifications }

/-- `platform_uart_write_dma` and the callback, in any order. -/
def step (u : Uart) : UartAction → Option Uart
  | .call argumentsOk =>
      if u.pc = .outside then
        if argumentsOk then some { u with pc := .entered, call := u.call + 1 }
        else some (leave { u with call := u.call + 1 } false)
      else none
  | .setWaiter => if u.pc = .entered then some { u with pc := .armed, uartWaiter := true } else none
  | .transmit ok =>
      if u.pc = .armed then
        if ok then
          if u.transfer = none then some { u with pc := .started, transfer := some u.call }
          else none
        else some { u with pc := .refused }
      else none
  | .refuse =>
      if u.pc = .refused then some (leave { u with uartWaiter := false } false) else none
  | .take =>
      if u.pc = .started then
        some { u with pc := .taken (u.notifications ≠ 0), notifications := 0 }
      else none
  | .clearWaiter =>
      match u.pc with
      | .taken completed => some { u with pc := .cleared completed, uartWaiter := false }
      | _ => none
  | .finish =>
      match u.pc with
      | .cleared completed =>
          some (leave (if completed then u else { u with transfer := none }) completed)
      | _ => none
  | .callback => u.transfer.map u.txCpltCallback

/-! ## Transfers and their calls -/

/-- No callback runs while a call that has timed out still has the waiter set. -/
def Prompt (u : Uart) (a : UartAction) : Prop := a = .callback → u.pc ≠ .taken false

/-- Transfer and notification at each statement, as long as no notification has leaked. -/
def Settled (u : Uart) : Prop :=
  match u.pc with
  | .started =>
      u.transfer = some u.call ∧ u.notifications = 0 ∨ u.transfer = none ∧ u.call ∈ u.done
  | .taken true => u.transfer = none ∧ u.notifications = 0 ∧ u.call ∈ u.done
  | .taken false => u.notifications = 0
  | .cleared true => u.transfer = none ∧ u.notifications = 0 ∧ u.call ∈ u.done
  | .cleared false => u.notifications = 0 ∧ u.uartWaiter = false
  | _ => u.transfer = none ∧ u.notifications = 0

/-- Every call that returned true had completed its own transfer. -/
def Honest (u : Uart) : Prop := ∀ r ∈ u.returns, r.completed = true → r.transferDone = true

theorem honest_leave {u : Uart} (h : u.Honest) {completed : Bool}
    (hdone : completed = true → u.call ∈ u.done) : (u.leave completed).Honest := by
  intro r hr hc
  rcases List.mem_append.mp hr with hr | hr
  · exact h r hr hc
  · rw [List.mem_singleton.mp hr] at hc ⊢
    exact decide_eq_true (hdone hc)

/-- The callback, wherever it is prompt. -/
theorem settled_callback {u : Uart} {n : ℕ} (h : u.Settled) (hn : u.transfer = some n)
    (hprompt : u.pc ≠ .taken false) : (u.txCpltCallback n).Settled := by
  cases hpc : u.pc with
  | outside => simp [Settled, hpc, hn] at h
  | entered => simp [Settled, hpc, hn] at h
  | armed => simp [Settled, hpc, hn] at h
  | refused => simp [Settled, hpc, hn] at h
  | started =>
      simp only [Settled, hpc, hn, Option.some.injEq, reduceCtorEq, false_and, or_false] at h
      simp only [Settled, txCpltCallback, hpc, reduceCtorEq, false_and, true_and, false_or]
      rw [h.1]
      exact List.mem_cons_self
  | taken completed =>
      cases completed with
      | true => simp [Settled, hpc, hn] at h
      | false => exact absurd hpc hprompt
  | cleared completed =>
      cases completed with
      | true => simp [Settled, hpc, hn] at h
      | false =>
          simp only [Settled, hpc] at h
          simp [Settled, txCpltCallback, hpc, h]

/-- One step, wherever callbacks are prompt. -/
theorem settled_step {u u' : Uart} {a : UartAction} (h : u.Settled ∧ u.Honest)
    (hprompt : u.Prompt a) (hstep : u.step a = some u') : u'.Settled ∧ u'.Honest := by
  obtain ⟨hs, hh⟩ := h
  cases a with
  | call argumentsOk =>
      simp only [step] at hstep
      split at hstep
      · next hpc =>
          simp only [Settled, hpc] at hs
          split at hstep <;> cases hstep
          · exact ⟨hs, hh⟩
          · exact ⟨hs, honest_leave (u := { u with call := u.call + 1 }) hh (by simp)⟩
      · cases hstep
  | setWaiter =>
      simp only [step, Option.ite_none_right_eq_some, Option.some.injEq] at hstep
      obtain ⟨hpc, rfl⟩ := hstep
      simp only [Settled, hpc] at hs
      exact ⟨hs, hh⟩
  | transmit ok =>
      simp only [step] at hstep
      split at hstep
      · next hpc =>
          simp only [Settled, hpc] at hs
          split at hstep
          · split at hstep <;> cases hstep
            exact ⟨.inl ⟨rfl, hs.2⟩, hh⟩
          · cases hstep
            exact ⟨hs, hh⟩
      · cases hstep
  | refuse =>
      simp only [step, Option.ite_none_right_eq_some, Option.some.injEq] at hstep
      obtain ⟨hpc, rfl⟩ := hstep
      simp only [Settled, hpc] at hs
      exact ⟨hs, honest_leave (u := { u with uartWaiter := false }) hh (by simp)⟩
  | take =>
      simp only [step, Option.ite_none_right_eq_some, Option.some.injEq] at hstep
      obtain ⟨hpc, rfl⟩ := hstep
      refine ⟨?_, hh⟩
      simp only [Settled, hpc] at hs
      by_cases hn : u.notifications = 0
      · simp [Settled, hn]
      · -- the count can only come from the callback of this call
        simp only [hn, and_false, false_or] at hs
        simpa [Settled, hn] using hs
  | clearWaiter =>
      simp only [step] at hstep
      split at hstep
      · next completed hpc =>
          cases hstep
          refine ⟨?_, hh⟩
          cases completed with
          | true =>
              simp only [Settled, hpc] at hs
              exact hs
          | false =>
              simp only [Settled, hpc] at hs
              exact ⟨hs, rfl⟩
      · cases hstep
  | finish =>
      simp only [step] at hstep
      split at hstep
      · next completed hpc =>
          cases hstep
          cases completed with
          | true =>
              simp only [Settled, hpc] at hs
              exact ⟨⟨hs.1, hs.2.1⟩, honest_leave hh fun _ => hs.2.2⟩
          | false =>
              simp only [Settled, hpc] at hs
              exact ⟨⟨rfl, hs.1⟩, honest_leave (u := { u with transfer := none }) hh (by simp)⟩
      · cases hstep
  | callback =>
      simp only [step, Option.map_eq_some_iff] at hstep
      obtain ⟨n, hn, rfl⟩ := hstep
      exact ⟨settled_callback hs hn (hprompt rfl), hh⟩

/-- **Whose transfer a call returns.**  In every run in which no callback falls between
a timeout and the clearing of the waiter, each call that returns true has completed the
transfer it started. -/
theorem returns_own_transfer {actions : List UartAction} {u : Uart}
    (hprompt : Transition.Always step Prompt init actions)
    (hrun : Transition.run step init actions = some u) :
    ∀ r ∈ u.returns, r.completed = true → r.transferDone = true := by
  have h0 : init.Settled ∧ init.Honest := ⟨⟨rfl, rfl⟩, fun r hr => nomatch hr⟩
  exact (Transition.run_invariant_of step (fun _ _ _ h hp hs => settled_step h hp hs) h0 hprompt
    hrun).2

/-- Two calls, the first timing out, the second completing. -/
def promptRun : List UartAction :=
  [.call true, .setWaiter, .transmit true, .take, .clearWaiter, .finish,
    .call true, .setWaiter, .transmit true, .callback, .take, .clearWaiter, .finish]

theorem returns_own_transfer_prompt :
    ∃ u, Transition.run step init promptRun = some u ∧ u.returns = [⟨1, false, false⟩,
      ⟨2, true, true⟩] ∧ ∀ r ∈ u.returns, r.completed = true → r.transferDone = true := by
  have hrun : Transition.run step init promptRun =
      some ⟨.outside, false, 0, none, 2, [2], [⟨1, false, false⟩, ⟨2, true, true⟩]⟩ := by decide
  have hprompt : Transition.Always step Prompt init promptRun := by
    simp [promptRun, Transition.Always, Prompt, step, init, leave, txCpltCallback]
  exact ⟨_, hrun, rfl, returns_own_transfer hprompt hrun⟩

/-- The first call times out; its callback runs before the waiter is cleared, and the
second call takes the notification for its own. -/
def leakedRun : List UartAction :=
  [.call true, .setWaiter, .transmit true, .take, .callback, .clearWaiter, .finish,
    .call true, .setWaiter, .transmit true, .take, .clearWaiter, .finish]

/-- A call returns true while its own transfer is in progress. -/
theorem returns_transfer_of_another :
    ¬ ∀ actions u, Transition.run step init actions = some u →
      ∀ r ∈ u.returns, r.completed = true → r.transferDone = true := by
  intro h
  have hrun : Transition.run step init leakedRun =
      some ⟨.outside, false, 0, some 2, 2, [1], [⟨1, false, true⟩, ⟨2, true, false⟩]⟩ := by decide
  exact absurd (h _ _ hrun ⟨2, true, false⟩ (by simp) rfl) (by decide)

end Uart

end SpectrumAnalyzer
