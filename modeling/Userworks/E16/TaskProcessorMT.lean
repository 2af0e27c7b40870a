import Mathlib.Algebra.Group.Nat.Hom
import Mathlib.Logic.Function.Basic
import Userworks.Lib.Lanes

/-!
Worker threads between a splitter and a merger, `src/e16/TaskProcessorMT.cxx`. The
splitter is the data handler of the device that owns the threads. Messages go round
the worker threads, and the merger collects what they make of them in the same round.
-/
namespace Userworks.E16

/-- What a worker thread has at hand. -/
inductive Payload (α β : Type) where
  | nothing
  | received (msg : α)
  | made (msg : β)

/-- A worker thread between the channel from the splitter and the channel to the merger. -/
structure Worker (α β : Type) where
  input : List α := []
  payload : Payload α β := .nothing
  output : List β := []

/-- The handlers of a device. While a stop is requested the merger's handler does nothing. -/
structure Handlers (ε σ α β : Type) where
  stopRequested : σ → Bool
  handleInput : α → β
  handleOutput : σ → β → Except ε σ
  stopped : ∀ d msg, stopRequested d = true → handleOutput d msg = .ok d

/-- The threads and the device. An exception that leaves a thread ends the process. -/
structure TaskProcessor (ε σ α β : Type) where
  device : Except ε σ
  fNReceived : Nat := 0
  fNOutput : Nat := 0
  sending : Option (Nat × α) := none
  workers : Nat → Worker α β := fun _ => {}
  newStatePending : Bool := false

/-- What can be seen of a step. -/
inductive Observation (α β : Type) where
  | dispatched (msg : α)
  | sent (i : Nat) (msg : β)
  | lost (i : Nat) (msg : β)
  | handled (msg : β)

namespace TaskProcessor

variable {ε σ α β : Type}

def setWorker (s : TaskProcessor ε σ α β) (i : Nat) (w : Worker α β) : TaskProcessor ε σ α β :=
  { s with workers := Function.update s.workers i w }

/-- One step of one of the threads. -/
inductive Step (h : Handlers ε σ α β) (fNThreads : Nat) :
    TaskProcessor ε σ α β → List (Observation α β) → TaskProcessor ε σ α β → Prop
  -- `HandleDataMT` and `HandleMultipartDataMT`
  | accept {s : TaskProcessor ε σ α β} {d : σ} (msg : α) (hdevice : s.device = .ok d)
      (hstop : h.stopRequested d = false) (hpending : s.newStatePending = false)
      (hsending : s.sending = none) :
      Step h fNThreads s []
        { s with
          fNReceived := (s.fNReceived + 1) % 2 ^ 64
          sending := some (s.fNReceived % fNThreads, msg) }
  | dispatch {s : TaskProcessor ε σ α β} {d : σ} {i : Nat} {msg : α} (hdevice : s.device = .ok d)
      (hsending : s.sending = some (i, msg)) :
      Step h fNThreads s [.dispatched msg]
        { s.setWorker i { s.workers i with input := (s.workers i).input ++ [msg] } with
          sending := none }
  -- in `HandleDataMT` only
  | giveUp {s : TaskProcessor ε σ α β} {d : σ} {i : Nat} {msg : α} (hdevice : s.device = .ok d)
      (hsending : s.sending = some (i, msg))
      (hstop : h.stopRequested d = true ∨ s.newStatePending = true) :
      Step h fNThreads s [] { s with sending := none }
  -- `RunWorkers`
  | receive {s : TaskProcessor ε σ α β} {d : σ} {i : Nat} {msg : α} {rest : List α}
      (hdevice : s.device = .ok d) (hpending : s.newStatePending = false)
      (hpayload : (s.workers i).payload = .nothing) (hinput : (s.workers i).input = msg :: rest) :
      Step h fNThreads s []
        (s.setWorker i { s.workers i with input := rest, payload := .received msg })
  | process {s : TaskProcessor ε σ α β} {d : σ} {i : Nat} {msg : α} (hdevice : s.device = .ok d)
      (hpayload : (s.workers i).payload = .received msg) (hstop : h.stopRequested d = false) :
      Step h fNThreads s []
        (s.setWorker i { s.workers i with payload := .made (h.handleInput msg) })
  | skip {s : TaskProcessor ε σ α β} {d : σ} {i : Nat} {msg : α} (hdevice : s.device = .ok d)
      (hpayload : (s.workers i).payload = .received msg) (hstop : h.stopRequested d = true) :
      Step h fNThreads s [] (s.setWorker i { s.workers i with payload := .nothing })
  | send {s : TaskProcessor ε σ α β} {d : σ} {i : Nat} {msg : β} (hdevice : s.device = .ok d)
      (hpayload : (s.workers i).payload = .made msg) :
      Step h fNThreads s [.sent i msg]
        (s.setWorker i
          { s.workers i with payload := .nothing, output := (s.workers i).output ++ [msg] })
  -- the answer of `Send` is not looked at
  | lose {s : TaskProcessor ε σ α β} {d : σ} {i : Nat} {msg : β} (hdevice : s.device = .ok d)
      (hpayload : (s.workers i).payload = .made msg) :
      Step h fNThreads s [.lost i msg] (s.setWorker i { s.workers i with payload := .nothing })
  -- `RunMerger`
  | merge {s : TaskProcessor ε σ α β} {d : σ} {msg : β} {rest : List β}
      (hdevice : s.device = .ok d) (hpending : s.newStatePending = false)
      (houtput : (s.workers (s.fNOutput % fNThreads)).output = msg :: rest) :
      Step h fNThreads s (if h.stopRequested d then [] else [.handled msg])
        { s.setWorker (s.fNOutput % fNThreads)
            { s.workers (s.fNOutput % fNThreads) with output := rest } with
          device := h.handleOutput d msg
          fNOutput := (s.fNOutput + 1) % 2 ^ 64 }
  | newState {s : TaskProcessor ε σ α β} :
      Step h fNThreads s [] { s with newStatePending := true }

/-- The states of a run that starts with the device in state `d`, with what was seen. -/
inductive Reachable (h : Handlers ε σ α β) (fNThreads : Nat) (d : σ) :
    List (Observation α β) → TaskProcessor ε σ α β → Prop
  | start : Reachable h fNThreads d [] { device := .ok d }
  | next {s s' : TaskProcessor ε σ α β} {os new : List (Observation α β)}
      (hreachable : Reachable h fNThreads d os s) (hstep : Step h fNThreads s new s') :
      Reachable h fNThreads d (os ++ new) s'

/-! ### What was seen -/

def dispatched (os : List (Observation α β)) : List α :=
  os.filterMap fun
    | .dispatched msg => some msg
    | _ => none

def handled (os : List (Observation α β)) : List β :=
  os.filterMap fun
    | .handled msg => some msg
    | _ => none

/-- The messages that worker `i` is done with, each with whether it was sent. -/
def attempts (i : Nat) (os : List (Observation α β)) : List (β × Bool) :=
  os.filterMap fun
    | .sent j msg => if j = i then some (msg, true) else none
    | .lost j msg => if j = i then some (msg, false) else none
    | _ => none

def delivered (i : Nat) (os : List (Observation α β)) : List β :=
  ((attempts i os).filter (·.2)).map (·.1)

/-- No worker failed to send. -/
def NoneLost (os : List (Observation α β)) : Prop := ∀ i msg, .lost i msg ∉ os

/-- The worker that message `k` goes to. -/
def turnOf (fNThreads k : Nat) : Nat := k % 2 ^ 64 % fNThreads

/-- What a worker has before it, in the order in which it will be done with it. -/
def waiting (h : Handlers ε σ α β) (w : Worker α β) : List β :=
  match w.payload with
  | .nothing => w.input.map h.handleInput
  | .received msg => h.handleInput msg :: w.input.map h.handleInput
  | .made msg => msg :: w.input.map h.handleInput

end TaskProcessor

end Userworks.E16
