import Nt365.Library.LuaString
import Mathlib.Logic.Relation

/-!
# The cooperative scheduler

`nt.term.sched` runs tasks, which are coroutines, one at a time. A task that cannot go on yields: `Chan:read` and `Mbox:get`
park it in the reader slot of an empty channel or mailbox, `await` puts it on the list of kernel waits, and `pass` at
the end of the ready list. A write, a put or a close takes the reader out of the slot and makes it ready; it then
looks again whether there is anything for it.

## The model

A state is that of the scheduler with its channels and mailboxes, between two calls of a task. What a task is suspended in is
its `Control`; when it runs its own code it makes any call it likes, so that every program is covered. The
`log` records what the calls on channels and mailboxes returned, in order. The values a task is resumed with are left
out. Messages are the values other than `nil`, and no `max` is negative.
-/

namespace Nt365.Term

open Nt365.Library

namespace Sched

abbrev Task := ℕ

structure Chan (Byte : Type) where
  buf : List (List Byte)
  n : ℕ
  reader : Option Task
  closed : Bool

structure Mbox (Msg : Type) where
  q : ℕ → Option Msg
  -- next index to read
  head : ℕ
  -- last index written
  tail : ℕ
  reader : Option Task
  closed : Bool

/-- Where a reader can be parked. -/
inductive Slot where
  | chan (c : ℕ)
  | mbox (m : ℕ)
deriving DecidableEq

/-- What a suspended task does when it is resumed: it goes on with its own code, or from the yield in a read or a
get. -/
inductive Control where
  | goOn
  | read (c : ℕ) (max : Option ℕ)
  | get (m : ℕ)

inductive Event (Byte Msg : Type) where
  | wrote (c : ℕ) (data : List Byte)
  | read (c : ℕ) (result : Option (List Byte))
  | closedChan (c : ℕ)
  | put (m : ℕ) (item : Msg)
  | got (m : ℕ) (result : Option Msg)
  | closedMbox (m : ℕ)

structure State (Byte Msg Handle : Type) where
  ready : List Task
  kwaits : List (Handle × Task)
  live : ℕ
  current : Option Task
  stopped : Bool
  chans : ℕ → Chan Byte
  mboxes : ℕ → Mbox Msg
  -- the coroutines that are not dead, and the next new one
  alive : List Task
  fresh : Task
  control : Task → Control
  log : List (Event Byte Msg)

variable {Byte Msg Handle : Type}

/-- `Sched:channel()`. -/
def newChan : Chan Byte := ⟨[], 0, none, false⟩

/-- `Sched:mailbox()`. -/
def newMbox : Mbox Msg := ⟨fun _ => none, 1, 0, none, false⟩

/-- `M.new()`, with the channels and mailboxes that will be made on it. -/
def new : State Byte Msg Handle :=
  ⟨[], [], 0, none, false, fun _ => newChan, fun _ => newMbox, [], 0, fun _ => .goOn, []⟩

namespace State

def setChan (c : ℕ) (ch : Chan Byte) (s : State Byte Msg Handle) : State Byte Msg Handle :=
  { s with chans := Function.update s.chans c ch }

def setMbox (m : ℕ) (mb : Mbox Msg) (s : State Byte Msg Handle) : State Byte Msg Handle :=
  { s with mboxes := Function.update s.mboxes m mb }

def logging (e : Event Byte Msg) (s : State Byte Msg Handle) : State Byte Msg Handle :=
  { s with log := s.log ++ [e] }

/-- The `reader` field of a channel or mailbox. -/
def readerOf (s : State Byte Msg Handle) : Slot → Option Task
  | .chan c => (s.chans c).reader
  | .mbox m => (s.mboxes m).reader

def setReader (σ : Slot) (reader : Option Task) (s : State Byte Msg Handle) : State Byte Msg Handle :=
  match σ with
  | .chan c => s.setChan c { s.chans c with reader := reader }
  | .mbox m => s.setMbox m { s.mboxes m with reader := reader }

/-- `Sched:_enqueue` and `Sched:wake`. -/
def enqueue (co : Task) (s : State Byte Msg Handle) : State Byte Msg Handle :=
  { s with ready := s.ready ++ [co] }

/-- The end of a write, a put or a close: a parked reader is woken. -/
def wakeReader (σ : Slot) (s : State Byte Msg Handle) : State Byte Msg Handle :=
  match s.readerOf σ with
  | none => s
  | some co => (s.setReader σ none).enqueue co

/-- The yield of a read or a get: `_dispatch` leaves the task parked. -/
def park (σ : Slot) (control : Control) (co : Task) (s : State Byte Msg Handle) : State Byte Msg Handle :=
  { s.setReader σ (some co) with
    control := Function.update s.control co control
    current := none }

/-- `Sched:spawn`. -/
def spawn (s : State Byte Msg Handle) : State Byte Msg Handle :=
  { s.enqueue s.fresh with
    live := s.live + 1
    alive := s.alive ++ [s.fresh]
    fresh := s.fresh + 1
    control := Function.update s.control s.fresh .goOn }

end State

/-! ### Channels -/

/-- `drain`. -/
def Chan.drain (ch : Chan Byte) (max : Option ℕ) : List Byte × Chan Byte :=
  let data := ch.buf.flatten
  match max with
  | none => (data, { ch with buf := [], n := 0 })
  | some max =>
    if max < data.length then
      let rest := LuaString.sub data (max + 1) (-1)
      (LuaString.sub data 1 max, { ch with buf := [rest], n := rest.length })
    else (data, { ch with buf := [], n := 0 })

namespace State

/-- `Chan:read` by task `co` from the test of its loop on. A second reader gets an error and goes on. -/
def chanRead (c : ℕ) (max : Option ℕ) (co : Task) (s : State Byte Msg Handle) : State Byte Msg Handle :=
  let ch := s.chans c
  if ch.n = 0 then
    if ch.closed then s.logging (.read c none)
    else if ch.reader.isSome ∧ ch.reader ≠ some co then s
    else s.park (.chan c) (.read c max) co
  else
    let (data, ch') := { ch with reader := none }.drain max
    (s.setChan c ch').logging (.read c (some data))

/-- `Chan:write`. On a closed channel it raises an error. -/
def chanWrite (c : ℕ) (data : List Byte) (s : State Byte Msg Handle) : State Byte Msg Handle :=
  let ch := s.chans c
  if ch.closed then s
  else if data = [] then s.logging (.wrote c data)
  else
    ((s.setChan c { ch with buf := ch.buf ++ [data], n := ch.n + data.length }).logging
      (.wrote c data)).wakeReader (.chan c)

/-- `Chan:close`. -/
def chanClose (c : ℕ) (s : State Byte Msg Handle) : State Byte Msg Handle :=
  let ch := s.chans c
  if ch.closed then s
  else ((s.setChan c { ch with closed := true }).logging (.closedChan c)).wakeReader (.chan c)

/-! ### Mailboxes -/

/-- `Mbox:get` by task `co` from the test of its loop on. -/
def mboxGet (m : ℕ) (co : Task) (s : State Byte Msg Handle) : State Byte Msg Handle :=
  let mb := s.mboxes m
  if mb.tail < mb.head then
    if mb.closed then s.logging (.got m none)
    else if mb.reader.isSome ∧ mb.reader ≠ some co then s
    else s.park (.mbox m) (.get m) co
  else
    (s.setMbox m
      { mb with reader := none, head := mb.head + 1, q := Function.update mb.q mb.head none }).logging
        (.got m (mb.q mb.head))

/-- `Mbox:put`. On a closed mailbox it does nothing. -/
def mboxPut (m : ℕ) (item : Msg) (s : State Byte Msg Handle) : State Byte Msg Handle :=
  let mb := s.mboxes m
  if mb.closed then s
  else
    ((s.setMbox m
      { mb with tail := mb.tail + 1, q := Function.update mb.q (mb.tail + 1) (some item) }).logging
        (.put m item)).wakeReader (.mbox m)

/-- `Mbox:close`. -/
def mboxClose (m : ℕ) (s : State Byte Msg Handle) : State Byte Msg Handle :=
  let mb := s.mboxes m
  if mb.closed then s
  else ((s.setMbox m { mb with closed := true }).logging (.closedMbox m)).wakeReader (.mbox m)

end State

/-! ### Tasks and the run loop -/

/-- What a task, or the program around the scheduler, does next. -/
inductive Call (Byte Msg Handle : Type) where
  | read (c : ℕ) (max : Option ℕ)
  | write (c : ℕ) (data : List Byte)
  | closeChan (c : ℕ)
  | get (m : ℕ)
  | put (m : ℕ) (item : Msg)
  | closeMbox (m : ℕ)
  | pass
  | await (handle : Handle)
  | spawn
  | stop
  -- the task returns, or raises an error, which `run` raises again
  | finish

/-- A call. Only a task can read, get, yield and end. -/
def perform (s : State Byte Msg Handle) : Call Byte Msg Handle → Option (State Byte Msg Handle)
  | .write c data => some (s.chanWrite c data)
  | .closeChan c => some (s.chanClose c)
  | .put m item => some (s.mboxPut m item)
  | .closeMbox m => some (s.mboxClose m)
  | .spawn => some s.spawn
  | .stop => some { s with stopped := true }
  | .read c max => s.current.map fun co => s.chanRead c max co
  | .get m => s.current.map fun co => s.mboxGet m co
  | .pass => s.current.map fun co => { s.enqueue co with control := Function.update s.control co .goOn, current := none }
  | .await handle => s.current.map fun co =>
    { s with
      kwaits := s.kwaits ++ [(handle, co)]
      control := Function.update s.control co .goOn
      current := none }
  | .finish => s.current.map fun co => { s with live := s.live - 1, alive := s.alive.erase co, current := none }

/-- Resume a task where it was suspended. -/
def resume (co : Task) (s : State Byte Msg Handle) : State Byte Msg Handle :=
  match s.control co with
  | .goOn => s
  | .read c max => s.chanRead c max co
  | .get m => s.mboxGet m co

/-- How a turn of the loop of `Sched:run` ends. -/
inductive Turn (Byte Msg Handle : Type) where
  | next (s : State Byte Msg Handle)
  | returned
  -- `deadlock — %d task(s) parked with no waker`
  | deadlock (live : ℕ)
  -- the kernel reported no awaited object
  | noObject

/-- `Sched:_kernel_wait`, with the index that the kernel reports. -/
def kernelWait (w : ℕ) (s : State Byte Msg Handle) : Turn Byte Msg Handle :=
  match s.kwaits[w]? with
  | none => .noObject
  | some (_, co) => .next ({ s with kwaits := s.kwaits.eraseIdx w }.enqueue co)

/-- A turn of the loop of `Sched:run`. -/
def turn (w : ℕ) (s : State Byte Msg Handle) : Turn Byte Msg Handle :=
  if s.live = 0 ∨ s.stopped then .returned
  else match s.ready with
    | co :: ready => .next (resume co { s with ready := ready, current := some co })
    | [] => if s.kwaits ≠ [] then kernelWait w s else .deadlock s.live

/-- A step: a call, where a slot is read by its one reader only, or a turn of the loop. -/
inductive Step (reader : Slot → Task) (s s' : State Byte Msg Handle) : Prop where
  | call (x : Call Byte Msg Handle)
      (chan : ∀ c max, x = .read c max → s.current = some (reader (.chan c)))
      (mbox : ∀ m, x = .get m → s.current = some (reader (.mbox m)))
      (performed : perform s x = some s')
  | turn (w : ℕ) (between : s.current = none) (turned : turn w s = .next s')

/-- The states of a run. -/
def Reachable (reader : Slot → Task) (s : State Byte Msg Handle) : Prop :=
  Relation.ReflTransGen (Step reader) new s

end Sched

end Nt365.Term
