import Nt365.Library.History
import Nt365.Term.Sched

/-!
# What a channel delivers

What the reads of a channel have returned, followed by what it has buffered, is what was written to it, and likewise for the
messages of a mailbox (`ChanOk`, `MboxOk`). A read returns `nil` only when it has been closed and everything has been
delivered (`NilAtEnd`). Each operation keeps this of the channels and mailboxes of a state (`Data`), and so does each
step (`Data.step`).
-/

namespace Nt365.Term

open Nt365.Library List

namespace Sched

variable {Byte Msg Handle : Type} {reader : Slot → Task} {s s' : State Byte Msg Handle}

/-! ### What has been written and read -/

variable (c : ℕ)

/-- What an event writes to channel `c`. -/
def Event.writes : Event Byte Msg → List Byte
  | .wrote c' data => if c' = c then data else []
  | _ => []

/-- What an event reads from channel `c`. -/
def Event.reads : Event Byte Msg → List Byte
  | .read c' (some data) => if c' = c then data else []
  | _ => []

variable (m : ℕ)

/-- What an event puts into mailbox `m`. -/
def Event.putting : Event Byte Msg → List Msg
  | .put m' item => if m' = m then [item] else []
  | _ => []

/-- What an event gets out of mailbox `m`. -/
def Event.getting : Event Byte Msg → List Msg
  | .got m' (some item) => if m' = m then [item] else []
  | _ => []

def written (log : List (Event Byte Msg)) : List Byte := log.flatMap (Event.writes c)

def delivered (log : List (Event Byte Msg)) : List Byte := log.flatMap (Event.reads c)

def puts (log : List (Event Byte Msg)) : List Msg := log.flatMap (Event.putting m)

def got (log : List (Event Byte Msg)) : List Msg := log.flatMap (Event.getting m)

section Log

variable (log : List (Event Byte Msg)) (e : Event Byte Msg) (c m : ℕ)

@[simp] theorem written_concat : written c (log ++ [e]) = written c log ++ e.writes c := by simp [written]

@[simp] theorem delivered_concat : delivered c (log ++ [e]) = delivered c log ++ e.reads c := by simp [delivered]

@[simp] theorem puts_concat : puts m (log ++ [e]) = puts m log ++ e.putting m := by simp [puts]

@[simp] theorem got_concat : got m (log ++ [e]) = got m log ++ e.getting m := by simp [got]

end Log

/-- The messages of a mailbox from its head to its tail. -/
def Mbox.queued (mb : Mbox Msg) : List (Option Msg) :=
  (List.range' mb.head (mb.tail + 1 - mb.head)).map mb.q

/-- `nil` is returned only after the close, with everything delivered. -/
def NilAtEnd (past : List (Event Byte Msg)) : Event Byte Msg → Prop
  | .read c none => .closedChan c ∈ past ∧ delivered c past = written c past
  | .got m none => .closedMbox m ∈ past ∧ got m past = puts m past
  | _ => True

/-! ### The contents of a channel and of a mailbox -/

structure ChanOk (log : List (Event Byte Msg)) (c : ℕ) (ch : Chan Byte) : Prop where
  count : ch.n = ch.buf.flatten.length
  bytes : delivered c log ++ ch.buf.flatten = written c log
  closed : ch.closed = true → .closedChan c ∈ log

structure MboxOk (log : List (Event Byte Msg)) (m : ℕ) (mb : Mbox Msg) : Prop where
  order : mb.head ≤ mb.tail + 1
  messages : (got m log).map some ++ mb.queued = (puts m log).map some
  closed : mb.closed = true → .closedMbox m ∈ log

/-- The channel or mailbox of an event. -/
def Event.slot : Event Byte Msg → Slot
  | .wrote c _ | .read c _ | .closedChan c => .chan c
  | .put m _ | .got m _ | .closedMbox m => .mbox m

section Quiet

variable {log : List (Event Byte Msg)} {e : Event Byte Msg}

theorem ChanOk.quiet {c : ℕ} {ch : Chan Byte} (h : ChanOk log c ch) (hreads : e.reads c = []) (hwrites : e.writes c = []) :
    ChanOk (log ++ [e]) c ch := by
  refine ⟨h.count, ?_, fun hclosed => mem_append_left _ (h.closed hclosed)⟩
  rw [delivered_concat, written_concat, hreads, hwrites, append_nil, append_nil, h.bytes]

theorem ChanOk.of_other {c : ℕ} {ch : Chan Byte} (h : ChanOk log c ch) (he : e.slot ≠ .chan c) : ChanOk (log ++ [e]) c ch := by
  apply h.quiet
  · unfold Event.reads
    split <;> simp_all [Event.slot]
  · unfold Event.writes
    split <;> simp_all [Event.slot]

theorem MboxOk.quiet {m : ℕ} {mb : Mbox Msg} (h : MboxOk log m mb) (hgetting : e.getting m = []) (hputting : e.putting m = []) :
    MboxOk (log ++ [e]) m mb := by
  refine ⟨h.order, ?_, fun hclosed => mem_append_left _ (h.closed hclosed)⟩
  rw [got_concat, puts_concat, hgetting, hputting, append_nil, append_nil, h.messages]

theorem MboxOk.of_other {m : ℕ} {mb : Mbox Msg} (h : MboxOk log m mb) (he : e.slot ≠ .mbox m) : MboxOk (log ++ [e]) m mb := by
  apply h.quiet
  · unfold Event.getting
    split <;> simp_all [Event.slot]
  · unfold Event.putting
    split <;> simp_all [Event.slot]

end Quiet

theorem Chan.drain_spec (ch : Chan Byte) (max : Option ℕ) :
    (ch.drain max).1 ++ (ch.drain max).2.buf.flatten = ch.buf.flatten ∧
      (ch.drain max).2.n = (ch.drain max).2.buf.flatten.length ∧
      (ch.drain max).2.reader = ch.reader ∧ (ch.drain max).2.closed = ch.closed := by
  cases max with
  | none => simp [drain]
  | some max =>
    by_cases h : max < ch.buf.flatten.length
    · simp only [drain, if_pos h, LuaString.sub_one, LuaString.sub_to_end]
      simp
    · simp only [drain, if_neg h]
      simp

section Chan

variable {log : List (Event Byte Msg)} {c : ℕ} {ch : Chan Byte} (h : ChanOk log c ch)

include h

theorem ChanOk.read (max : Option ℕ) :
    ChanOk (log ++ [.read c (some (({ ch with reader := none } : Chan Byte).drain max).1)]) c
      (({ ch with reader := none } : Chan Byte).drain max).2 := by
  obtain ⟨hdata, hcount, -, hclosed⟩ := ({ ch with reader := none } : Chan Byte).drain_spec max
  refine ⟨hcount, ?_, fun hc => mem_append_left _ (h.closed (hclosed ▸ hc))⟩
  rw [delivered_concat, written_concat, ← h.bytes, ← hdata]
  simp [Event.reads, Event.writes]

theorem ChanOk.write (data : List Byte) :
    ChanOk (log ++ [.wrote c data]) c { ch with buf := ch.buf ++ [data], n := ch.n + data.length } := by
  refine ⟨?_, ?_, fun hc => mem_append_left _ (h.closed hc)⟩
  · simp [h.count]
  · simp [Event.reads, Event.writes, ← h.bytes]

theorem ChanOk.close : ChanOk (log ++ [.closedChan c]) c { ch with closed := true } := by
  refine ⟨h.count, ?_, fun _ => by simp⟩
  simp [Event.reads, Event.writes, h.bytes]

theorem ChanOk.setReader (r : Option Task) : ChanOk log c { ch with reader := r } :=
  ⟨h.count, h.bytes, h.closed⟩

end Chan

section Mbox

variable {log : List (Event Byte Msg)} {m : ℕ} {mb : Mbox Msg} (h : MboxOk log m mb)

include h

theorem MboxOk.close : MboxOk (log ++ [.closedMbox m]) m { mb with closed := true } := by
  refine ⟨h.order, ?_, fun _ => by simp⟩
  simpa [Event.getting, Event.putting, Mbox.queued] using h.messages

theorem MboxOk.setReader (r : Option Task) : MboxOk log m { mb with reader := r } :=
  ⟨h.order, h.messages, h.closed⟩

theorem MboxOk.queued_eq (hne : ¬ mb.tail < mb.head) : ∃ item, mb.q mb.head = some item ∧
    mb.queued = some item ::
      Mbox.queued { mb with reader := none, head := mb.head + 1, q := Function.update mb.q mb.head none } := by
  have hqueued : mb.queued = mb.q mb.head ::
      Mbox.queued { mb with reader := none, head := mb.head + 1, q := Function.update mb.q mb.head none } := by
    have hlen : mb.tail + 1 - mb.head = (mb.tail + 1 - (mb.head + 1)) + 1 := by omega
    rw [Mbox.queued, hlen, range'_succ, map_cons, Mbox.queued]
    congr 1
    refine map_congr_left fun i hi => (Function.update_of_ne ?_ _ _).symm
    have := (mem_range'_1.1 hi).1
    omega
  have hmem : mb.q mb.head ∈ (puts m log).map some := by
    rw [← h.messages, hqueued]
    simp
  obtain ⟨item, -, hitem⟩ := mem_map.1 hmem
  exact ⟨item, hitem.symm, hitem ▸ hqueued⟩

theorem MboxOk.get (hne : ¬ mb.tail < mb.head) :
    MboxOk (log ++ [.got m (mb.q mb.head)]) m
      { mb with reader := none, head := mb.head + 1, q := Function.update mb.q mb.head none } := by
  obtain ⟨item, hitem, hqueued⟩ := h.queued_eq hne
  refine ⟨by dsimp only; omega, ?_, fun hc => mem_append_left _ (h.closed hc)⟩
  have hmessages := h.messages
  rw [hqueued] at hmessages
  rw [hitem]
  simpa [Event.getting, Event.putting] using hmessages

theorem MboxOk.put (item : Msg) :
    MboxOk (log ++ [.put m item]) m
      { mb with tail := mb.tail + 1, q := Function.update mb.q (mb.tail + 1) (some item) } := by
  have horder := h.order
  refine ⟨by dsimp only; omega, ?_, fun hc => mem_append_left _ (h.closed hc)⟩
  have hqueued : Mbox.queued { mb with tail := mb.tail + 1, q := Function.update mb.q (mb.tail + 1) (some item) } =
      mb.queued ++ [some item] := by
    have hlen : mb.tail + 1 + 1 - mb.head = (mb.tail + 1 - mb.head) + 1 := by omega
    have hlast : mb.head + (mb.tail + 1 - mb.head) = mb.tail + 1 := by omega
    rw [Mbox.queued, Mbox.queued]
    dsimp only
    rw [hlen, range'_concat, map_append, Nat.one_mul, hlast]
    congr 1
    · refine map_congr_left fun i hi => Function.update_of_ne ?_ _ _
      have := (mem_range'_1.1 hi).2
      omega
    · simp
  rw [hqueued]
  simp [Event.getting, Event.putting, ← h.messages]

end Mbox

/-! ### All channels and mailboxes -/

/-- The contents of a state. -/
structure Data (s : State Byte Msg Handle) : Prop where
  chans : ∀ c, ChanOk s.log c (s.chans c)
  mboxes : ∀ m, MboxOk s.log m (s.mboxes m)
  ends : Throughout NilAtEnd [] s.log

theorem Data.congr (h : Data s) (hchans : s'.chans = s.chans) (hmboxes : s'.mboxes = s.mboxes) (hlog : s'.log = s.log) :
    Data s' := by
  obtain ⟨hc, hm, hends⟩ := h
  rw [← hlog] at hends
  exact ⟨fun c => by rw [hlog, hchans]; exact hc c, fun m => by rw [hlog, hmboxes]; exact hm m, hends⟩

theorem Data.chan {c : ℕ} {ch : Chan Byte} {e : Event Byte Msg} (h : Data s) (he : e.slot = .chan c)
    (hch : ChanOk (s.log ++ [e]) c ch) (hend : NilAtEnd s.log e) : Data ((s.setChan c ch).logging e) := by
  refine ⟨?_, fun m => (h.mboxes m).of_other (by simp [he]), throughout_concat h.ends hend⟩
  exact (Function.forall_update_iff s.chans _).2 ⟨hch, fun c' hc => (h.chans c').of_other (by simp [he, hc.symm])⟩

theorem Data.mbox {m : ℕ} {mb : Mbox Msg} {e : Event Byte Msg} (h : Data s) (he : e.slot = .mbox m)
    (hmb : MboxOk (s.log ++ [e]) m mb) (hend : NilAtEnd s.log e) : Data ((s.setMbox m mb).logging e) := by
  refine ⟨fun c => (h.chans c).of_other (by simp [he]), ?_, throughout_concat h.ends hend⟩
  exact (Function.forall_update_iff s.mboxes _).2 ⟨hmb, fun m' hm => (h.mboxes m').of_other (by simp [he, hm.symm])⟩

theorem Data.quiet {e : Event Byte Msg} (h : Data s) (hchan : ∀ c, e.reads c = [] ∧ e.writes c = [])
    (hmbox : ∀ m, e.getting m = [] ∧ e.putting m = []) (hend : NilAtEnd s.log e) : Data (s.logging e) :=
  ⟨fun c => (h.chans c).quiet (hchan c).1 (hchan c).2, fun m => (h.mboxes m).quiet (hmbox m).1 (hmbox m).2,
    throughout_concat h.ends hend⟩

theorem Data.setReader (h : Data s) (σ : Slot) (r : Option Task) : Data (s.setReader σ r) := by
  cases σ with
  | chan c =>
    exact ⟨(Function.forall_update_iff s.chans _).2 ⟨(h.chans c).setReader r, fun c' _ => h.chans c'⟩, h.mboxes, h.ends⟩
  | mbox m =>
    exact ⟨h.chans, (Function.forall_update_iff s.mboxes _).2 ⟨(h.mboxes m).setReader r, fun m' _ => h.mboxes m'⟩, h.ends⟩

theorem Data.wakeReader (h : Data s) (σ : Slot) : Data (s.wakeReader σ) := by
  rw [State.wakeReader]
  split
  · exact h
  · exact (h.setReader σ none).congr rfl rfl rfl

theorem Data.park (h : Data s) (σ : Slot) (control : Control) (co : Task) : Data (s.park σ control co) :=
  (h.setReader σ (some co)).congr rfl rfl rfl

section

variable (h : Data s)

include h

theorem Data.chanRead (c : ℕ) (max : Option ℕ) (co : Task) : Data (s.chanRead c max co) := by
  have hch := h.chans c
  rw [State.chanRead]
  by_cases hn : (s.chans c).n = 0
  · rw [if_pos hn]
    split
    · rename_i hclosed
      refine h.quiet (fun _ => ⟨rfl, rfl⟩) (fun _ => ⟨rfl, rfl⟩) ⟨hch.closed hclosed, ?_⟩
      have hempty : (s.chans c).buf.flatten = [] := length_eq_zero_iff.1 (hch.count ▸ hn)
      rw [← hch.bytes, hempty, append_nil]
    · split
      · exact h
      · exact h.park ..
  · rw [if_neg hn]
    exact h.chan rfl (hch.read max) trivial

theorem Data.chanWrite (c : ℕ) (data : List Byte) : Data (s.chanWrite c data) := by
  have hch := h.chans c
  rw [State.chanWrite]
  split
  · exact h
  · split
    · rename_i hempty
      subst hempty
      exact h.quiet (fun _ => ⟨rfl, ite_self _⟩) (fun _ => ⟨rfl, rfl⟩) trivial
    · exact (h.chan rfl (hch.write data) trivial).wakeReader _

theorem Data.chanClose (c : ℕ) : Data (s.chanClose c) := by
  rw [State.chanClose]
  split
  · exact h
  · exact (h.chan rfl (h.chans c).close trivial).wakeReader _

theorem Data.mboxGet (m : ℕ) (co : Task) : Data (s.mboxGet m co) := by
  have hmb := h.mboxes m
  rw [State.mboxGet]
  by_cases hempty : (s.mboxes m).tail < (s.mboxes m).head
  · rw [if_pos hempty]
    split
    · rename_i hclosed
      refine h.quiet (fun _ => ⟨rfl, rfl⟩) (fun _ => ⟨rfl, rfl⟩) ⟨hmb.closed hclosed, ?_⟩
      have hqueued : (s.mboxes m).queued = [] := by
        rw [Mbox.queued, Nat.sub_eq_zero_of_le hempty]
        rfl
      have hmessages := hmb.messages
      rw [hqueued, append_nil] at hmessages
      exact map_injective_iff.2 (fun _ _ => Option.some.inj) hmessages
    · split
      · exact h
      · exact h.park ..
  · rw [if_neg hempty]
    obtain ⟨item, hitem, -⟩ := hmb.queued_eq hempty
    exact h.mbox rfl (hmb.get hempty) (hitem ▸ trivial)

theorem Data.mboxPut (m : ℕ) (item : Msg) : Data (s.mboxPut m item) := by
  rw [State.mboxPut]
  split
  · exact h
  · exact (h.mbox rfl ((h.mboxes m).put item) trivial).wakeReader _

theorem Data.mboxClose (m : ℕ) : Data (s.mboxClose m) := by
  rw [State.mboxClose]
  split
  · exact h
  · exact (h.mbox rfl (h.mboxes m).close trivial).wakeReader _

theorem Data.resume (co : Task) : Data (resume co s) := by
  rw [Sched.resume]
  split
  · exact h
  · exact h.chanRead ..
  · exact h.mboxGet ..

end

/-! ### What a step does -/

theorem Step.elim {P : State Byte Msg Handle → Prop} (h : Step reader s s')
    (write : ∀ c data, P (s.chanWrite c data)) (closeChan : ∀ c, P (s.chanClose c))
    (put : ∀ m item, P (s.mboxPut m item)) (closeMbox : ∀ m, P (s.mboxClose m))
    (spawn : P s.spawn) (stop : P { s with stopped := true })
    (read : ∀ c max co, s.current = some co → reader (.chan c) = co → P (s.chanRead c max co))
    (get : ∀ m co, s.current = some co → reader (.mbox m) = co → P (s.mboxGet m co))
    (pass : ∀ co, s.current = some co →
      P { s.enqueue co with control := Function.update s.control co .goOn, current := none })
    (await : ∀ co handle, s.current = some co →
      P { s with
        kwaits := s.kwaits ++ [(handle, co)]
        control := Function.update s.control co .goOn
        current := none })
    (finish : ∀ co, s.current = some co →
      P { s with live := s.live - 1, alive := s.alive.erase co, current := none })
    (resume : ∀ co ready, s.current = none → s.ready = co :: ready →
      P (resume co { s with ready := ready, current := some co }))
    (signal : ∀ w handle co, s.current = none → s.kwaits[w]? = some (handle, co) →
      P ({ s with kwaits := s.kwaits.eraseIdx w }.enqueue co)) : P s' := by
  cases h with
  | call x hchan hmbox hx =>
    cases x with
    | write c data => exact Option.some.inj hx ▸ write c data
    | closeChan c => exact Option.some.inj hx ▸ closeChan c
    | put m item => exact Option.some.inj hx ▸ put m item
    | closeMbox m => exact Option.some.inj hx ▸ closeMbox m
    | spawn => exact Option.some.inj hx ▸ spawn
    | stop => exact Option.some.inj hx ▸ stop
    | read c max =>
      obtain ⟨co, hco, rfl⟩ := Option.map_eq_some_iff.1 hx
      exact read c max co hco (Option.some.inj ((hchan c max rfl).symm.trans hco))
    | get m =>
      obtain ⟨co, hco, rfl⟩ := Option.map_eq_some_iff.1 hx
      exact get m co hco (Option.some.inj ((hmbox m rfl).symm.trans hco))
    | pass =>
      obtain ⟨co, hco, rfl⟩ := Option.map_eq_some_iff.1 hx
      exact pass co hco
    | await handle =>
      obtain ⟨co, hco, rfl⟩ := Option.map_eq_some_iff.1 hx
      exact await co handle hco
    | finish =>
      obtain ⟨co, hco, rfl⟩ := Option.map_eq_some_iff.1 hx
      exact finish co hco
  | turn w hbetween hturn =>
    rw [Sched.turn] at hturn
    split at hturn
    · cases hturn
    split at hturn
    · rename_i co ready hready
      exact Turn.next.inj hturn ▸ resume co ready hbetween hready
    · split at hturn
      · rw [kernelWait] at hturn
        split at hturn
        · cases hturn
        · rename_i handle co hw
          exact Turn.next.inj hturn ▸ signal w handle co hbetween hw
      · cases hturn

theorem Data.step (h : Data s) (hstep : Step reader s s') : Data s' := by
  refine hstep.elim (fun c data => h.chanWrite c data) (fun c => h.chanClose c) (fun m item => h.mboxPut m item)
    (fun m => h.mboxClose m) (h.congr rfl rfl rfl) (h.congr rfl rfl rfl) (fun c max co _ _ => h.chanRead c max co)
    (fun m co _ _ => h.mboxGet m co) (fun co _ => h.congr rfl rfl rfl) (fun co handle _ => h.congr rfl rfl rfl)
    (fun co _ => h.congr rfl rfl rfl) (fun co ready _ _ => ?_) (fun w handle co _ _ => h.congr rfl rfl rfl)
  exact Data.resume (s := { s with ready := ready, current := some co }) (h.congr rfl rfl rfl) co

end Sched

end Nt365.Term
