import Nt365.Library.Places
import Nt365.Term.SchedData

/-!
# The scheduler loses no wake-up

In every state of a run each live task is in one place, and a task is parked only where there is nothing for it to read
(`Places`). A change to the contents of a channel or mailbox leaves a reader parked where there is something for
it: that slot is let off for the moment, and waking the reader puts it right (`Places.wakeReader`). With the
contents (`Data`) this gives what a run of the scheduler guarantees (`sched_delivers`).
-/

namespace Nt365.Term

open Nt365.Library Function

namespace Sched

variable {Byte Msg Handle : Type} {reader : Slot → Task} {s s' : State Byte Msg Handle}

/-! ### The places of the tasks -/

/-- There is nothing to read, and more may come. -/
def State.Blocked (s : State Byte Msg Handle) : Slot → Prop
  | .chan c => (s.chans c).n = 0 ∧ (s.chans c).closed = false
  | .mbox m => (s.mboxes m).tail < (s.mboxes m).head ∧ (s.mboxes m).closed = false

/-- A task that is suspended in a read or a get is the reader. -/
def Control.Fits (reader : Slot → Task) (t : Task) : Control → Prop
  | .goOn => True
  | .read c _ => reader (.chan c) = t
  | .get m => reader (.mbox m) = t

variable {co : Task} {σ : Slot}

theorem Control.fits_update {control : Task → Control} {k : Control}
    (h : ∀ t, (control t).Fits reader t) (hk : k.Fits reader co) (t : Task) :
    (Function.update control co k t).Fits reader t := by
  rw [update_apply]
  split
  · rename_i ht
    exact ht ▸ hk
  · exact h t

/-- Each live task is in one place, and it is parked only where it has to be, in slots that are `free` apart. -/
structure Places (reader : Slot → Task) (free : Slot → Prop) (s : State Byte Msg Handle) : Prop where
  placed : ∃ place, Placed place s.alive s.ready (s.kwaits.map Prod.snd) s.readerOf s.current
  parked : ∀ σ t, s.readerOf σ = some t → ¬ free σ → s.Blocked σ
  owner : ∀ σ t, s.readerOf σ = some t → reader σ = t
  control : ∀ t, (s.control t).Fits reader t
  fresh : ∀ t ∈ s.alive, t < s.fresh
  live : s.live = s.alive.length

/-- In all slots. -/
abbrev Settled (reader : Slot → Task) (s : State Byte Msg Handle) : Prop := Places reader (fun _ => False) s

variable {free free' : Slot → Prop}

theorem Places.congr (h : Places reader free s) (halive : s'.alive = s.alive) (hready : s'.ready = s.ready)
    (hkwaits : s'.kwaits = s.kwaits) (hreaders : s'.readerOf = s.readerOf) (hcurrent : s'.current = s.current)
    (hcontrol : s'.control = s.control) (hfresh : s'.fresh = s.fresh) (hlive : s'.live = s.live)
    (hblocked : ∀ σ t, s.readerOf σ = some t → ¬ free' σ → ¬ free σ ∧ (s.Blocked σ → s'.Blocked σ)) :
    Places reader free' s' where
  placed := by rw [halive, hready, hkwaits, hreaders, hcurrent]; exact h.placed
  parked σ t ht hfree := by
    rw [hreaders] at ht
    obtain ⟨hfree', himp⟩ := hblocked σ t ht hfree
    exact himp (h.parked σ t ht hfree')
  owner := by rw [hreaders]; exact h.owner
  control := by rw [hcontrol]; exact h.control
  fresh := by rw [halive, hfresh]; exact h.fresh
  live := by rw [halive, hlive]; exact h.live

theorem State.readerOf_setReader (s : State Byte Msg Handle) (σ : Slot) (r : Option Task) :
    (s.setReader σ r).readerOf = Function.update s.readerOf σ r := by
  funext σ'
  rw [update_apply]
  cases σ <;> cases σ' <;> simp only [State.setReader, State.setChan, State.setMbox, State.readerOf,
    update_apply, Slot.chan.injEq, Slot.mbox.injEq, reduceCtorEq, if_false] <;> split <;> simp_all

theorem State.blocked_setReader (s : State Byte Msg Handle) (σ σ' : Slot) (r : Option Task) :
    (s.setReader σ r).Blocked σ' ↔ s.Blocked σ' := by
  cases σ <;> cases σ' <;> simp only [State.setReader, State.setChan, State.setMbox, State.Blocked,
    update_apply] <;> split <;> simp_all

theorem Places.of_none (h : Places reader (· = σ) s) (hnone : s.readerOf σ = none) : Settled reader s := by
  refine h.congr rfl rfl rfl rfl rfl rfl rfl rfl fun σ' t ht _ => ⟨?_, id⟩
  rintro rfl
  rw [hnone] at ht
  cases ht

theorem Places.wakeReader (h : Places reader (· = σ) s) : Settled reader (s.wakeReader σ) := by
  rw [State.wakeReader]
  cases hreader : s.readerOf σ with
  | none => exact h.of_none hreader
  | some co =>
    obtain ⟨place, hplace⟩ := h.placed
    have hreaders : ((s.setReader σ none).enqueue co).readerOf = Function.update s.readerOf σ none :=
      s.readerOf_setReader σ none
    -- a reader that is left was there before, in another slot
    have hleft {σ' : Slot} {t : Task} (ht : Function.update s.readerOf σ none σ' = some t) : σ' ≠ σ ∧ s.readerOf σ' = some t := by
      rw [update_apply] at ht
      split at ht
      · cases ht
      · exact ⟨‹_›, ht⟩
    refine ⟨⟨Function.update place co .ready, ?_⟩, fun σ' t ht _ => ?_, fun σ' t ht => ?_, ?_, ?_, ?_⟩
    · rw [hreaders]
      have hwake := hplace.wake hreader
      cases σ <;> exact hwake
    · rw [hreaders] at ht
      exact (s.blocked_setReader σ σ' none).2 (h.parked σ' t (hleft ht).2 (hleft ht).1)
    · rw [hreaders] at ht
      exact h.owner σ' t (hleft ht).2
    · cases σ <;> exact h.control
    · cases σ <;> exact h.fresh
    · cases σ <;> exact h.live

/-- No slot of the running task holds a reader. -/
theorem Places.readerOf_eq_none (h : Places reader free s) (hcurrent : s.current = some co)
    (hco : reader σ = co) : s.readerOf σ = none := by
  cases hreader : s.readerOf σ with
  | none => rfl
  | some t =>
    obtain ⟨place, hplace⟩ := h.placed
    have hslot := (hplace.slot_iff σ t).1 hreader
    have hrunning := (hplace.running_iff co).1 hcurrent
    rw [← hco, h.owner σ t hreader, hslot] at hrunning
    cases hrunning

/-- The running task is parked where there is nothing for it. -/
theorem Places.park {control : Control} (h : Settled reader s)
    (hcurrent : s.current = some co) (hco : reader σ = co) (hblocked : s.Blocked σ)
    (hcontrol : control.Fits reader co) :
    Settled reader (s.park σ control co) := by
  obtain ⟨place, hplace⟩ := h.placed
  have hreaders : (s.park σ control co).readerOf = Function.update s.readerOf σ (some co) :=
    s.readerOf_setReader σ (some co)
  rw [hcurrent] at hplace
  refine ⟨⟨Function.update place co (.slot σ), ?_⟩, fun σ' t ht _ => ?_, fun σ' t ht => ?_, ?_, ?_, ?_⟩
  · rw [hreaders]
    have hpark := hplace.park (h.readerOf_eq_none hcurrent hco)
    cases σ <;> exact hpark
  · rw [hreaders, update_apply] at ht
    refine (s.blocked_setReader σ σ' (some co)).2 ?_
    split at ht
    · rename_i hσ
      exact hσ ▸ hblocked
    · exact h.parked σ' t ht not_false
  · rw [hreaders, update_apply] at ht
    split at ht
    · rename_i hσ
      exact hσ ▸ hco.trans (Option.some.inj ht)
    · exact h.owner σ' t ht
  · have hfits := Control.fits_update h.control hcontrol
    cases σ <;> exact hfits
  · cases σ <;> exact h.fresh
  · cases σ <;> exact h.live

theorem Places.setChan {c : ℕ} {ch : Chan Byte} (e : Event Byte Msg) (h : Settled reader s)
    (hch : ch.reader = (s.chans c).reader) : Places reader (· = .chan c) ((s.setChan c ch).logging e) := by
  refine h.congr rfl rfl rfl ?_ rfl rfl rfl rfl fun σ t ht hfree => ⟨not_false, ?_⟩
  · funext σ
    cases σ with
    | chan c' => by_cases hc : c' = c <;> simp_all [State.readerOf, State.logging, State.setChan]
    | mbox m => rfl
  · cases σ with
    | chan c' =>
      have hc : c' ≠ c := fun hc => hfree (by rw [hc])
      simp [State.Blocked, State.logging, State.setChan, hc]
    | mbox m => exact id

theorem Places.setMbox {m : ℕ} {mb : Mbox Msg} (e : Event Byte Msg) (h : Settled reader s)
    (hmb : mb.reader = (s.mboxes m).reader) : Places reader (· = .mbox m) ((s.setMbox m mb).logging e) := by
  refine h.congr rfl rfl rfl ?_ rfl rfl rfl rfl fun σ t ht hfree => ⟨not_false, ?_⟩
  · funext σ
    cases σ with
    | chan c => rfl
    | mbox m' => by_cases hm : m' = m <;> simp_all [State.readerOf, State.logging, State.setMbox]
  · cases σ with
    | chan c => exact id
    | mbox m' =>
      have hm : m' ≠ m := fun hm => hfree (by rw [hm])
      simp [State.Blocked, State.logging, State.setMbox, hm]

section

variable (h : Settled reader s)

include h

theorem Places.logging (e : Event Byte Msg) : Settled reader (s.logging e) :=
  h.congr rfl rfl rfl rfl rfl rfl rfl rfl fun _ _ _ _ => ⟨not_false, id⟩

theorem Places.chanRead {c : ℕ} {max : Option ℕ}
    (hcurrent : s.current = some co) (hco : reader (.chan c) = co) :
    Settled reader (s.chanRead c max co) := by
  have hnone : (s.chans c).reader = none := h.readerOf_eq_none hcurrent hco
  rw [State.chanRead]
  by_cases hn : (s.chans c).n = 0
  · rw [if_pos hn]
    by_cases hclosed : (s.chans c).closed = true
    · rw [if_pos hclosed]
      exact h.logging _
    · -- there is no second reader
      rw [if_neg hclosed, if_neg (by simp [hnone])]
      exact h.park hcurrent hco ⟨hn, Bool.eq_false_iff.2 hclosed⟩ hco
  · rw [if_neg hn]
    obtain ⟨-, -, hreader, -⟩ := ({ s.chans c with reader := none } : Chan Byte).drain_spec max
    refine (h.setChan _ (hreader.trans hnone.symm)).of_none ?_
    simpa [State.readerOf, State.logging, State.setChan] using hreader

theorem Places.chanWrite (c : ℕ) (data : List Byte) : Settled reader (s.chanWrite c data) := by
  rw [State.chanWrite]
  split
  · exact h
  · split
    · exact h.logging _
    · exact Places.wakeReader (h.setChan _ (by rfl))

theorem Places.chanClose (c : ℕ) : Settled reader (s.chanClose c) := by
  rw [State.chanClose]
  split
  · exact h
  · exact Places.wakeReader (h.setChan _ (by rfl))

theorem Places.mboxGet {m : ℕ}
    (hcurrent : s.current = some co) (hco : reader (.mbox m) = co) :
    Settled reader (s.mboxGet m co) := by
  have hnone : (s.mboxes m).reader = none := h.readerOf_eq_none hcurrent hco
  rw [State.mboxGet]
  by_cases hempty : (s.mboxes m).tail < (s.mboxes m).head
  · rw [if_pos hempty]
    by_cases hclosed : (s.mboxes m).closed = true
    · rw [if_pos hclosed]
      exact h.logging _
    · rw [if_neg hclosed, if_neg (by simp [hnone])]
      exact h.park hcurrent hco ⟨hempty, Bool.eq_false_iff.2 hclosed⟩ hco
  · rw [if_neg hempty]
    refine (h.setMbox _ hnone.symm).of_none ?_
    simp [State.readerOf, State.logging, State.setMbox]

theorem Places.mboxPut (m : ℕ) (item : Msg) : Settled reader (s.mboxPut m item) := by
  rw [State.mboxPut]
  split
  · exact h
  · exact Places.wakeReader (h.setMbox _ (by rfl))

theorem Places.mboxClose (m : ℕ) : Settled reader (s.mboxClose m) := by
  rw [State.mboxClose]
  split
  · exact h
  · exact Places.wakeReader (h.setMbox _ (by rfl))

theorem Places.spawn : Settled reader s.spawn := by
  obtain ⟨place, hplace⟩ := h.placed
  have hnew : s.fresh ∉ s.alive := fun hmem => Nat.lt_irrefl _ (h.fresh _ hmem)
  refine ⟨⟨_, hplace.spawn hnew⟩, h.parked, h.owner, Control.fits_update h.control trivial, fun t ht => ?_, ?_⟩
  · rcases List.mem_append.1 ht with ht | ht
    · exact Nat.lt_succ_of_lt (h.fresh t ht)
    · exact List.mem_singleton.1 ht ▸ Nat.lt_succ_self _
  · simp [State.spawn, h.live]

theorem Places.finish (hcurrent : s.current = some co) :
    Settled reader
      { s with live := s.live - 1, alive := s.alive.erase co, current := none } := by
  obtain ⟨place, hplace⟩ := h.placed
  rw [hcurrent] at hplace
  refine ⟨⟨_, hplace.finish⟩, h.parked, h.owner, h.control, fun t ht => h.fresh t (List.mem_of_mem_erase ht), ?_⟩
  rw [List.length_erase_of_mem (hplace.mem_alive_of_running rfl)]
  exact congrArg (· - 1) h.live

theorem Places.resume (hcurrent : s.current = some co) : Settled reader (resume co s) := by
  have hcontrol := h.control co
  rw [Sched.resume]
  split
  · exact h
  · rename_i hread
    rw [hread] at hcontrol
    exact h.chanRead hcurrent hcontrol
  · rename_i hget
    rw [hget] at hcontrol
    exact h.mboxGet hcurrent hcontrol

end

theorem split_map_snd {kwaits : List (Handle × Task)} {w : ℕ} {handle : Handle}
    (hw : kwaits[w]? = some (handle, co)) :
    kwaits.map Prod.snd = (kwaits.take w).map Prod.snd ++ co :: (kwaits.drop (w + 1)).map Prod.snd ∧
      (kwaits.eraseIdx w).map Prod.snd = (kwaits.take w).map Prod.snd ++ (kwaits.drop (w + 1)).map Prod.snd := by
  obtain ⟨hlt, hget⟩ := List.getElem?_eq_some_iff.1 hw
  constructor
  · conv_lhs => rw [← List.take_append_drop w kwaits, List.drop_eq_getElem_cons hlt, hget]
    rw [List.map_append, List.map_cons]
  · rw [List.eraseIdx_eq_take_drop_succ, List.map_append]

theorem Places.step (h : Settled reader s) (hstep : Step reader s s') : Settled reader s' := by
  obtain ⟨place, hplace⟩ := h.placed
  refine hstep.elim (fun c data => h.chanWrite c data) (fun c => h.chanClose c) (fun m item => h.mboxPut m item)
    (fun m => h.mboxClose m) h.spawn ?stop (fun c max co hcurrent hco => h.chanRead hcurrent hco)
    (fun m co hcurrent hco => h.mboxGet hcurrent hco) (fun co hcurrent => ?pass) (fun co handle hcurrent => ?await)
    (fun co hcurrent => h.finish hcurrent) (fun co ready hcurrent hready => ?resume)
    (fun w handle co hcurrent hw => ?signal)
  case stop => exact h.congr rfl rfl rfl rfl rfl rfl rfl rfl fun σ t ht _ => ⟨not_false, id⟩
  case pass =>
    rw [hcurrent] at hplace
    exact { h with placed := ⟨_, hplace.pass⟩, control := Control.fits_update h.control trivial }
  case await =>
    rw [hcurrent] at hplace
    refine { h with placed := ⟨Function.update place co .waiting, ?_⟩, control := Control.fits_update h.control trivial }
    rw [List.map_append]
    exact hplace.await
  case resume =>
    rw [hready, hcurrent] at hplace
    have hplaces : Settled reader { s with ready := ready, current := some co } :=
      { h with placed := ⟨_, hplace.resume⟩ }
    exact hplaces.resume rfl
  case signal =>
    have hsplit := split_map_snd hw
    have hplace' := hplace
    rw [hsplit.1] at hplace'
    refine { h with placed := ⟨Function.update place co .ready, ?_⟩ }
    have hsignal := hplace'.signal
    rw [← hsplit.2] at hsignal
    exact hsignal

/-! ### Every run -/

/-- Where a task is found in a state. -/
def State.At (s : State Byte Msg Handle) (t : Task) : Place Slot → Prop
  | .dead => False
  | .running => s.current = some t
  | .ready => t ∈ s.ready
  | .waiting => t ∈ s.kwaits.map Prod.snd
  | .slot σ => s.readerOf σ = some t

theorem Placed.at_iff {place : Task → Place Slot}
    (h : Placed place s.alive s.ready (s.kwaits.map Prod.snd) s.readerOf s.current) (t : Task) (p : Place Slot) :
    s.At t p ↔ place t = p ∧ p ≠ .dead := by
  cases p with
  | dead => simp [State.At]
  | running => simp [State.At, h.running_iff]
  | ready => simp [State.At, h.ready_iff]
  | waiting => simp only [State.At, h.waiting_iff]; simp
  | slot σ => simp [State.At, h.slot_iff]

theorem places_new : Settled reader (new : State Byte Msg Handle) where
  placed := ⟨fun _ => .dead, by
    have hreaders : (new : State Byte Msg Handle).readerOf = fun _ => none := by
      funext σ
      cases σ <;> rfl
    rw [hreaders]
    exact placed_nil⟩
  parked σ t ht := by cases σ <;> cases ht
  owner σ t ht := by cases σ <;> cases ht
  control _ := trivial
  fresh t ht := by cases ht
  live := rfl

theorem data_new : Data (new : State Byte Msg Handle) :=
  ⟨fun _ => ⟨rfl, rfl, fun h => by cases h⟩, fun _ => ⟨Nat.le_refl 1, rfl, fun h => by cases h⟩, throughout_nil⟩

theorem Reachable.places_data (h : Reachable reader s) : Settled reader s ∧ Data s := by
  induction h with
  | refl => exact ⟨places_new, data_new⟩
  | tail _ hstep ih => exact ⟨ih.1.step hstep, ih.2.step hstep⟩

/-- **Delivery, and no lost wake-up.** Between two resumptions of tasks: what the reads of a channel have returned, followed by
what it has buffered, is what was written to it, and so for the messages of a mailbox; each live task is in exactly one
place, once, and is parked only on an empty, open channel or mailbox. Hence the run loop finds a deadlock only
when every live task waits for such a one, and `nil` is returned only after the close, with everything
delivered. -/
theorem sched_delivers (reader : Slot → Task) (s : State Byte Msg Handle) (h : Reachable reader s)
    (hbetween : s.current = none) :
    (∀ c, delivered c s.log ++ (s.chans c).buf.flatten = written c s.log) ∧
    (∀ m, (got m s.log).map some ++ (s.mboxes m).queued = (puts m s.log).map some) ∧
    (∀ t ∈ s.alive, ∃! p, s.At t p) ∧ (∀ t p, s.At t p → t ∈ s.alive) ∧
    s.ready.Nodup ∧ (s.kwaits.map Prod.snd).Nodup ∧ s.live = s.alive.length ∧
    (∀ σ t, s.readerOf σ = some t → s.Blocked σ) ∧
    (∀ w n, turn w s = .deadlock n → ∀ t ∈ s.alive, ∃ σ, s.readerOf σ = some t ∧ s.Blocked σ) ∧
    Throughout NilAtEnd [] s.log := by
  obtain ⟨hplaces, hdata⟩ := h.places_data
  obtain ⟨place, hplace⟩ := hplaces.placed
  have hparked (σ : Slot) (t : Task) (ht : s.readerOf σ = some t) : s.Blocked σ :=
    hplaces.parked σ t ht not_false
  refine ⟨fun c => (hdata.chans c).bytes, fun m => (hdata.mboxes m).messages, fun t ht => ?_, fun t p hp => ?_,
    hplace.ready_nodup, hplace.waiting_nodup, hplaces.live, hparked, fun w n hdead t ht => ?_, hdata.ends⟩
  · have halive := (hplace.alive_iff t).1 ht
    refine ⟨place t, (Placed.at_iff hplace t _).2 ⟨rfl, halive⟩, fun p hp => ?_⟩
    exact ((Placed.at_iff hplace t p).1 hp).1.symm
  · obtain ⟨hp, hne⟩ := (Placed.at_iff hplace t p).1 hp
    exact (hplace.alive_iff t).2 (hp ▸ hne)
  · -- nothing is ready and nothing awaited, so the task is in a slot
    rw [turn] at hdead
    split at hdead
    · cases hdead
    split at hdead
    · cases hdead
    rename_i hready
    split at hdead
    · rw [kernelWait] at hdead
      split at hdead <;> cases hdead
    rename_i hkwaits
    rw [not_not] at hkwaits
    have halive := (hplace.alive_iff t).1 ht
    cases hp : place t with
    | dead => exact absurd hp halive
    | running => simp [hbetween] at hplace; exact absurd ((hplace.running_iff t).2 hp) (by simp)
    | ready => simpa [hready] using (hplace.ready_iff t).2 hp
    | waiting => simpa [hkwaits] using (hplace.waiting_iff t).2 hp
    | slot σ =>
      have hσ := (hplace.slot_iff σ t).2 hp
      exact ⟨σ, hσ, hparked σ t hσ⟩

/-- A task that reads an empty channel, and a write to it after that. -/
def wokenReader : State ℕ ℕ ℕ :=
  ({ new.spawn with ready := [], current := some 0 }.chanRead 0 none 0).chanWrite 0 [7]

/-- The reader is ready again, and the channel has what was written. -/
theorem sched_delivers_woken :
    wokenReader.ready = [0] ∧ written 0 wokenReader.log = [7] ∧
      delivered 0 wokenReader.log ++ (wokenReader.chans 0).buf.flatten = written 0 wokenReader.log := by
  have hspawn : Step (fun _ => 0) (new : State ℕ ℕ ℕ) new.spawn := .call .spawn (by simp) (by simp) rfl
  have hturn : Step (fun _ => 0) (new.spawn : State ℕ ℕ ℕ) { new.spawn with ready := [], current := some 0 } :=
    .turn 0 rfl rfl
  have hread : Step (fun _ => 0) ({ new.spawn with ready := [], current := some 0 } : State ℕ ℕ ℕ)
      ({ new.spawn with ready := [], current := some 0 }.chanRead 0 none 0) :=
    .call (.read 0 none) (fun _ _ _ => rfl) (by simp) rfl
  have hwrite : Step (fun _ => 0) (({ new.spawn with ready := [], current := some 0 } : State ℕ ℕ ℕ).chanRead 0 none 0)
    wokenReader :=
    .call (.write 0 [7]) (by simp) (by simp) rfl
  have hreach : Reachable (fun _ => 0) wokenReader :=
    (((Relation.ReflTransGen.single hspawn).tail hturn).tail hread).tail hwrite
  exact ⟨rfl, rfl, (sched_delivers (fun _ => 0) wokenReader hreach rfl).1 0⟩

end Sched

end Nt365.Term
