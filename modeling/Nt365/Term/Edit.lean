import Mathlib.Logic.Function.Basic
import Nt365.Library.Buffer
import Nt365.Library.LuaString

/-!
# The line editor

`nt.term.edit` edits a line and recalls lines from a list, the history, that several editors may share. An editor keeps an index
into the list; one past the end is its live line. Other editors make the list longer without a change to that index.

## The model

An editor is a value, and the shared list is an argument of `feed`. `none` is the error of `_set_line` when it is given `nil`.
`take_completions` is left out: no other function reads `cands`.
-/

namespace Nt365.Term.Edit

open Nt365.Library

abbrev Line := List Byte

/-- The kinds of keys, with the argument of `K.TEXT`; `ctrl` stands for every other kind. -/
inductive Key where
  | text (c : Byte) | enter | backspace | delete | left | right | home | toEnd | up | down | tab | interrupt | eof | ctrl

inductive Result where
  | none | commit (line : Line) | eof | interrupt | bell

structure Completion where
  candidates : List Line
  first : Option ℤ

abbrev Completer := Line → ℕ → Option Completion

structure Editor where
  buf : Line
  pos : ℕ
  hidx : ℕ
  live : Option Line
  complete : Option Completer
  cands : Option (List Line)
  pos_le : pos ≤ buf.length

def commonPrefix : Line → Line → Line
  | a :: as, b :: bs => if a = b then a :: commonPrefix as bs else []
  | _, _ => []

namespace Editor

variable (e : Editor) (h : List Line)

def new (complete : Option Completer) : Editor := ⟨[], 0, h.length + 1, none, complete, none, Nat.le_refl 0⟩

def text : Line := e.buf

def setLine (s : Line) : Editor := { e with buf := s, pos := s.length, pos_le := Nat.le_refl _ }

def reset : Editor := { e with buf := [], pos := 0, hidx := h.length + 1, live := none, pos_le := Nat.le_refl 0 }

def recallLine (dir : ℤ) : Option Editor :=
  if dir < 0 then
    if e.hidx ≤ 1 then some e
    else
      let live := if e.hidx = h.length + 1 then some e.text else e.live
      h[e.hidx - 2]?.map ({ e with live := live, hidx := e.hidx - 1 } : Editor).setLine
  else if e.hidx ≥ h.length + 1 then some e
  else
    (if e.hidx + 1 = h.length + 1 then some (e.live.getD []) else h[e.hidx]?).map ({ e with hidx := e.hidx + 1 } : Editor).setLine

def replaceWord (first : ℤ) (repl : Line) : Editor :=
  let nb := e.buf.take (first - 1).toNat ++ repl
  { e with buf := nb ++ e.buf.drop e.pos, pos := nb.length, pos_le := by simp }

def tab : Result × Editor :=
  match e.complete.bind fun complete => complete e.text e.pos with
  | none => (.bell, e)
  | some res =>
    let first := res.first.getD (e.pos + 1)
    match res.candidates with
    | [] => (.bell, e)
    | [cand] => (.none, e.replaceWord first cand)
    | cand :: cands =>
      let lcp := cands.foldl commonPrefix cand
      if lcp.length > (LuaString.sub e.text first e.pos).length then (.none, e.replaceWord first lcp)
      else (.none, { e with cands := some (cand :: cands) })

/-- The keys that do not use the history. -/
def edit : Key → Result × Editor
  | .text c => (.none, { e with
      buf := e.buf.take e.pos ++ c :: e.buf.drop e.pos, pos := e.pos + 1, pos_le := by have := e.pos_le; simp; omega })
  | .backspace => (.none, { e with
      buf := e.buf.take (e.pos - 1) ++ e.buf.drop e.pos, pos := e.pos - 1, pos_le := by have := e.pos_le; simp; omega })
  | .delete => (.none, { e with
      buf := e.buf.take e.pos ++ e.buf.drop (e.pos + 1), pos_le := by have := e.pos_le; simp; omega })
  | .left => (.none, { e with pos := e.pos - 1, pos_le := by have := e.pos_le; omega })
  | .right => (.none, { e with pos := min (e.pos + 1) e.buf.length, pos_le := by omega })
  | .home => (.none, { e with pos := 0, pos_le := by omega })
  | .toEnd => (.none, { e with pos := e.buf.length, pos_le := by omega })
  | .tab => e.tab
  | .eof => (if e.buf.length = 0 then .eof else .none, e)
  | _ => (.none, e)

/-- `E:feed` returns the result, the history and the editor. -/
def feed : Key → Option (Result × List Line × Editor)
  | .enter =>
    let h := if e.text.length > 0 ∧ h.getLast? ≠ some e.text then h ++ [e.text] else h
    some (.commit e.text, h, e.reset h)
  | .up => (e.recallLine h (-1)).map fun e => (.none, h, e)
  | .down => (e.recallLine h 1).map fun e => (.none, h, e)
  | .interrupt => some (.interrupt, h, e.reset h)
  | key => some ((e.edit key).1, h, (e.edit key).2)

end Editor

/-! ### Editors on one list -/

/-- A list and up to `n` editors on it. -/
structure Shared (n : ℕ) where
  history : List Line
  editors : Fin n → Option Editor

inductive Event (n : ℕ) where
  | new (i : Fin n) (complete : Option Completer)
  | feed (i : Fin n) (key : Key)

variable {n : ℕ}

def Event.editor : Event n → Fin n
  | .new i _ => i
  | .feed i _ => i

variable (s : Shared n)

def step : Event n → Option (Shared n)
  | .new i complete => some { s with editors := Function.update s.editors i (some (.new s.history complete)) }
  | .feed i key =>
    match s.editors i with
    | none => some s
    | some e => (e.feed s.history key).map fun r => ⟨r.2.1, Function.update s.editors i (some r.2.2)⟩

def run (evs : List (Event n)) : Option (Shared n) := evs.foldlM step s

def Shared.text (i : Fin n) : Option Line := (s.editors i).map Editor.text

/-- In state `s`, which these events lead to, editor `i` shows line `t`. -/
def Shows (h₀ : List Line) (evs : List (Event n)) (s : Shared n) (i : Fin n) (t : Line) : Prop :=
  run ⟨h₀, fun _ => none⟩ evs = some s ∧ s.text i = some t

/-- Whether an editor has received an `UP` since its last commit, interrupt or creation. -/
def recalled (i : Fin n) (b : Bool) : Event n → Bool
  | .new j _ => if j = i then false else b
  | .feed j .up => if j = i then true else b
  | .feed j .enter | .feed j .interrupt => if j = i then false else b
  | _ => b

def OnLiveLine (i : Fin n) (evs : List (Event n)) : Prop := evs.foldl (recalled i) false = false

/-- The list had `length` lines at the last commit, interrupt or creation of editor `i`. -/
def ResetAt (h₀ : List Line) (evs : List (Event n)) (i : Fin n) (length : ℕ) : Prop :=
  ∃ before ev after s, evs = before ++ ev :: after ∧ recalled i true ev = false ∧ (∀ ev ∈ after, recalled i true ev = true) ∧
    run ⟨h₀, fun _ => none⟩ (before ++ [ev]) = some s ∧ s.history.length = length

/-- The list has `length` lines whenever editor `i` is fed a key. -/
def Steady (i : Fin n) (length : ℕ) : Shared n → List (Event n) → Prop
  | _, [] => True
  | s, ev :: evs => (ev.editor = i → s.history.length = length) ∧ ∀ s', step s ev = some s' → Steady i length s' evs

/-- The line survives a `DOWN`, and `UP`s followed by as many `DOWN`s at which the list is as long as now, whatever the
other editors do in between. -/
def Survives (i : Fin n) (t : Line) : Prop :=
  (∃ s', step s (.feed i .down) = some s' ∧ s'.text i = some t) ∧
    ∀ k evs, evs.filter (fun ev => ev.editor = i) = List.replicate k (.feed i .up) ++ List.replicate k (.feed i .down) →
      Steady i s.history.length s evs → ∃ s', run s evs = some s' ∧ s'.text i = some t

/-! ### Recalling lines -/

section Recall

variable {e : Editor} {h : List Line} {t : Line} {d : ℕ}

theorem recall_up (hb : 1 ≤ e.hidx ∧ e.hidx ≤ h.length + 1) : ∃ e', e.recallLine h (-1) = some e' ∧
    (e.hidx = 1 ∧ e' = e ∨ 1 < e.hidx ∧ e'.hidx + 1 = e.hidx ∧ e'.text ∈ h ∧
      e'.live = if e.hidx = h.length + 1 then some e.text else e.live) := by
  rw [Editor.recallLine, if_pos (by decide)]
  by_cases hlast : e.hidx ≤ 1
  · exact ⟨e, if_pos hlast, .inl ⟨by omega, rfl⟩⟩
  · have hlt : e.hidx - 2 < h.length := by omega
    rw [if_neg hlast, List.getElem?_eq_getElem hlt]
    exact ⟨_, rfl, .inr ⟨by omega, by simp only [Editor.setLine]; omega, List.getElem_mem hlt, rfl⟩⟩

theorem recall_down (hb : e.hidx ≤ h.length + 1) : ∃ e', e.recallLine h 1 = some e' ∧
    (e.hidx = h.length + 1 ∧ e' = e ∨ e.hidx ≤ h.length ∧ e'.hidx = e.hidx + 1 ∧ e'.live = e.live ∧
      (if e.hidx = h.length then some (e.live.getD []) else h[e.hidx]?) = some e'.text) := by
  rw [Editor.recallLine, if_neg (by decide)]
  by_cases hlive : e.hidx ≥ h.length + 1
  · exact ⟨e, if_pos hlive, .inl ⟨by omega, rfl⟩⟩
  · rw [if_neg hlive]
    simp only [Nat.add_right_cancel_iff]
    by_cases hnext : e.hidx = h.length
    · rw [if_pos hnext]
      exact ⟨_, rfl, .inr ⟨by omega, rfl, rfl, rfl⟩⟩
    · rw [if_neg hnext, List.getElem?_eq_getElem (show e.hidx < h.length by omega)]
      exact ⟨_, rfl, .inr ⟨by omega, rfl, rfl, rfl⟩⟩

/-- The editor is `d` lines back from its live line `t`, behind a list of `length` lines. -/
structure Browses (length : ℕ) (t : Line) (d : ℕ) (e : Editor) : Prop where
  back : d ≤ length
  hidx : e.hidx + d = length + 1
  line : d = 0 → e.text = t
  live : d ≠ 0 → e.live = some t

theorem Browses.up (hb : Browses h.length t d e) :
    ∃ e', e.recallLine h (-1) = some e' ∧ Browses h.length t (min (d + 1) h.length) e' := by
  obtain ⟨hback, hidx, hline, hlive⟩ := hb
  obtain ⟨e', heq, ⟨hlast, rfl⟩ | ⟨hgt, hidx', -, hlive'⟩⟩ := recall_up (h := h) (e := e) (by omega)
  · rw [show min (d + 1) h.length = d by omega]
    exact ⟨e', heq, hback, hidx, hline, hlive⟩
  · refine ⟨e', heq, by omega, by omega, fun h0 => by omega, fun _ => hlive'.trans ?_⟩
    by_cases hd : d = 0
    · rw [if_pos (by omega), hline hd]
    · rw [if_neg (by omega), hlive hd]

theorem Browses.down (hb : Browses h.length t d e) : ∃ e', e.recallLine h 1 = some e' ∧ Browses h.length t (d - 1) e' := by
  obtain ⟨hback, hidx, hline, hlive⟩ := hb
  obtain ⟨e', heq, ⟨hlast, rfl⟩ | ⟨hle, hidx', hlive', htext⟩⟩ := recall_down (h := h) (e := e) (by omega)
  · obtain rfl : d = 0 := by omega
    exact ⟨e', heq, hback, hidx, hline, hlive⟩
  · have hd : d ≠ 0 := by omega
    rw [hlive hd] at hlive' htext
    refine ⟨e', heq, by omega, by omega, fun h0 => ?_, fun _ => hlive'⟩
    rw [if_pos (by omega)] at htext
    exact (Option.some.inj htext).symm

end Recall

/-! ### Steps -/

/-- The index of every editor is in the list or one past it. -/
def Shared.Bounded (s : Shared n) : Prop := ∀ i e, s.editors i = some e → 1 ≤ e.hidx ∧ e.hidx ≤ s.history.length + 1

section Steps

variable {h₀ h : List Line} {evs : List (Event n)} {ev : Event n} {s s' : Shared n} {i : Fin n} {e : Editor} {t : Line} {b : Bool}

theorem tab_hidx (e : Editor) : e.tab.2.hidx = e.hidx := by
  unfold Editor.tab Editor.replaceWord
  split
  · rfl
  · dsimp only
    repeat' split
    all_goals rfl

variable (i) in
/-- **What a key does** to the list and the index: the index is one past the end after a commit or an interrupt, and after
every other key but `UP` if it was before. -/
theorem feed_spec (hb : 1 ≤ e.hidx ∧ e.hidx ≤ h.length + 1) (key : Key) :
    ∃ r h' e', e.feed h key = some (r, h', e') ∧ h.length ≤ h'.length ∧ (1 ≤ e'.hidx ∧ e'.hidx ≤ h'.length + 1) ∧
      ∀ b, (b = false → e.hidx = h.length + 1) → recalled i b (.feed i key) = false → e'.hidx = h'.length + 1 := by
  cases key with
  | up =>
    obtain ⟨e', heq, hcases⟩ := recall_up hb
    refine ⟨.none, h, e', by rw [Editor.feed, heq]; rfl, Nat.le_refl _, ?_, fun b _ => by simp [recalled]⟩
    obtain ⟨-, rfl⟩ | ⟨hgt, hidx, -⟩ := hcases
    · exact hb
    · omega
  | down =>
    obtain ⟨e', heq, hcases⟩ := recall_down hb.2
    refine ⟨.none, h, e', by rw [Editor.feed, heq]; rfl, Nat.le_refl _, ?_⟩
    obtain ⟨-, rfl⟩ | ⟨hle, hidx, -⟩ := hcases
    · exact ⟨hb, fun b hlast hb => hlast hb⟩
    · refine ⟨by omega, fun b hlast hb => ?_⟩
      have := hlast hb
      omega
  | enter =>
    refine ⟨_, _, _, rfl, ?_, ⟨Nat.le_add_left 1 _, Nat.le_refl _⟩, fun _ _ _ => rfl⟩
    split <;> simp
  | interrupt => exact ⟨_, _, _, rfl, Nat.le_refl _, ⟨Nat.le_add_left 1 _, Nat.le_refl _⟩, fun _ _ _ => rfl⟩
  | tab =>
    refine ⟨_, _, _, rfl, Nat.le_refl _, ?_⟩
    rw [Editor.edit, tab_hidx]
    exact ⟨hb, fun b hlast hb => hlast hb⟩
  | _ => exact ⟨_, _, _, rfl, Nat.le_refl _, hb, fun b hlast hb => hlast hb⟩

theorem step_feed {key : Key} {r : Result} {h' : List Line} {e' : Editor} (he : s.editors i = some e)
    (hf : e.feed s.history key = some (r, h', e')) : step s (.feed i key) = some ⟨h', Function.update s.editors i (some e')⟩ := by
  simp [step, he, hf]

variable (ev) in
/-- **What an event does**: it leaves the other editors as they are, and the list does not get shorter. -/
theorem step_spec (hb : s.Bounded) : ∃ s', step s ev = some s' ∧ s'.Bounded ∧ s.history.length ≤ s'.history.length ∧
    (∀ j ≠ ev.editor, s'.editors j = s.editors j) ∧
    ∀ b, (b = false → ∀ e, s.editors ev.editor = some e → e.hidx = s.history.length + 1) → recalled ev.editor b ev = false →
      ∀ e, s'.editors ev.editor = some e → e.hidx = s'.history.length + 1 := by
  have hupdate {i : Fin n} {h' : List Line} {e' : Editor} (hle : s.history.length ≤ h'.length) (he' :
    1 ≤ e'.hidx ∧ e'.hidx ≤ h'.length + 1) :
      Shared.Bounded ⟨h', Function.update s.editors i (some e')⟩ := by
    intro j e he
    by_cases hij : j = i
    · subst hij
      obtain rfl : e' = e := by simpa using he
      exact he'
    · simp only [Function.update_of_ne hij] at he
      have := hb j e he
      exact ⟨this.1, by dsimp only; omega⟩
  cases ev with
  | new i complete =>
    refine ⟨_, rfl, hupdate (Nat.le_refl _) ⟨Nat.le_add_left 1 _, Nat.le_refl _⟩, Nat.le_refl _,
      fun j hj => Function.update_of_ne hj .., ?_⟩
    intro b _ _ e he
    obtain rfl : Editor.new s.history complete = e := by simpa [Event.editor] using he
    rfl
  | feed i key =>
    cases hi : s.editors i with
    | none => exact ⟨s, by simp [step, hi], hb, Nat.le_refl _, fun _ _ => rfl, fun _ _ _ e he => by simp [Event.editor, hi] at he⟩
    | some e₀ =>
      obtain ⟨r, h', e', hf, hle, he', hlast⟩ := feed_spec i (hb i e₀ hi) key
      refine ⟨_, step_feed hi hf, hupdate hle he', hle, fun j hj => Function.update_of_ne hj .., fun b hb hrecalled e he => ?_⟩
      obtain rfl : e' = e := by simpa [Event.editor] using he
      exact hlast b (fun hb' => hb hb' e₀ hi) hrecalled

theorem recalled_of_ne (hi : ev.editor ≠ i) (b : Bool) : recalled i b ev = b := by
  cases ev with
  | new j complete => exact if_neg hi
  | feed j key =>
    have hj : j ≠ i := hi
    cases key <;> simp [recalled, hj]

theorem recalled_of_reset (h : recalled i true ev = false) (b : Bool) : ev.editor = i ∧ recalled i b ev = false := by
  have hi : ev.editor = i := by
    by_contra hne
    rw [recalled_of_ne hne] at h
    cases h
  refine ⟨hi, ?_⟩
  cases ev with
  | new j complete => exact if_pos hi
  | feed j key => cases key <;> simp_all [recalled, Event.editor]

/-! ### Runs -/

theorem run_cons (hs : step s ev = some s') : run s (ev :: evs) = run s' evs := by
  rw [run, List.foldlM_cons, hs]
  rfl

variable (evs) in
theorem run_bounded (hb : s.Bounded) : ∃ s', run s evs = some s' ∧ s'.Bounded ∧ s.history.length ≤ s'.history.length := by
  induction evs generalizing s with
  | nil => exact ⟨s, rfl, hb, Nat.le_refl _⟩
  | cons ev evs ih =>
    obtain ⟨s₁, hs, hb₁, hle, -⟩ := step_spec ev hb
    obtain ⟨s', hrun, hb', hle'⟩ := ih hb₁
    exact ⟨s', (run_cons hs).trans hrun, hb', hle.trans hle'⟩

/-- An index one past the end stays there while the list does not get longer, `UP`s before a reset apart. -/
theorem run_last (hb : s.Bounded) (hlast : b = false → ∀ e, s.editors i = some e → e.hidx = s.history.length + 1)
    (hrun : run s evs = some s') (hlen : s'.history.length = s.history.length) (hlive : evs.foldl (recalled i) b = false) :
    ∀ e, s'.editors i = some e → e.hidx = s'.history.length + 1 := by
  induction evs generalizing s b with
  | nil =>
    cases hrun
    exact hlast hlive
  | cons ev evs ih =>
    obtain ⟨s₁, hs, hb₁, hle, hothers, hown⟩ := step_spec ev hb
    rw [run_cons hs] at hrun
    obtain ⟨s₂, hrun₂, -, hle₂⟩ := run_bounded evs hb₁
    obtain rfl : s₂ = s' := Option.some.inj (hrun₂.symm.trans hrun)
    refine ih hb₁ (fun hb' e he => ?_) hrun (by omega) hlive
    by_cases hi : ev.editor = i
    · subst hi
      exact hown b hlast hb' e he
    · rw [recalled_of_ne hi] at hb'
      rw [hothers i (Ne.symm hi)] at he
      have := hlast hb' e he
      omega

/-- **Browsing**: `a` `UP`s and then `c` `DOWN`s, among the events of other editors. -/
theorem run_browse {length d a c : ℕ} (hb : s.Bounded) (he : s.editors i = some e) (hbrowse : Browses length t d e)
    (hkeys : evs.filter (fun ev => ev.editor = i) = List.replicate a (.feed i .up) ++ List.replicate c (.feed i .down))
    (hsteady : Steady i length s evs) :
    ∃ s' e', run s evs = some s' ∧ s'.editors i = some e' ∧ Browses length t (min (d + a) length - c) e' := by
  induction evs generalizing s e d a c with
  | nil =>
    obtain ⟨rfl, rfl⟩ : a = 0 ∧ c = 0 := by simpa using hkeys.symm
    refine ⟨s, e, rfl, he, ?_⟩
    rwa [show min (d + 0) length - 0 = d by have := hbrowse.back; omega]
  | cons ev evs ih =>
    obtain ⟨s₁, hs, hb₁, -, hothers, -⟩ := step_spec ev hb
    have hsteady₁ := hsteady.2 s₁ hs
    rw [run_cons hs]
    by_cases hi : ev.editor = i
    · have hlen := hsteady.1 hi
      rw [List.filter_cons_of_pos (by simpa using hi)] at hkeys
      subst hlen
      cases a with
      | succ a =>
        rw [List.replicate_succ, List.cons_append, List.cons.injEq] at hkeys
        obtain ⟨rfl, hkeys⟩ := hkeys
        obtain ⟨e', heq, hbrowse'⟩ := hbrowse.up
        rw [step_feed he (by rw [Editor.feed, heq]; rfl), Option.some.injEq] at hs
        subst hs
        obtain ⟨s', e'', hrun, he'', hfinal⟩ := ih hb₁ (Function.update_self ..) hbrowse' hkeys hsteady₁
        refine ⟨s', e'', hrun, he'', ?_⟩
        convert hfinal using 1
        omega
      | zero =>
        cases c with
        | zero => cases hkeys
        | succ c =>
          rw [List.replicate_zero, List.nil_append, List.replicate_succ, List.cons.injEq] at hkeys
          obtain ⟨rfl, hkeys⟩ := hkeys
          obtain ⟨e', heq, hbrowse'⟩ := hbrowse.down
          rw [step_feed he (by rw [Editor.feed, heq]; rfl), Option.some.injEq] at hs
          subst hs
          obtain ⟨s', e'', hrun, he'', hfinal⟩ := ih (a := 0) hb₁ (Function.update_self ..) hbrowse'
            (by simpa using hkeys) hsteady₁
          refine ⟨s', e'', hrun, he'', ?_⟩
          convert hfinal using 1
          have := hbrowse.back
          omega
    · rw [List.filter_cons_of_neg (by simpa using hi)] at hkeys
      exact ih hb₁ ((hothers i (Ne.symm hi)).trans he) hbrowse hkeys hsteady₁

end Steps

/-- Where the list is as long as at the last reset, the index of a live line is one past the end. -/
theorem last_of_resetAt {h₀ : List Line} {evs : List (Event n)} {s : Shared n} {i : Fin n}
    (hrun : run ⟨h₀, fun _ => none⟩ evs = some s)
    (hlive : OnLiveLine i evs) (hreset : ResetAt h₀ evs i s.history.length) :
    ∀ e, s.editors i = some e → e.hidx = s.history.length + 1 := by
  obtain ⟨before, ev, after, s₂, rfl, hev, -, hrun₂, hlen⟩ := hreset
  have hstart : Shared.Bounded (n := n) ⟨h₀, fun _ => none⟩ := fun _ _ h => nomatch h
  obtain ⟨s₁, hrun₁, hb₁, -⟩ := run_bounded before hstart
  obtain ⟨s₂', hs, hb₂, -, -, hown⟩ := step_spec ev hb₁
  rw [run, List.foldlM_append, show List.foldlM step _ before = some s₁ from hrun₁] at hrun hrun₂
  obtain rfl : s₂' = s₂ := by simpa [hs] using hrun₂
  obtain ⟨rfl, hfalse⟩ := recalled_of_reset hev (before.foldl (recalled i) false)
  rw [OnLiveLine, List.foldl_append, List.foldl_cons, hfalse] at hlive
  exact run_last hb₂ (fun _ => hown true (fun h => nomatch h) hev) ((run_cons hs).symm.trans hrun) hlen.symm hlive

/-- **The live line survives history browsing**, in every run in which the list is as long, whenever the editor is fed an
`UP` or a `DOWN`, as at its last commit, interrupt or creation. An `UP` that changes the line shows an entry of the list in
any case. -/
theorem survives_steady (h₀ : List Line) (evs : List (Event n)) (s : Shared n) (i : Fin n) (t : Line)
    (hshows : Shows h₀ evs s i t) : (OnLiveLine i evs → ResetAt h₀ evs i s.history.length → Survives s i t) ∧
      ∃ s' t', step s (.feed i .up) = some s' ∧ s'.text i = some t' ∧ (t' ≠ t → t' ∈ s'.history) := by
  obtain ⟨hrun, ht⟩ := hshows
  obtain ⟨e, he, rfl⟩ := Option.map_eq_some_iff.mp ht
  obtain ⟨s₁, hrun₁, hb, -⟩ := run_bounded evs (s := ⟨h₀, fun _ => none⟩) fun _ _ h => nomatch h
  obtain rfl : s₁ = s := Option.some.inj (hrun₁.symm.trans hrun)
  refine ⟨fun hlive hreset => ?_, ?_⟩
  · have hidx := last_of_resetAt hrun hlive hreset e he
    have hstart : Browses s₁.history.length e.text 0 e := ⟨Nat.zero_le _, hidx, fun _ => rfl, fun h => absurd rfl h⟩
    refine ⟨?_, fun k evs' hkeys hsteady => ?_⟩
    · obtain ⟨e', heq, hbrowse⟩ := hstart.down
      exact ⟨_, step_feed he (by rw [Editor.feed, heq]; rfl), by simp [Shared.text, hbrowse.line rfl]⟩
    · obtain ⟨s', e', hrun', he', hbrowse⟩ := run_browse hb he hstart hkeys hsteady
      exact ⟨s', hrun', by rw [Shared.text, he', Option.map_some, hbrowse.line (by omega)]⟩
  · obtain ⟨e', heq, hcases⟩ := recall_up (hb i e he)
    refine ⟨_, e'.text, step_feed he (by rw [Editor.feed, heq]; rfl), by simp [Shared.text], fun hne => ?_⟩
    obtain ⟨-, rfl⟩ | ⟨-, -, hmem, -⟩ := hcases
    · exact absurd rfl hne
    · exact hmem

/-- An editor commits a line, and another then has one. -/
def commitBefore : List (Event 2) := [.new 1 none, .feed 1 (.text 1), .feed 1 .enter, .new 0 none, .feed 0 (.text 0)]

/-- An `UP` and a `DOWN`, with keys of the other editor in between, which commits its line afterwards. -/
theorem survives_steady_two : ∃ s s', Shows [] commitBefore s 0 [0] ∧
    run s [.feed 0 .up, .feed 1 (.text 2), .feed 0 .down, .feed 1 .enter] = some s' ∧ s'.text 0 = some [0] := by
  obtain ⟨s, hrun⟩ : ∃ s, run ⟨[], fun _ => none⟩ commitBefore = some s := ⟨_, rfl⟩
  have hshows : Shows [] commitBefore s 0 [0] := by cases hrun; exact ⟨rfl, rfl⟩
  have hreset : ResetAt [] commitBefore 0 s.history.length := by
    cases hrun
    exact ⟨[.new 1 none, .feed 1 (.text 1), .feed 1 .enter], .new 0 none, [.feed 0 (.text 0)], _, rfl,
      rfl, by simp [recalled], rfl, rfl⟩
  obtain ⟨s', hrun', ht⟩ := ((survives_steady [] commitBefore s 0 [0] hshows).1 rfl hreset).2 1
    [.feed 0 .up, .feed 1 (.text 2), .feed 0 .down, .feed 1 .enter] (by rfl) (by
      cases hrun
      exact ⟨fun _ => rfl,
        fun _ h => by cases h; exact ⟨nofun, fun _ h => by cases h; exact ⟨fun _ => rfl, fun _ _ => ⟨nofun, fun _ _ => trivial⟩⟩⟩⟩)
  exact ⟨s, s', hshows, hrun', ht⟩

/-- An editor has a line, and another commits one. -/
def commitBetween (i j : Fin n) : List (Event n) :=
  [.new i none, .new j none, .feed i (.text 0), .feed j (.text 0), .feed j .enter]

/-- A `DOWN` on the live line after another editor's commit: the line is gone. -/
theorem survives_not_two : ∃ s : Shared 2, Shows [] (commitBetween 0 1) s 0 [0] ∧ OnLiveLine 0 (commitBetween (n := 2) 0 1) ∧
    ∃ s', step s (.feed 0 .down) = some s' ∧ s'.text 0 = some [] :=
  ⟨_, ⟨rfl, rfl⟩, rfl, _, rfl, rfl⟩

end Nt365.Term.Edit
