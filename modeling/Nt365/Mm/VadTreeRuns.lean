import Nt365.Mm.AddrSupSearch
import Nt365.Mm.VadTree

/-!
# Runs of calls on the descriptors of a process

The abstract state is the map of the live descriptors to their ranges. Insertion and removal
update it, and lookups and searches leave it alone, although they may reorder the tree and move the
hints. After any run of calls the tree, the hints and the answers are those of the map.
-/

namespace Nt365.Mm

open Nt365.Library Nt365.Library.LinkedTree List

variable {P : Type}

/-- The ranges of the live descriptors. -/
abbrev Live (P : Type) : Type := P → Option (ℕ × ℕ)

/-- A call on the descriptors of a process. -/
inductive VadCall (P : Type) where
  | insert (vad : P) (startingVa endingVa : ℕ)
  | remove (vad : P)
  | locate (virtualAddress : ℕ)
  | findEmpty (sizeOfRange alignment quickCheck : ℕ)

/-- What the caller of a call guarantees: a new descriptor is not live, and its range is apart
from the live ones; a descriptor that is removed is live. -/
def VadCall.Allowed (live : Live P) : VadCall P → Prop
  | .insert vad startingVa endingVa =>
    live vad = none ∧ startingVa ≤ endingVa ∧ ∀ x r, live x = some r → endingVa < r.1 ∨ r.2 < startingVa
  | .remove vad => (live vad).isSome
  | .locate _ => True
  | .findEmpty _ _ _ => True

section Calls

variable [DecidableEq P]

def VadCall.effect (live : Live P) : VadCall P → Live P
  | .insert vad startingVa endingVa => Function.update live vad (some (startingVa, endingVa))
  | .remove vad => Function.update live vad none
  | .locate _ => live
  | .findEmpty _ _ _ => live

/-- The call. A search that raises `STATUS_NO_MEMORY` returns to its caller. -/
def VadCall.apply (fuel : ℕ) (p : Process P) : VadCall P → Except Stop (Process P)
  | .insert vad startingVa endingVa => miInsertVad fuel vad { p with vads := p.vads.setRange vad startingVa endingVa }
  | .remove vad => miRemoveVad fuel vad p
  | .locate virtualAddress => (miLocateAddress fuel virtualAddress p).map Prod.fst
  | .findEmpty sizeOfRange alignment quickCheck =>
    match miFindEmptyAddressRange fuel sizeOfRange alignment quickCheck p with
    | .error .noMemory => .ok p
    | .error s => .error s
    | .ok (_, p) => .ok p

def run (fuel : ℕ) : List (VadCall P) → Process P → Except Stop (Process P)
  | [], p => .ok p
  | call :: calls, p => call.apply fuel p >>= run fuel calls

def effects : List (VadCall P) → Live P → Live P
  | [], live => live
  | call :: calls, live => effects calls (call.effect live)

def AllAllowed : List (VadCall P) → Live P → Prop
  | [], _ => True
  | call :: calls, live => call.Allowed live ∧ AllAllowed calls (call.effect live)

end Calls

/-! ### The invariant -/

/-- The process has the live descriptors in its tree, and its hints are among them. -/
structure Process.Tracks (p : Process P) (live : Live P) (c : BinaryTree P) : Prop where
  holds : p.vads.Holds c
  ordered : p.vads.Ordered (inorder c)
  live_iff : ∀ x r, live x = some r ↔ x ∈ inorder c ∧ r = (p.vads.startingVa x, p.vads.endingVa x)
  hint_none : p.vadHint = none → inorder c = []
  hint_mem : ∀ v, p.vadHint = some v → v ∈ inorder c
  freeHint_mem : ∀ v, p.vadFreeHint = some v → v ∈ inorder c

theorem Process.Tracks.isSome_iff {p : Process P} {live : Live P} {c : BinaryTree P} (h : p.Tracks live c) (x : P) :
    (live x).isSome ↔ x ∈ inorder c := by
  rw [Option.isSome_iff_exists]
  exact ⟨fun ⟨r, hr⟩ => ((h.live_iff x r).mp hr).1, fun hx => ⟨_, (h.live_iff x _).mpr ⟨hx, rfl⟩⟩⟩

/-- A range that is put in order between ranges apart from it. -/
theorem AddressTree.Ordered.insert {t : AddressTree P} {vad : P} {l r : List P} (ho : t.Ordered (l ++ r))
    (hwide : t.startingVa vad ≤ t.endingVa vad)
    (hapart : ∀ x ∈ l ++ r, t.endingVa vad < t.startingVa x ∨ t.endingVa x < t.startingVa vad)
    (hl : ∀ x ∈ l, t.startingVa x < t.startingVa vad) (hr : ∀ x ∈ r, t.startingVa vad < t.startingVa x) :
    t.Ordered (l ++ vad :: r) where
  wide := by
    intro x hx
    rcases mem_append.mp hx with hx | hx
    · exact ho.wide x (mem_append_left _ hx)
    · rcases mem_cons.mp hx with rfl | hx
      · exact hwide
      · exact ho.wide x (mem_append_right _ hx)
  apart := by
    obtain ⟨hpl, hpr, hlr⟩ := pairwise_append.mp ho.apart
    refine pairwise_append.mpr ⟨hpl, pairwise_cons.mpr ⟨?_, hpr⟩, ?_⟩
    · intro y hy
      have := hr y hy
      have := ho.wide y (mem_append_right _ hy)
      have := hapart y (mem_append_right _ hy)
      omega
    · intro x hx y hy
      rcases mem_cons.mp hy with rfl | hy
      · have := hl x hx
        have := hapart x (mem_append_left _ hx)
        omega
      · exact hlr x hx y hy

section Ranges

variable [DecidableEq P] {t : AddressTree P} {c : BinaryTree P} {vad : P} {startingVa endingVa : ℕ}

theorem AddressTree.Holds.setRange (ht : t.Holds c) : (t.setRange vad startingVa endingVa).Holds c :=
  ⟨ht.linked, ht.root, ht.nodup⟩

theorem AddressTree.setRange_self (t : AddressTree P) (vad : P) (startingVa endingVa : ℕ) :
    (t.setRange vad startingVa endingVa).startingVa vad = startingVa ∧
      (t.setRange vad startingVa endingVa).endingVa vad = endingVa := by
  simp [AddressTree.setRange]

theorem AddressTree.setRange_of_ne {x : P} (hx : x ≠ vad) :
    (t.setRange vad startingVa endingVa).startingVa x = t.startingVa x ∧
      (t.setRange vad startingVa endingVa).endingVa x = t.endingVa x := by
  simp [AddressTree.setRange, hx]

end Ranges

/-! ### The calls keep the invariant -/

section Searches

attribute [local irreducible] add32 sub32

/-- A search that runs out of memory, or leaves a hint among the descriptors. -/
def HintsIn (L : List P) : Except Stop (ℕ × Option P) → Prop
  | .error s => s = .noMemory
  | .ok (_, hint) => ∀ v, hint = some v → v ∈ L

theorem searchFromLowest_hintsIn (sizeOfRange alignment : ℕ) (t : AddressTree P) {previousVad : Option P} {L : List P}
    (hprev : ∀ v, previousVad = some v → v ∈ L) : HintsIn L (searchFromLowest sizeOfRange alignment t previousVad L) := by
  cases L with
  | nil => exact hprev
  | cons node nodes =>
    rw [searchFromLowest]
    by_cases h : mmLowestUserAddress < t.startingVa node ∧ sizeOfRange < sub32 (t.startingVa node) mmLowestUserAddress
    · rw [if_pos h]
      rintro v ⟨⟩
    · rw [if_neg h]
      obtain hup | ⟨l, n, r, hsplit, hup, -⟩ := searchUp_cases sizeOfRange alignment t node nodes
      · rw [hup]
        rfl
      · rw [hup, hsplit]
        rintro v ⟨⟩
        exact mem_append_right _ mem_cons_self

end Searches

section Steps

variable [DecidableEq P] {p : Process P} {live : Live P} {c : BinaryTree P} {fuel : ℕ}

theorem miInsertVad_tracks {vad : P} {startingVa endingVa : ℕ} (h : p.Tracks live c)
    (hallowed : (VadCall.insert vad startingVa endingVa).Allowed live) (hfuel : (inorder c).length + 15 < fuel) :
    ∃ p' c', (VadCall.insert vad startingVa endingVa).apply fuel p = .ok p' ∧
      p'.Tracks ((VadCall.insert vad startingVa endingVa).effect live) c' ∧ (inorder c').length = (inorder c).length + 1 := by
  obtain ⟨hnone, hwide, hapart⟩ := hallowed
  have hvad : vad ∉ inorder c := by
    rw [← h.isSome_iff, hnone]
    simp
  generalize ht₁ : p.vads.setRange vad startingVa endingVa = t₁
  have hself : t₁.startingVa vad = startingVa ∧ t₁.endingVa vad = endingVa := ht₁ ▸ AddressTree.setRange_self ..
  have hother : ∀ x, x ≠ vad → t₁.startingVa x = p.vads.startingVa x ∧ t₁.endingVa x = p.vads.endingVa x :=
    fun x hx => ht₁ ▸ AddressTree.setRange_of_ne hx
  have hL : ∀ x ∈ inorder c, t₁.startingVa x = p.vads.startingVa x ∧ t₁.endingVa x = p.vads.endingVa x :=
    fun x hx => hother x (ne_of_mem_of_not_mem hx hvad)
  have ho : t₁.Ordered (inorder c) := by
    refine ⟨fun x hx => ?_, h.ordered.apart.imp_of_mem fun hx hy hlt => ?_⟩
    · rw [(hL x hx).1, (hL x hx).2]
      exact h.ordered.wide x hx
    · rw [(hL _ hx).2, (hL _ hy).1]
      exact hlt
  have hdisj : ∀ x ∈ inorder c, t₁.endingVa vad < t₁.startingVa x ∨ t₁.endingVa x < t₁.startingVa vad := by
    intro x hx
    rw [hself.1, hself.2, (hL x hx).1, (hL x hx).2]
    exact hapart x _ ((h.live_iff x _).mpr ⟨hx, rfl⟩)
  have hne : ∀ y ∈ inorder c, t₁.startingVa y ≠ t₁.startingVa vad := by
    intro y hy heq
    have := ho.wide y hy
    have := hdisj y hy
    omega
  obtain ⟨t', heq, ⟨c', l, r, hc', horder, hsplit, hl, hr⟩, hs, he⟩ :=
    miInsertNode_spec (ht₁ ▸ h.holds.setRange) ho hvad hne hfuel
  have hmem : ∀ x, x ∈ inorder c' ↔ x = vad ∨ x ∈ inorder c := by
    intro x
    rw [horder, hsplit]
    simp only [mem_append, mem_cons]
    tauto
  refine ⟨⟨t', some vad, p.vadFreeHint.map fun hint =>
    if t₁.startingVa vad ≤ add32 (t₁.endingVa hint) x64k then vad else hint⟩, c', ?_, ?_, ?_⟩
  · simp only [VadCall.apply, miInsertVad, ht₁, heq]
    rfl
  · refine ⟨hc', ?_, ?_, by simp, ?_, ?_⟩
    · have hord := AddressTree.Ordered.insert (hsplit ▸ ho) (by rw [hself.1, hself.2]; exact hwide)
        (fun x hx => hdisj x (hsplit ▸ hx)) hl hr
      rw [← horder] at hord
      exact ⟨by rw [hs, he]; exact hord.wide, by rw [hs, he]; exact hord.apart⟩
    · intro x r
      dsimp only
      rw [hmem, hs, he, VadCall.effect]
      by_cases hx : x = vad
      · subst hx
        rw [Function.update_self, hself.1, hself.2]
        exact ⟨fun h => ⟨.inl rfl, (Option.some_inj.mp h).symm⟩, fun h => congrArg some h.2.symm⟩
      · rw [Function.update_of_ne hx, h.live_iff, (hother x hx).1, (hother x hx).2]
        simp [hx]
    · rintro v ⟨⟩
      exact (hmem vad).mpr (.inl rfl)
    · intro v hv
      obtain ⟨hint, hhint, rfl⟩ := Option.map_eq_some_iff.mp hv
      split
      · exact (hmem vad).mpr (.inl rfl)
      · exact (hmem hint).mpr (.inr (h.freeHint_mem hint hhint))
  · rw [horder, hsplit]
    simp only [length_append, length_cons]
    omega

/-- The hint for empty ranges moves to the previous descriptor when its own is removed. -/
theorem freeHintWithout_spec {vad : P} (h : p.Tracks live c) (hvad : vad ∈ inorder c) (hfuel : (inorder c).length < fuel) :
    ∃ hint, freeHintWithout fuel vad p = .ok hint ∧ ∀ v, hint = some v → v ∈ (inorder c).erase vad := by
  rw [freeHintWithout]
  split
  · obtain ⟨after, before, hsplit⟩ := append_of_mem (mem_walk (s := .left).mpr hvad)
    refine ⟨before.head?, neighbour_spec h.holds hsplit hfuel, fun v hv => ?_⟩
    have hnd : (walk .left c).Nodup := nodup_reverse.mpr h.holds.nodup
    rw [hsplit] at hnd
    have hvb : v ∈ before := mem_of_head? hv
    refine (h.holds.nodup.mem_erase_iff).mpr ⟨?_, mem_walk (s := .left).mp (by rw [hsplit]; simp [hvb])⟩
    rintro rfl
    exact (nodup_cons.mp (nodup_append'.mp hnd).2.1).1 hvb
  · rename_i hne
    refine ⟨_, rfl, fun v hv => (h.holds.nodup.mem_erase_iff).mpr ⟨?_, h.freeHint_mem v hv⟩⟩
    rintro rfl
    exact hne hv

theorem miRemoveVad_tracks {vad : P} (h : p.Tracks live c) (hallowed : (VadCall.remove vad).Allowed live)
    (hfuel : (inorder c).length < fuel) :
    ∃ p' c', (VadCall.remove vad).apply fuel p = .ok p' ∧ p'.Tracks ((VadCall.remove vad).effect live) c' ∧
      (inorder c').length ≤ (inorder c).length := by
  have hvad : vad ∈ inorder c := (h.isSome_iff vad).mp hallowed
  obtain ⟨hint, hhint, hmem⟩ := freeHintWithout_spec h hvad hfuel
  obtain ⟨t', heq, ⟨c', hc', horder⟩, hs, he⟩ := miRemoveNode_spec h.holds hvad hfuel
  have hsub : (inorder c').Sublist (inorder c) := horder ▸ erase_sublist
  have hiff : ∀ x, x ∈ inorder c' ↔ x ≠ vad ∧ x ∈ inorder c := fun x => horder ▸ h.holds.nodup.mem_erase_iff
  refine ⟨⟨t', if p.vadHint = some vad then t'.root else p.vadHint, hint⟩, c', ?_, ?_, hsub.length_le⟩
  · simp only [VadCall.apply, miRemoveVad, hhint, heq]
    rfl
  · refine ⟨hc', ⟨?_, ?_⟩, ?_, ?_, ?_, fun v hv => horder ▸ hmem v hv⟩
    · rw [hs, he]
      exact fun x hx => h.ordered.wide x (hsub.subset hx)
    · rw [hs, he]
      exact h.ordered.apart.sublist hsub
    · intro x r
      dsimp only
      rw [hiff, hs, he, VadCall.effect]
      by_cases hx : x = vad
      · simp [hx]
      · rw [Function.update_of_ne hx, h.live_iff]
        simp [hx]
    · intro hnone
      dsimp only at hnone
      split at hnone
      · rw [hc'.root] at hnone
        rw [rootOf_eq_none.mp hnone]
        rfl
      · rw [h.hint_none hnone] at hvad
        cases hvad
    · intro v hv
      dsimp only at hv
      split at hv
      · rw [hc'.root] at hv
        exact rootOf_mem hv
      · rename_i hne
        refine (hiff v).mpr ⟨?_, h.hint_mem v hv⟩
        rintro rfl
        exact hne hv

/-- A lookup keeps the invariant, and finds the descriptor that the address is in. -/
theorem miLocateAddress_tracks (virtualAddress : ℕ) (h : p.Tracks live c) (hfuel : (inorder c).length + 21 < fuel) :
    ∃ p' c' found, miLocateAddress fuel virtualAddress p = .ok (p', found) ∧ p'.Tracks live c' ∧
      inorder c' = inorder c ∧ Found p.vads (inorder c) virtualAddress virtualAddress found := by
  unfold miLocateAddress
  cases hhint : p.vadHint with
  | none => exact ⟨p, c, none, rfl, h, rfl, by simp [Found, h.hint_none hhint]⟩
  | some hint =>
    dsimp only
    split
    · rename_i hin
      exact ⟨p, c, some hint, rfl, h, rfl, h.hint_mem hint hhint, hin⟩
    · obtain ⟨t', found, heq, ⟨⟨c', hc', horder⟩, hkept⟩, hfound⟩ := miLocateAddressInTree_spec h.holds h.ordered hfuel
      refine ⟨⟨t', found <|> p.vadHint, p.vadFreeHint⟩, c', found, ?_, ?_, horder, hfound⟩
      · rw [heq, hhint]
        rfl
      · refine ⟨hc', ?_, ?_, ?_, ?_, ?_⟩
        · rw [horder]
          exact ⟨by rw [hkept.startingVa, hkept.endingVa]; exact h.ordered.wide,
            by rw [hkept.startingVa, hkept.endingVa]; exact h.ordered.apart⟩
        · intro x r
          rw [horder, hkept.startingVa, hkept.endingVa]
          exact h.live_iff x r
        · rw [hhint]
          cases found <;> simp
        · intro v hv
          rw [horder]
          cases found with
          | none => exact h.hint_mem v hv
          | some x =>
            cases hv
            exact hfound.1
        · intro v hv
          rw [horder]
          exact h.freeHint_mem v hv

omit [DecidableEq P] in
theorem Process.Tracks.withFreeHint (h : p.Tracks live c) {hint : Option P} (hhint : ∀ v, hint = some v → v ∈ inorder c) :
    Process.Tracks { p with vadFreeHint := hint } live c :=
  { h with freeHint_mem := hhint }

theorem findFromLowest_tracks (sizeOfRange alignment : ℕ) (h : p.Tracks live c) (hfuel : (inorder c).length < fuel) :
    findFromLowest fuel sizeOfRange alignment p = .error .noMemory ∨
      ∃ a p', findFromLowest fuel sizeOfRange alignment p = .ok (a, p') ∧ p'.Tracks live c := by
  have hin := searchFromLowest_hintsIn sizeOfRange alignment p.vads h.freeHint_mem
  rw [← miFindEmptyAddressRangeInTree_eq h.holds hfuel] at hin
  rw [findFromLowest]
  cases hfind : miFindEmptyAddressRangeInTree fuel sizeOfRange alignment p.vads p.vadFreeHint with
  | error s =>
    rw [hfind] at hin
    obtain rfl : s = .noMemory := hin
    exact .inl rfl
  | ok r =>
    rw [hfind] at hin
    exact .inr ⟨r.1, _, rfl, h.withFreeHint hin⟩

/-- A search for an empty range keeps the invariant, or runs out of memory. -/
theorem miFindEmptyAddressRange_tracks (sizeOfRange alignment quickCheck : ℕ) (h : p.Tracks live c)
    (hfuel : (inorder c).length < fuel) :
    miFindEmptyAddressRange fuel sizeOfRange alignment quickCheck p = .error .noMemory ∨
      ∃ a p', miFindEmptyAddressRange fuel sizeOfRange alignment quickCheck p = .ok (a, p') ∧ p'.Tracks live c := by
  have hlowest := findFromLowest_tracks sizeOfRange alignment h hfuel
  unfold miFindEmptyAddressRange
  cases hfree : p.vadFreeHint with
  | none => exact hlowest
  | some hint =>
    dsimp only
    split
    · obtain ⟨before, after, hsplit⟩ := append_of_mem (h.freeHint_mem hint hfree)
      have hnext : miGetNextNode fuel p.vads (some hint) = .ok after.head? := neighbour_spec h.holds hsplit hfuel
      obtain ⟨room, hroom⟩ : ∃ room, roomAfterHint fuel sizeOfRange alignment p hint = .ok room := by
        rw [roomAfterHint, hnext]
        cases after.head? <;> exact ⟨_, rfl⟩
      rw [hroom]
      cases room with
      | none => exact hlowest
      | some a => exact .inr ⟨a, p, rfl, h⟩
    · exact hlowest

/-- **One call**: it returns, and keeps the invariant. -/
theorem VadCall.apply_tracks (call : VadCall P) (h : p.Tracks live c) (hallowed : call.Allowed live)
    (hfuel : (inorder c).length + 21 < fuel) :
    ∃ p' c', call.apply fuel p = .ok p' ∧ p'.Tracks (call.effect live) c' ∧ (inorder c').length ≤ (inorder c).length + 1 := by
  cases call with
  | insert vad startingVa endingVa =>
    obtain ⟨p', c', heq, htracks, hlen⟩ := miInsertVad_tracks h hallowed (show (inorder c).length + 15 < fuel by omega)
    exact ⟨p', c', heq, htracks, by omega⟩
  | remove vad =>
    obtain ⟨p', c', heq, htracks, hlen⟩ := miRemoveVad_tracks h hallowed (show (inorder c).length < fuel by omega)
    exact ⟨p', c', heq, htracks, by omega⟩
  | locate virtualAddress =>
    obtain ⟨p', c', found, heq, htracks, horder, -⟩ := miLocateAddress_tracks virtualAddress h hfuel
    refine ⟨p', c', ?_, htracks, by rw [horder]; omega⟩
    rw [VadCall.apply, heq]
    rfl
  | findEmpty sizeOfRange alignment quickCheck =>
    have hlen : (inorder c).length < fuel := by omega
    rcases miFindEmptyAddressRange_tracks sizeOfRange alignment quickCheck h hlen with heq | ⟨a, p', heq, htracks⟩
    · refine ⟨p, c, ?_, h, by omega⟩
      rw [VadCall.apply, heq]
    · refine ⟨p', c, ?_, htracks, by omega⟩
      rw [VadCall.apply, heq]

/-- **A run of calls** returns, and keeps the invariant. -/
theorem run_tracks (calls : List (VadCall P)) (h : p.Tracks live c) (hallowed : AllAllowed calls live)
    (hfuel : (inorder c).length + calls.length + 21 < fuel) :
    ∃ p' c', run fuel calls p = .ok p' ∧ p'.Tracks (effects calls live) c' ∧
      (inorder c').length ≤ (inorder c).length + calls.length := by
  induction calls generalizing p live c with
  | nil => exact ⟨p, c, rfl, h, by simp⟩
  | cons call calls ih =>
    rw [length_cons] at hfuel
    obtain ⟨p₁, c₁, heq, h₁, hlen₁⟩ := call.apply_tracks h hallowed.1 (show (inorder c).length + 21 < fuel by omega)
    obtain ⟨p₂, c₂, hrun, h₂, hlen₂⟩ := ih h₁ hallowed.2 (by omega)
    refine ⟨p₂, c₂, ?_, h₂, by rw [length_cons]; omega⟩
    rw [run, heq]
    exact hrun

end Steps

/-! ### The answers -/

/-- `y` is the nearest to `x` of what is related to it, if there is any. -/
def Nearest (R : P → P → Prop) (x : P) : Option P → Prop
  | none => ∀ z, ¬R x z
  | some y => R x y ∧ ∀ z, R x z → z = y ∨ R y z

theorem nearest_head? {R : P → P → Prop} {L l r : List P} {x : P} (hL : L.Pairwise R) (hasymm : ∀ a b, R a b → ¬R b a)
    (hsplit : L = l ++ x :: r) : Nearest (fun a b => a ∈ L ∧ b ∈ L ∧ R a b) x r.head? := by
  rw [hsplit] at hL
  obtain ⟨-, hxr, hl⟩ := pairwise_append.mp hL
  obtain ⟨hx, hr⟩ := pairwise_cons.mp hxr
  have hirrefl : ¬R x x := fun h => hasymm x x h h
  have hmem : ∀ z, z ∈ L → R x z → z ∈ r := by
    intro z hz hxz
    rw [hsplit] at hz
    rcases mem_append.mp hz with hz | hz
    · exact absurd hxz (hasymm z x (hl z hz x mem_cons_self))
    · rcases mem_cons.mp hz with rfl | hz
      · exact absurd hxz hirrefl
      · exact hz
  cases r with
  | nil => exact fun z ⟨_, hz, hxz⟩ => not_mem_nil (hmem z hz hxz)
  | cons y r =>
    have hy : y ∈ L := by
      rw [hsplit]
      simp
    refine ⟨⟨by rw [hsplit]; simp, hy, hx y mem_cons_self⟩, ?_⟩
    rintro z ⟨-, hz, hxz⟩
    rcases mem_cons.mp (hmem z hz hxz) with rfl | hzr
    · exact .inl rfl
    · exact .inr ⟨hy, hz, (pairwise_cons.mp hr).1 z hzr⟩

/-- A live descriptor starts before another. -/
def Below (live : Live P) (x y : P) : Prop := ∃ r r', live x = some r ∧ live y = some r' ∧ r.1 < r'.1

section Answers

variable [DecidableEq P]

/-- The process answers as its live descriptors say. -/
structure Process.Serves (fuel : ℕ) (p : Process P) (live : Live P) : Prop where
  /-- The tree is a search tree, with consistent parent links, of exactly the live descriptors. -/
  tree : ∃ c, p.vads.Holds c ∧ ((inorder c).Pairwise fun x y => p.vads.startingVa x < p.vads.startingVa y) ∧
    ∀ x r, live x = some r ↔ x ∈ inorder c ∧ r = (p.vads.startingVa x, p.vads.endingVa x)
  locate : ∀ virtualAddress, ∃ p' found, miLocateAddress fuel virtualAddress p = .ok (p', found) ∧
    ∀ v, found = some v ↔ ∃ r, live v = some r ∧ r.1 ≤ virtualAddress ∧ virtualAddress ≤ r.2
  conflict : ∀ startingAddress endingAddress, startingAddress ≤ endingAddress →
    ∃ found, miCheckForConflictingVad fuel startingAddress endingAddress p = .ok found ∧
      (found = none ↔ ∀ v r, live v = some r → ¬(r.1 ≤ endingAddress ∧ startingAddress ≤ r.2))
  next : ∀ v, (live v).isSome → ∃ y, miGetNextNode fuel p.vads (some v) = .ok y ∧ Nearest (Below live) v y
  previous : ∀ v, (live v).isSome →
    ∃ y, miGetPreviousNode fuel p.vads (some v) = .ok y ∧ Nearest (fun x y => Below live y x) v y
  vadHint : (p.vadHint = none ↔ ∀ x, live x = none) ∧ ∀ v, p.vadHint = some v → (live v).isSome
  vadFreeHint : ∀ v, p.vadFreeHint = some v → (live v).isSome

variable {p : Process P} {live : Live P} {c : BinaryTree P} {fuel : ℕ}

omit [DecidableEq P] in
theorem AddressTree.Ordered.eq_of_meets {t : AddressTree P} {L : List P} (ho : t.Ordered L) {x y : P} {a : ℕ} (hx : x ∈ L)
    (hy : y ∈ L) (hax : t.Meets a a x) (hay : t.Meets a a y) : x = y := by
  have hall : ∀ ⦃x⦄, x ∈ L → ∀ ⦃y⦄, y ∈ L → x = y ∨ t.endingVa x < t.startingVa y ∨ t.endingVa y < t.startingVa x :=
    (ho.apart.imp fun h => .inr (.inl h)).forall_of_forall_of_flip (fun _ _ => .inl rfl) (ho.apart.imp fun h => .inr (.inr h))
  obtain ⟨h₁, h₂⟩ := hax
  obtain ⟨h₃, h₄⟩ := hay
  rcases hall hx hy with h | h | h
  · exact h
  · omega
  · omega

omit [DecidableEq P] in
theorem Process.Tracks.below_iff (h : p.Tracks live c) (x y : P) :
    Below live x y ↔ x ∈ inorder c ∧ y ∈ inorder c ∧ p.vads.startingVa x < p.vads.startingVa y := by
  constructor
  · rintro ⟨r, r', hr, hr', hlt⟩
    obtain ⟨hx, rfl⟩ := (h.live_iff x r).mp hr
    obtain ⟨hy, rfl⟩ := (h.live_iff y r').mp hr'
    exact ⟨hx, hy, hlt⟩
  · rintro ⟨hx, hy, hlt⟩
    exact ⟨_, _, (h.live_iff x _).mpr ⟨hx, rfl⟩, (h.live_iff y _).mpr ⟨hy, rfl⟩, hlt⟩

omit [DecidableEq P] in
theorem Process.Tracks.sorted (h : p.Tracks live c) : (inorder c).Pairwise fun x y => p.vads.startingVa x < p.vads.startingVa y :=
  h.ordered.apart.imp_of_mem fun hx _ hlt => Nat.lt_of_le_of_lt (h.ordered.wide _ hx) hlt

omit [DecidableEq P] in
theorem Process.Tracks.meets_iff (h : p.Tracks live c) (startingAddress endingAddress : ℕ) (v : P) :
    (v ∈ inorder c ∧ p.vads.Meets startingAddress endingAddress v) ↔
      ∃ r, live v = some r ∧ r.1 ≤ endingAddress ∧ startingAddress ≤ r.2 := by
  constructor
  · rintro ⟨hv, h₁, h₂⟩
    exact ⟨_, (h.live_iff v _).mpr ⟨hv, rfl⟩, h₁, h₂⟩
  · rintro ⟨r, hr, h₁, h₂⟩
    obtain ⟨hv, rfl⟩ := (h.live_iff v r).mp hr
    exact ⟨hv, h₁, h₂⟩

theorem Process.Tracks.locate (h : p.Tracks live c) (hfuel : (inorder c).length + 21 < fuel) (virtualAddress : ℕ) :
    ∃ p' found, miLocateAddress fuel virtualAddress p = .ok (p', found) ∧
      ∀ v, found = some v ↔ ∃ r, live v = some r ∧ r.1 ≤ virtualAddress ∧ virtualAddress ≤ r.2 := by
  obtain ⟨p', c', found, heq, -, -, hfound⟩ := miLocateAddress_tracks virtualAddress h hfuel
  refine ⟨p', found, heq, fun v => ?_⟩
  rw [← h.meets_iff virtualAddress virtualAddress v]
  cases found with
  | none => exact iff_of_false (by simp) fun hv => hfound v hv.1 hv.2
  | some x =>
    refine ⟨?_, fun hv => congrArg some (h.ordered.eq_of_meets hfound.1 hv.1 hfound.2 hv.2)⟩
    rintro ⟨⟩
    exact hfound

omit [DecidableEq P] in
theorem Process.Tracks.conflict (h : p.Tracks live c) (hfuel : (inorder c).length < fuel) (startingAddress endingAddress : ℕ) :
    ∃ found, miCheckForConflictingVad fuel startingAddress endingAddress p = .ok found ∧
      (found = none ↔ ∀ v r, live v = some r → ¬(r.1 ≤ endingAddress ∧ startingAddress ≤ r.2)) := by
  obtain ⟨found, heq, hfound⟩ := miCheckForConflictingNode_spec h.holds h.ordered hfuel
  refine ⟨found, heq, ?_⟩
  cases found with
  | none =>
    refine iff_of_true rfl fun v r hr hmeets => ?_
    obtain ⟨hv, hv'⟩ := (h.meets_iff startingAddress endingAddress v).mpr ⟨r, hr, hmeets⟩
    exact hfound v hv hv'
  | some x =>
    obtain ⟨r, hr, hmeets⟩ := (h.meets_iff startingAddress endingAddress x).mp hfound
    exact iff_of_false (by simp) fun hall => hall x r hr hmeets

omit [DecidableEq P] in
theorem Process.Tracks.nearest_next (h : p.Tracks live c) {v : P} {before after : List P}
    (hsplit : inorder c = before ++ v :: after) : Nearest (Below live) v after.head? := by
  have hbelow : Below live = fun x y => x ∈ inorder c ∧ y ∈ inorder c ∧ p.vads.startingVa x < p.vads.startingVa y :=
    funext fun x => funext fun y => propext (h.below_iff x y)
  rw [hbelow]
  exact nearest_head? h.sorted (fun _ _ hlt => Nat.lt_asymm hlt) hsplit

omit [DecidableEq P] in
theorem Process.Tracks.nearest_previous (h : p.Tracks live c) {v : P} {before after : List P}
    (hsplit : (inorder c).reverse = after ++ v :: before) : Nearest (fun x y => Below live y x) v before.head? := by
  have hbelow : (fun x y => Below live y x) =
      fun x y => x ∈ (inorder c).reverse ∧ y ∈ (inorder c).reverse ∧ p.vads.startingVa y < p.vads.startingVa x := by
    funext x y
    rw [h.below_iff y x]
    simp only [mem_reverse, eq_iff_iff]
    tauto
  rw [hbelow]
  exact nearest_head? (pairwise_reverse.mpr h.sorted) (fun _ _ hlt => Nat.lt_asymm hlt) hsplit

/-- A process that keeps the invariant answers as its live descriptors say. -/
theorem Process.Tracks.serves (h : p.Tracks live c) (hfuel : (inorder c).length + 21 < fuel) : p.Serves fuel live where
  tree := ⟨c, h.holds, h.sorted, h.live_iff⟩
  locate := h.locate hfuel
  conflict := fun startingAddress endingAddress _ => h.conflict (by omega) startingAddress endingAddress
  next := by
    intro v hv
    obtain ⟨before, after, hsplit⟩ := append_of_mem ((h.isSome_iff v).mp hv)
    exact ⟨after.head?, neighbour_spec h.holds hsplit (by omega), h.nearest_next hsplit⟩
  previous := by
    intro v hv
    obtain ⟨after, before, hsplit⟩ := append_of_mem (mem_reverse.mpr ((h.isSome_iff v).mp hv))
    exact ⟨before.head?, neighbour_spec (s := .left) h.holds hsplit (by omega), h.nearest_previous hsplit⟩
  vadHint := by
    refine ⟨⟨fun hnone x => ?_, fun hdead => ?_⟩, fun v hv => (h.isSome_iff v).mpr (h.hint_mem v hv)⟩
    · rw [← Option.not_isSome_iff_eq_none, h.isSome_iff, h.hint_none hnone]
      exact not_mem_nil
    · rw [Option.eq_none_iff_forall_ne_some]
      intro v hv
      have hlive := (h.isSome_iff v).mpr (h.hint_mem v hv)
      rw [hdead v] at hlive
      cases hlive
  vadFreeHint := fun v hv => (h.isSome_iff v).mpr (h.freeHint_mem v hv)

end Answers

/-- No descriptor is live. -/
def noVads : Live P := fun _ => none

/-- **The tree of a process refines its live descriptors**: from a process without descriptors,
every run of allowed calls returns and leaves a process that answers as the live descriptors say. -/
theorem run_serves [DecidableEq P] {p : Process P} (hroot : p.vads.root = none) (hhint : p.vadHint = none)
    (hfree : p.vadFreeHint = none) {calls : List (VadCall P)} (hallowed : AllAllowed calls noVads) {fuel : ℕ}
    (hfuel : calls.length + 21 < fuel) : ∃ p', run fuel calls p = .ok p' ∧ p'.Serves fuel (effects calls noVads) := by
  have hstart : p.Tracks noVads .nil :=
    ⟨⟨trivial, hroot, nodup_nil⟩, ⟨by simp [inorder], .nil⟩, by simp [noVads, inorder], fun _ => rfl, by simp [hhint],
      by simp [hfree]⟩
  have hlen₀ : (inorder (.nil : BinaryTree P)).length + calls.length + 21 < fuel := by simpa [inorder] using hfuel
  obtain ⟨p', c', heq, htracks, hlen⟩ := run_tracks calls hstart hallowed hlen₀
  exact ⟨p', heq, htracks.serves (by simp [inorder] at hlen; omega)⟩

/-- Two descriptors are inserted, a search takes the first as its hint, and it is removed. -/
def insertSearchRemove : List (VadCall Bool) :=
  [.insert true 0x10000 0x1FFFF, .insert false 0x30000 0x3FFFF, .findEmpty 0x1000 x64k 0, .locate 0x15000, .remove true]

theorem allAllowed_insertSearchRemove : AllAllowed insertSearchRemove noVads := by
  refine ⟨⟨rfl, by decide, fun x r hr => ?_⟩, ⟨rfl, by decide, fun x r hr => ?_⟩, trivial, trivial, rfl, trivial⟩
  · cases hr
  · cases x with
    | false => cases hr
    | true =>
      cases hr
      exact .inr (by decide)

theorem run_serves_insertSearchRemove :
    ∃ p', run 27 insertSearchRemove ⟨⟨⟨fun _ => none, fun _ _ => none⟩, none, fun _ => 0, fun _ => 0⟩, none, none⟩ = .ok p' ∧
      p'.Serves 27 (effects insertSearchRemove noVads) :=
  run_serves rfl rfl rfl allAllowed_insertSearchRemove (by decide)

end Nt365.Mm
