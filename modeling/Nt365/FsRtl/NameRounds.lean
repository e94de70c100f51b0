import Nt365.FsRtl.NameArrays
import Nt365.Library.Climb

/-!
# The lists of states stand for sets

With the DOS wild cards the lists of states need not be in order, and may list a state more than once. Each still climbs
(`Nt365.Library.Climb`): what a state leads to is an end of what an earlier state leads to, or lies behind all of it. So the
states that "Prevent duplication" skips add nothing, `MaxState` is last if it is listed, and the answer depends on the sets of
states only (`matchName_iff_leadsTo`).
-/

namespace Nt365.FsRtl

open Nt365.Library List

namespace Name

variable {upcase : WCHAR → WCHAR} {expr : List WCHAR} {nc : NameChar} {c : WCHAR} {k j d s t : ℕ}

/-- The offset, in characters, at which a state goes on. -/
def placeOf (state : ℕ) : ℕ := (state + 1) / 4

/-- There is a star of either kind at the offset. -/
def Starry (expr : List WCHAR) (k : ℕ) : Prop := expr[k]? = some anyStar ∨ expr[k]? = some dosStar

/-- A state that is listed: before a character or at the end, or after a star. -/
def IsState (expr : List WCHAR) (state : ℕ) : Prop :=
  (state % 4 = 0 ∧ state ≤ 4 * expr.length) ∨ (state % 4 = 3 ∧ Starry expr (state / 4))

/-- The states reached from an offset. -/
def carried (upcase : WCHAR → WCHAR) (nc : NameChar) (expr : List WCHAR) (k : ℕ) : List ℕ :=
  carryOn upcase nc (maxState expr) (expr.drop k) (2 * k)

theorem Starry.lt (h : Starry expr k) : k < expr.length := by
  rcases h with h | h
  · exact (List.getElem?_eq_some_iff.mp h).1
  · exact (List.getElem?_eq_some_iff.mp h).1

theorem IsState.placeOf_le (h : IsState expr s) : placeOf s ≤ expr.length := by
  unfold placeOf
  rcases h with h | ⟨h, hstar⟩
  · omega
  · have hlt := hstar.lt
    omega

/-! ### What a character of the expression does -/

/-- The scan goes on after the character, with the states it lists there. -/
def GoesOn (upcase : WCHAR → WCHAR) (nc : NameChar) (c : WCHAR) : Prop := (reach upcase nc c 0).2 = true

theorem reach_snd (state : ℕ) : (reach upcase nc c state).2 = (reach upcase nc c 0).2 := by
  unfold reach
  split_ifs <;> first | rfl | (split <;> first | rfl | (split_ifs <;> rfl))

/-- A character at which the scan goes on lists nothing but the states of a star, in order. -/
theorem reach_of_goesOn (hk : 4 * k + 3 < 65536) (h : GoesOn upcase nc c) :
    (reach upcase nc c (4 * k)).1.Pairwise (· ≤ ·) ∧
      ∀ d ∈ (reach upcase nc c (4 * k)).1, (d = 4 * k ∨ d = 4 * k + 3) ∧ (c = anyStar ∨ c = dosStar) := by
  unfold GoesOn reach at h
  unfold reach
  rw [u16_of_lt hk]
  split_ifs at h ⊢ with h₁ h₂ h₃ h₄ h₅ h₆
  · exact ⟨by simp, fun d hd => ⟨mem_pair.mp hd, h₁.imp_right And.left⟩⟩
  · exact ⟨pairwise_singleton _ _, fun d hd => ⟨.inr (mem_singleton.mp hd), .inr h₂⟩⟩
  · exact ⟨.nil, by simp⟩
  · exact ⟨.nil, by simp⟩
  · split at h
    · cases h
    · split_ifs at h

/-- A character at which the scan stops lists the next state, if any. -/
theorem reach_of_stops (hk : 4 * k + 4 < 65536) (h : ¬GoesOn upcase nc c) :
    (c ≠ anyStar ∧ c ≠ dosStar) ∧ ∀ d ∈ (reach upcase nc c (4 * k)).1, d = 4 * k + 4 := by
  unfold GoesOn reach at h
  unfold reach
  rw [u16_of_lt hk]
  split_ifs at h ⊢ with h₁ h₂ h₃ h₄ h₅ h₆
  · exact absurd rfl h
  · exact absurd rfl h
  · exact absurd rfl h
  · exact ⟨⟨fun hc => h₁ (.inl hc), h₂⟩, fun d hd => mem_singleton.mp hd⟩
  · exact absurd rfl h
  · exact ⟨⟨fun hc => h₁ (.inl hc), h₂⟩, fun d hd => mem_singleton.mp hd⟩
  · refine ⟨⟨fun hc => h₁ (.inl hc), h₂⟩, ?_⟩
    split
    · exact fun d hd => (nomatch hd)
    · split_ifs
      · exact fun d hd => mem_singleton.mp hd
      · exact fun d hd => (nomatch hd)

section

variable (hlen : expr.length ≤ 16383)

include hlen

theorem maxState_eq : maxState expr = 4 * expr.length := by
  unfold maxState
  rw [u16_of_lt (by omega), Nat.mul_comm]

theorem carried_end : carried upcase nc expr expr.length = [4 * expr.length] := by
  unfold carried
  rw [drop_length, carryOn, maxState_eq hlen]

theorem carried_eq (hc : expr[k]? = some c) :
    carried upcase nc expr k =
      (reach upcase nc c (4 * k)).1 ++ if (reach upcase nc c 0).2 then carried upcase nc expr (k + 1) else [] := by
  obtain ⟨hk, rfl⟩ := List.getElem?_eq_some_iff.mp hc
  unfold carried
  rw [drop_eq_getElem_cons hk, carryOn_cons, u16_of_lt (by omega), reach_snd, show 2 * k * 2 = 4 * k by omega]
  rfl

theorem carried_goesOn (hc : expr[k]? = some c) (h : GoesOn upcase nc c) :
    carried upcase nc expr k = (reach upcase nc c (4 * k)).1 ++ carried upcase nc expr (k + 1) := by
  rw [carried_eq hlen hc, if_pos (show (reach upcase nc c 0).2 = true from h)]

theorem carried_stops (hc : expr[k]? = some c) (h : ¬GoesOn upcase nc c) :
    carried upcase nc expr k = (reach upcase nc c (4 * k)).1 := by
  rw [carried_eq hlen hc, if_neg (show ¬(reach upcase nc c 0).2 = true from h), append_nil]

end

/-! ### The states in layers -/

theorem fromState_at (hs : (s + 1) / 2 = 2 * k) :
    fromState upcase expr nc s = if k = expr.length then [] else carried upcase nc expr k := by
  unfold fromState
  dsimp only
  rw [hs, Nat.mul_div_cancel_left _ Nat.two_pos]
  by_cases h : k = expr.length
  · rw [if_pos h, if_pos (by omega)]
  · rw [if_neg h, if_neg (by omega)]
    rfl

theorem fromState_eq_carried (hs : IsState expr s) : fromState upcase expr nc s =
    if placeOf s = expr.length then [] else carried upcase nc expr (placeOf s) := by
  refine fromState_at ?_
  unfold placeOf
  rcases hs with h | h <;> omega

/-- Induction from the end of the expression. -/
theorem offset_induction {P : ℕ → Prop} (hend : P expr.length) (hstep : ∀ k < expr.length, P (k + 1) → P k)
    (hk : k ≤ expr.length) : P k :=
  Nat.decreasingInduction (fun k hk ih => hstep k hk ih) hend hk

section Carried

variable (hlen : expr.length ≤ 16383)
include hlen

theorem le_of_mem_carried (hk : k ≤ expr.length) (hd : d ∈ carried upcase nc expr k) :
    4 * k ≤ d ∧ d ≤ 4 * expr.length ∧ IsState expr d := by
  revert hd
  refine offset_induction (P := fun k => d ∈ carried upcase nc expr k → 4 * k ≤ d ∧ d ≤ 4 * expr.length ∧ IsState expr d)
    ?_ ?_ hk
  · rw [carried_end hlen, mem_singleton]
    rintro rfl
    exact ⟨le_rfl, le_rfl, .inl ⟨by omega, le_rfl⟩⟩
  · intro k hlt ih hd
    have hc := getElem?_eq_getElem hlt
    by_cases hgo : GoesOn upcase nc expr[k]
    · rw [carried_goesOn hlen hc hgo, mem_append] at hd
      rcases hd with hd | hd
      · obtain ⟨rfl | rfl, hstar⟩ := (reach_of_goesOn (by omega) hgo).2 d hd
        · exact ⟨le_rfl, by omega, .inl ⟨by omega, by omega⟩⟩
        · refine ⟨by omega, by omega, .inr ⟨by omega, ?_⟩⟩
          rw [show (4 * k + 3) / 4 = k by omega, Starry, hc]
          exact hstar.imp (congrArg some) (congrArg some)
      · have h := ih hd
        exact ⟨by omega, h.2⟩
    · rw [carried_stops hlen hc hgo] at hd
      obtain rfl := (reach_of_stops (k := k) (by omega) hgo).2 d hd
      exact ⟨by omega, by omega, .inl ⟨by omega, by omega⟩⟩

theorem carried_sorted (hk : k ≤ expr.length) : (carried upcase nc expr k).Pairwise (· ≤ ·) := by
  refine offset_induction (P := fun k => (carried upcase nc expr k).Pairwise (· ≤ ·)) ?_ ?_ hk
  · rw [carried_end hlen]
    exact pairwise_singleton _ _
  · intro k hlt ih
    have hc := getElem?_eq_getElem hlt
    by_cases hgo : GoesOn upcase nc expr[k]
    · obtain ⟨hsorted, hmem⟩ := reach_of_goesOn (k := k) (by omega) hgo
      rw [carried_goesOn hlen hc hgo, pairwise_append]
      refine ⟨hsorted, ih, fun x hx d hd => ?_⟩
      have hx := (hmem x hx).1
      have hle := (le_of_mem_carried hlen hlt hd).1
      omega
    · rw [carried_stops hlen hc hgo, pairwise_iff_forall_sublist]
      intro a b hab
      have hmem := (reach_of_stops (k := k) (by omega) hgo).2
      rw [hmem a (hab.subset (by simp)), hmem b (hab.subset (by simp))]

/-- From an offset behind another the scan lists an end of what it lists from there, or the scan from there stops before. -/
theorem carried_suffix_or (hkj : k ≤ j) (hj : j ≤ expr.length) :
    carried upcase nc expr j <:+ carried upcase nc expr k ∨
      ∀ d ∈ carried upcase nc expr k, d < 4 * j ∨ (d = 4 * j ∧ ¬Starry expr (j - 1)) := by
  induction hkj using Nat.decreasingInduction with
  | self => exact .inl (suffix_refl _)
  | of_succ k hlt ih =>
    have hlt' := hlt.trans_le hj
    have hc := getElem?_eq_getElem hlt'
    by_cases hgo : GoesOn upcase nc expr[k]
    · rw [carried_goesOn hlen hc hgo]
      rcases ih with hsuffix | hbefore
      · exact .inl (hsuffix.trans (suffix_append _ _))
      · refine .inr fun d hd => ?_
        rcases mem_append.mp hd with hd | hd
        · have hd := ((reach_of_goesOn (by omega) hgo).2 d hd).1
          exact .inl (by omega)
        · exact hbefore d hd
    · obtain ⟨⟨hany, hdos⟩, hmem⟩ := reach_of_stops (k := k) (by omega) hgo
      rw [carried_stops hlen hc hgo]
      refine .inr fun d hd => ?_
      rw [hmem d hd]
      rcases Nat.lt_or_eq_of_le hlt with hlt' | rfl
      · exact .inl (by omega)
      · refine .inr ⟨by omega, ?_⟩
        rw [Nat.succ_sub_one, Starry, hc]
        rintro (h | h)
        · exact hany (Option.some.inj h)
        · exact hdos (Option.some.inj h)

theorem layered_fromState {S : ℕ → Prop} (hS : ∀ s, S s → IsState expr s) : Layered (fromState upcase expr nc) S where
  sorted := by
    intro s hs
    rw [fromState_eq_carried (hS s hs)]
    split_ifs
    · exact List.Pairwise.nil
    · exact carried_sorted hlen (hS s hs).placeOf_le
  above := by
    intro s t hs ht hlt
    have hst := hS s hs
    have htt := hS t ht
    rw [fromState_eq_carried hst, fromState_eq_carried htt]
    by_cases htend : placeOf t = expr.length
    · rw [if_pos htend]
      exact .inl (nil_suffix)
    · have hle : placeOf s ≤ placeOf t := Nat.div_le_div_right (by omega)
      have htle := htt.placeOf_le
      rw [if_neg htend, if_neg (by omega)]
      refine (carried_suffix_or hlen hle htle).imp_right fun hbefore d hd => ?_
      have hdt : d ≤ 4 * placeOf t := by
        rcases hbefore d hd with h | h <;> omega
      refine ⟨?_, fun e he => hdt.trans (le_of_mem_carried hlen htle he).1⟩
      -- the only state below its offset is that after a star, where no scan stops
      rcases htt with htz | ⟨htm, hstar⟩
      · unfold placeOf at hdt
        omega
      · have hplace : placeOf t = t / 4 + 1 := by
          unfold placeOf
          omega
        rcases hbefore d hd with h | ⟨-, hnot⟩
        · omega
        · rw [hplace, Nat.add_sub_cancel] at hnot
          exact absurd hstar hnot

end Carried

/-! ### Rounds -/

theorem skips_skipSources (dests sources : List ℕ) : Skips dests sources (skipSources dests sources) := by
  induction dests generalizing sources with
  | nil => exact ⟨[], rfl, fun _ hx => (nomatch hx)⟩
  | cons dest dests ih =>
    cases sources with
    | nil => exact ⟨[], rfl, fun _ hx => (nomatch hx)⟩
    | cons source sources =>
      rw [skipSources]
      split_ifs with hlt
      · obtain ⟨skipped, hsplit, hskipped⟩ := ih sources
        refine ⟨source :: skipped, by rw [cons_append, ← hsplit], fun x hx => ?_⟩
        rcases mem_cons.mp hx with rfl | hx
        · exact ⟨dest, mem_cons_self, hlt⟩
        · obtain ⟨d, hd, hxd⟩ := hskipped x hx
          exact ⟨d, mem_cons_of_mem _ hd, hxd⟩
      · obtain ⟨skipped, hsplit, hskipped⟩ := ih (source :: sources)
        refine ⟨skipped, hsplit, fun x hx => ?_⟩
        obtain ⟨d, hd, hxd⟩ := hskipped x hx
        exact ⟨d, mem_cons_of_mem _ hd, hxd⟩

theorem round_currentMatches (sources : List ℕ) :
    Round (fromState upcase expr nc) sources (currentMatches upcase expr nc sources) := by
  fun_induction currentMatches upcase expr nc sources with
  | case1 => exact .nil
  | case2 source sources dests ih => exact .cons (skips_skipSources _ _) ih

/-- A list of states as the rounds make them. -/
structure IsList (expr : List WCHAR) (states : List ℕ) : Prop where
  climbing : Climbing states
  isState : ∀ s ∈ states, IsState expr s

theorem isList_start : IsList expr [0] where
  climbing := climbing_singleton 0
  isState := by
    intro s hs
    rw [mem_singleton.mp hs]
    exact .inl ⟨rfl, Nat.zero_le _⟩

theorem IsList.currentMatches (hlen : expr.length ≤ 16383) {states : List ℕ} (h : IsList expr states) :
    IsList expr (currentMatches upcase expr nc states) ∧
      ∀ d, d ∈ currentMatches upcase expr nc states ↔ ∃ s ∈ states, d ∈ fromState upcase expr nc s := by
  obtain ⟨hclimbing, hmem⟩ := h.climbing.round (layered_fromState hlen h.isState) (round_currentMatches states)
  refine ⟨⟨hclimbing, fun d hd => ?_⟩, hmem⟩
  obtain ⟨s, hs, hd⟩ := (hmem d).mp hd
  rw [fromState_eq_carried (h.isState s hs)] at hd
  split_ifs at hd
  · cases hd
  · exact (le_of_mem_carried hlen (h.isState s hs).placeOf_le hd).2.2

theorem IsList.getLast_iff (hlen : expr.length ≤ 16383) {states : List ℕ} (h : IsList expr states) :
    states.getLast? = some (maxState expr) ↔ maxState expr ∈ states := by
  constructor
  · exact mem_of_getLast?
  · intro hmem
    have hne : states ≠ [] := ne_nil_of_mem hmem
    have hlast : states.getLast? = some (states.getLast hne) := getLast?_eq_some_getLast hne
    have hle := h.climbing.le_getLast hmem hlast
    have hstate := h.isState _ (getLast_mem hne)
    rw [maxState_eq hlen] at hle ⊢
    rw [hlast]
    congr 1
    rcases hstate with ⟨-, hmax⟩ | ⟨hmod, hstar⟩
    · exact le_antisymm hmax hle
    · have hlt := hstar.lt
      omega

/-- A state leads to the end of the expression with the rest of the name. -/
def LeadsTo (upcase : WCHAR → WCHAR) (expr : List WCHAR) : List WCHAR → ℕ → Prop
  | [], s => s = maxState expr ∨ maxState expr ∈ fromState upcase expr ⟨none, []⟩ s
  | char :: name, s => ∃ d ∈ fromState upcase expr ⟨some char, name⟩ s, LeadsTo upcase expr name d

/-- **The answer depends on the sets of states only**: a name is in the expression if some state leads to its end. -/
theorem matchName_iff_leadsTo (hlen : expr.length ≤ 16383) {name : List WCHAR} {states : List ℕ} (h : IsList expr states) :
    matchName upcase expr name states = true ↔ ∃ s ∈ states, LeadsTo upcase expr name s := by
  induction name generalizing states with
  | nil =>
    obtain ⟨hnext, hmem⟩ := h.currentMatches hlen
    rw [matchName]
    split_ifs with hlast
    · exact iff_of_true rfl ⟨_, (h.getLast_iff hlen).mp hlast, .inl rfl⟩
    · rw [decide_eq_true_iff, hnext.getLast_iff hlen, hmem]
      rw [h.getLast_iff hlen] at hlast
      constructor
      · rintro ⟨s, hs, hmax⟩
        exact ⟨s, hs, .inr hmax⟩
      · rintro ⟨s, hs, rfl | hmax⟩
        · exact absurd hs hlast
        · exact ⟨s, hs, hmax⟩
  | cons char name ih =>
    obtain ⟨hnext, hmem⟩ := h.currentMatches hlen
    have hrest := ih hnext
    rw [matchName]
    have hiff : (∃ d ∈ currentMatches upcase expr ⟨some char, name⟩ states, LeadsTo upcase expr name d) ↔
        ∃ s ∈ states, LeadsTo upcase expr (char :: name) s := by
      constructor
      · rintro ⟨d, hd, hleads⟩
        obtain ⟨s, hs, hd⟩ := (hmem d).mp hd
        exact ⟨s, hs, d, hd, hleads⟩
      · rintro ⟨s, hs, d, hd, hleads⟩
        exact ⟨d, (hmem d).mpr ⟨s, hs, hd⟩, hleads⟩
    rw [← hiff]
    split_ifs with hnil
    · refine iff_of_false not_false ?_
      rintro ⟨d, hd, -⟩
      rw [hnil] at hd
      exact not_mem_nil hd
    · exact hrest

end Name

end Nt365.FsRtl
