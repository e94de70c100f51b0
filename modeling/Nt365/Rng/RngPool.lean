import Nt365.Library.Cyclist
import Nt365.Rng.Xoodoo
import Mathlib.Tactic.IntervalCases

/-!
# The random pool

`RNG/RNGPOOL.C` keeps a Cyclist object in hash mode. Entropy is absorbed into it, and random bytes
are squeezed from it; after each output the ratchet forgets the first 16 bytes.

## The model

The state is twelve lanes and the phase. The permutation is a parameter, `xoodoo`; with
`rngpXoodoo` it is the code's own. Buffers are lists of bytes. The spin lock is left out: each call
runs under it from start to end.

## The results

The calls compute the Cyclist operations on the 48 bytes of the lanes (`run_refines`). Entropy is
never lost: adding a known input is injective. After an output the first 16 bytes are zero, and each
state that a call leaves is left by exactly `2 ^ 128` states.
-/

namespace Nt365.Rng

open Nt365.Library

/-- `RNG_RATE`. -/
def rngRate : ℕ := 16

/-- `RNG_CYCLIST`. -/
structure RngCyclist where
  state : Lanes
  phaseUp : Bool

variable (s : Lanes)

/-- The bytes of the lanes, in little-endian order. -/
def stateByte (i : Fin 48) : Byte := (s ⟨i.val / 4, by omega⟩ >>> (8 * (i.val % 4))).setWidth 8

/-- The buffer that `RngpDown` adds: the input, the padding and the domain byte. -/
def fill (xi : List Byte) (cd : Byte) (i : Fin 48) : Byte :=
  xi.getD i 0 ^^^ (if i.val = xi.length then 1 else 0) ^^^ (if i.val = 47 then cd &&& 1 else 0)

/-- A lane of four bytes. -/
def laneOf (bytes : Fin 48 → Byte) (i : Fin 12) : BitVec 32 :=
  (bytes ⟨i.val * 4, by omega⟩).setWidth 32 ||| ((bytes ⟨i.val * 4 + 1, by omega⟩).setWidth 32 <<< 8) |||
    ((bytes ⟨i.val * 4 + 2, by omega⟩).setWidth 32 <<< 16) ||| ((bytes ⟨i.val * 4 + 3, by omega⟩).setWidth 32 <<< 24)

def rngpDown (xk : RngCyclist) (xi : List Byte) (cd : Byte) : RngCyclist :=
  ⟨fun i => xk.state i ^^^ laneOf (fill xi cd) i, false⟩

section Model

variable (xoodoo : Lanes → Lanes)

/-- `RngpUp`, with the bytes that it extracts. -/
def rngpUp (xk : RngCyclist) (outLength : ℕ) : List Byte × RngCyclist :=
  ((List.ofFn (stateByte (xoodoo xk.state))).take outLength, ⟨xoodoo xk.state, true⟩)

def rngpAbsorbAny (xk : RngCyclist) (x : List Byte) (cd : Byte) : RngCyclist :=
  let xk := if !xk.phaseUp then (rngpUp xoodoo xk 0).2 else xk
  -- `absorbLen` is the rate until the last block
  let absorbLen := min x.length rngRate
  let xk := rngpDown xk (x.take absorbLen) cd
  if x.length - absorbLen = 0 then xk else rngpAbsorbAny xk (x.drop absorbLen) 0
termination_by x.length
decreasing_by
  simp only [List.length_drop, rngRate] at *
  omega

/-- The loop of `RngpSqueezeAny`, with the number of bytes that are still to be produced. -/
def squeezeLoop (xk : RngCyclist) (remaining : ℕ) : List Byte × RngCyclist :=
  if 0 < remaining then
    let xk := rngpDown xk [] 0
    let squeezeLen := min remaining rngRate
    let r := rngpUp xoodoo xk squeezeLen
    let rest := squeezeLoop r.2 (remaining - squeezeLen)
    (r.1 ++ rest.1, rest.2)
  else ([], xk)
termination_by remaining
decreasing_by
  simp only [rngRate]
  omega

def rngpSqueezeAny (xk : RngCyclist) (length : ℕ) : List Byte × RngCyclist :=
  let squeezeLen := min length rngRate
  let r := rngpUp xoodoo xk squeezeLen
  let rest := squeezeLoop xoodoo r.2 (length - squeezeLen)
  (r.1 ++ rest.1, rest.2)

def rngpRatchet (xk : RngCyclist) : RngCyclist :=
  let r := rngpSqueezeAny xoodoo xk rngRate
  rngpAbsorbAny xoodoo r.2 r.1 0

def rngAddEntropy (pool : RngCyclist) (buffer : List Byte) : RngCyclist :=
  if buffer.length = 0 then pool else rngpAbsorbAny xoodoo pool buffer 3

def rngGenerateBytes (pool : RngCyclist) (length : ℕ) : List Byte × RngCyclist :=
  if length = 0 then ([], pool)
  else
    let r := rngpSqueezeAny xoodoo pool length
    (r.1, rngpRatchet xoodoo r.2)

end Model

/-! ### Lanes and bytes -/

theorem stateByte_xor (s t : Lanes) (i : Fin 48) : stateByte (fun j => s j ^^^ t j) i = stateByte s i ^^^ stateByte t i := by
  simp only [stateByte, BitVec.ushiftRight_xor_distrib, BitVec.setWidth_xor]

theorem setWidth_lane (b : Fin 4 → Byte) (j : Fin 4) :
    (((b 0).setWidth 32 ||| ((b 1).setWidth 32 <<< 8) ||| ((b 2).setWidth 32 <<< 16) ||| ((b 3).setWidth 32 <<< 24)) >>>
      (8 * j.val)).setWidth 8 = b j := by
  apply BitVec.eq_of_getLsbD_eq
  intro k hk
  fin_cases j <;> interval_cases k <;> simp

theorem stateByte_laneOf (bytes : Fin 48 → Byte) : stateByte (laneOf bytes) = bytes := by
  funext i
  have hlt : i.val % 4 < 4 := Nat.mod_lt _ (by decide)
  have hbyte := setWidth_lane (fun j => bytes ⟨i.val / 4 * 4 + j.val, by omega⟩) ⟨i.val % 4, hlt⟩
  have hi : (⟨i.val / 4 * 4 + i.val % 4, by omega⟩ : Fin 48) = i := Fin.ext (by dsimp only; omega)
  simp only [hi] at hbyte
  exact hbyte

theorem lane_eq (w : BitVec 32) :
    (w.setWidth 8).setWidth 32 ||| (((w >>> 8).setWidth 8).setWidth 32 <<< 8) |||
      (((w >>> 16).setWidth 8).setWidth 32 <<< 16) ||| (((w >>> 24).setWidth 8).setWidth 32 <<< 24) = w := by
  apply BitVec.eq_of_getLsbD_eq
  intro k hk
  interval_cases k <;> simp

theorem laneOf_stateByte : laneOf (stateByte s) = s := by
  funext i
  have hlane := lane_eq (s i)
  simp only [laneOf, stateByte]
  have h0 : (⟨i.val * 4 / 4, by omega⟩ : Fin 12) = i := Fin.ext (by dsimp only; omega)
  have h1 : (⟨(i.val * 4 + 1) / 4, by omega⟩ : Fin 12) = i := Fin.ext (by dsimp only; omega)
  have h2 : (⟨(i.val * 4 + 2) / 4, by omega⟩ : Fin 12) = i := Fin.ext (by dsimp only; omega)
  have h3 : (⟨(i.val * 4 + 3) / 4, by omega⟩ : Fin 12) = i := Fin.ext (by dsimp only; omega)
  rw [h0, h1, h2, h3, show i.val * 4 % 4 = 0 by omega, show (i.val * 4 + 1) % 4 = 1 by omega,
    show (i.val * 4 + 2) % 4 = 2 by omega, show (i.val * 4 + 3) % 4 = 3 by omega]
  exact hlane

/-- Lanes and bytes are the same states. -/
def bytesEquiv : Lanes ≃ (Fin 48 → Byte) := ⟨stateByte, laneOf, laneOf_stateByte, stateByte_laneOf⟩

variable (xoodoo : Lanes → Lanes)

/-- The permutation on bytes. -/
def onBytes (s : Fin 48 → Byte) : Fin 48 → Byte := stateByte (xoodoo (laneOf s))

theorem onBytes_bijective {xoodoo : Lanes → Lanes} (hx : Function.Bijective xoodoo) : Function.Bijective (onBytes xoodoo) :=
  bytesEquiv.bijective.comp (hx.comp bytesEquiv.symm.bijective)

/-! ### The Cyclist operations -/

def RngCyclist.toCyclist (xk : RngCyclist) : Cyclist 48 := ⟨stateByte xk.state, xk.phaseUp⟩

theorem RngCyclist.toCyclist_injective : Function.Injective RngCyclist.toCyclist := by
  rintro ⟨s, u⟩ ⟨t, v⟩ h
  obtain ⟨hstate, hphase⟩ := Cyclist.mk.inj h
  have hs : s = t := bytesEquiv.injective hstate
  have hu : u = v := hphase
  rw [hs, hu]

theorem toCyclist_rngpDown (xk : RngCyclist) {xi : List Byte} (hxi : xi.length ≤ rngRate) (cd : Byte) :
    (rngpDown xk xi cd).toCyclist = Cyclist.down xi cd xk.toCyclist := by
  simp only [rngRate] at hxi
  have hfill : ∀ i, fill xi cd i = (Cyclist.padded 48 xi cd).getD i 0 := by
    intro i
    rw [Cyclist.padded_getD (by omega), fill]
    simp only [Nat.reduceEqDiff]
  rw [RngCyclist.toCyclist, rngpDown, Cyclist.down]
  congr 1
  funext i
  rw [stateByte_xor, stateByte_laneOf, hfill]
  rfl

section Refinement

variable (xoodoo : Lanes → Lanes)

variable (xk : RngCyclist)

theorem toCyclist_rngpUp (n : ℕ) :
    (rngpUp xoodoo xk n).2.toCyclist = Cyclist.up (onBytes xoodoo) xk.toCyclist ∧
      (rngpUp xoodoo xk n).1 = Cyclist.first n (Cyclist.up (onBytes xoodoo) xk.toCyclist) := by
  simp only [rngpUp, RngCyclist.toCyclist, Cyclist.up, Cyclist.first, onBytes, laneOf_stateByte, and_self]

theorem toCyclist_rngpAbsorbAny (x : List Byte) (cd : Byte) :
    (rngpAbsorbAny xoodoo xk x cd).toCyclist = Cyclist.absorbAny rngRate (onBytes xoodoo) x cd xk.toCyclist := by
  induction hn : x.length using Nat.strong_induction_on generalizing xk x cd with
  | h n ih =>
    generalize hxk' : (if !xk.phaseUp then (rngpUp xoodoo xk 0).2 else xk) = xk'
    have hraise : xk'.toCyclist = if xk.toCyclist.isUp then xk.toCyclist else Cyclist.up (onBytes xoodoo) xk.toCyclist := by
      rw [← hxk']
      cases hphase : xk.phaseUp with
      | true => rw [if_neg (by simp), if_pos (show xk.toCyclist.isUp = true from hphase)]
      | false =>
        rw [if_pos (by simp), if_neg (by simp [RngCyclist.toCyclist, hphase])]
        exact (toCyclist_rngpUp xoodoo xk 0).1
    rw [rngpAbsorbAny, Cyclist.absorbAny, Cyclist.split]
    simp only [hxk']
    by_cases hlong : rngRate < x.length
    · have hmin : min x.length rngRate = rngRate := by omega
      have htake : (x.take rngRate).length ≤ rngRate := by rw [List.length_take]; omega
      rw [hmin, if_neg (by omega), if_pos ⟨by decide, hlong⟩, Cyclist.absorbBlocks, ← hraise,
        ← toCyclist_rngpDown xk' htake cd]
      exact ih (x.drop rngRate).length (by rw [List.length_drop]; simp only [rngRate] at *; omega) _ _ _ rfl
    · have hmin : min x.length rngRate = x.length := by omega
      rw [hmin, if_pos (by omega), if_neg (by omega), List.take_length, Cyclist.absorbBlocks, Cyclist.absorbBlocks, ← hraise]
      exact toCyclist_rngpDown xk' (by omega) cd

theorem toCyclist_squeezeLoop (n : ℕ) :
    (squeezeLoop xoodoo xk n).2.toCyclist = (Cyclist.squeezeMore rngRate (onBytes xoodoo) n xk.toCyclist).2 ∧
      (squeezeLoop xoodoo xk n).1 = (Cyclist.squeezeMore rngRate (onBytes xoodoo) n xk.toCyclist).1 := by
  induction n using Nat.strong_induction_on generalizing xk with
  | h n ih =>
    rw [squeezeLoop]
    by_cases hn : 0 < n
    · obtain ⟨hup, hout⟩ := toCyclist_rngpUp xoodoo (rngpDown xk [] 0) (min n rngRate)
      rw [toCyclist_rngpDown xk (Nat.zero_le _) 0] at hup hout
      have hsub : n - min n rngRate = n - rngRate := by omega
      obtain ⟨hrest, hrest'⟩ := ih (n - rngRate) (by simp only [rngRate]; omega)
        (rngpUp xoodoo (rngpDown xk [] 0) (min n rngRate)).2
      rw [if_pos hn, Cyclist.squeezeMore_pos ⟨by decide, hn⟩]
      simp only [hsub, hrest, hrest', hup, hout, and_self]
    · rw [if_neg hn, Cyclist.squeezeMore_neg (fun h => hn h.2)]
      exact ⟨rfl, rfl⟩

theorem toCyclist_rngpSqueezeAny (n : ℕ) :
    (rngpSqueezeAny xoodoo xk n).2.toCyclist = (Cyclist.squeezeAny rngRate (onBytes xoodoo) n xk.toCyclist).2 ∧
      (rngpSqueezeAny xoodoo xk n).1 = (Cyclist.squeezeAny rngRate (onBytes xoodoo) n xk.toCyclist).1 := by
  obtain ⟨hup, hout⟩ := toCyclist_rngpUp xoodoo xk (min n rngRate)
  obtain ⟨hrest, hrest'⟩ := toCyclist_squeezeLoop xoodoo (rngpUp xoodoo xk (min n rngRate)).2 (n - rngRate)
  have hsub : n - min n rngRate = n - rngRate := by omega
  simp only [rngpSqueezeAny, Cyclist.squeezeAny, hsub, hrest, hrest', hup, hout, and_self]

theorem toCyclist_rngpRatchet : (rngpRatchet xoodoo xk).toCyclist = Cyclist.ratchet rngRate (onBytes xoodoo) xk.toCyclist := by
  obtain ⟨hstate, hout⟩ := toCyclist_rngpSqueezeAny xoodoo xk rngRate
  rw [rngpRatchet, toCyclist_rngpAbsorbAny, hstate, hout]
  rfl

theorem toCyclist_rngpRatchet_eq :
    (rngpRatchet xoodoo xk).toCyclist = ⟨Cyclist.forget 16 (onBytes xoodoo xk.toCyclist.state), false⟩ :=
  (toCyclist_rngpRatchet xoodoo xk).trans (Cyclist.ratchet_eq (by decide) (onBytes xoodoo) _)

end Refinement

/-! ### Runs -/

inductive Call where
  | addEntropy (buffer : List Byte)
  | generateBytes (length : ℕ)

/-- The calls one after the other, with the bytes that each returns. -/
def runCalls {σ : Type} (step : σ → Call → List Byte × σ) : σ → List Call → List (List Byte) × σ
  | pool, [] => ([], pool)
  | pool, call :: calls =>
    let r := step pool call
    let rest := runCalls step r.2 calls
    (r.1 :: rest.1, rest.2)

def poolStep (pool : RngCyclist) : Call → List Byte × RngCyclist
  | .addEntropy buffer => ([], rngAddEntropy xoodoo pool buffer)
  | .generateBytes length => rngGenerateBytes xoodoo pool length

/-- The calls by the definition of the hash mode. A call without bytes does nothing. -/
def cyclistStep (f : (Fin 48 → Byte) → Fin 48 → Byte) (c : Cyclist 48) : Call → List Byte × Cyclist 48
  | .addEntropy [] => ([], c)
  | .addEntropy (x :: X) => ([], Cyclist.absorbAny 16 f (x :: X) 3 c)
  | .generateBytes 0 => ([], c)
  | .generateBytes (n + 1) =>
    let r := Cyclist.squeezeAny 16 f (n + 1) c
    (r.1, Cyclist.ratchet 16 f r.2)

theorem poolStep_refines (pool : RngCyclist) (call : Call) :
    (poolStep xoodoo pool call).1 = (cyclistStep (onBytes xoodoo) pool.toCyclist call).1 ∧
      (poolStep xoodoo pool call).2.toCyclist = (cyclistStep (onBytes xoodoo) pool.toCyclist call).2 := by
  cases call with
  | addEntropy buffer =>
    cases buffer with
    | nil => exact ⟨rfl, rfl⟩
    | cons x X => exact ⟨rfl, toCyclist_rngpAbsorbAny xoodoo pool (x :: X) 3⟩
  | generateBytes n =>
    cases n with
    | zero => exact ⟨rfl, rfl⟩
    | succ n =>
      obtain ⟨hstate, hout⟩ := toCyclist_rngpSqueezeAny xoodoo pool (n + 1)
      rw [poolStep, rngGenerateBytes, if_neg (Nat.succ_ne_zero n)]
      exact ⟨hout, (toCyclist_rngpRatchet xoodoo _).trans (congrArg _ hstate)⟩

/-- **The calls compute the hash mode**: outputs and states agree in every run. -/
theorem run_refines (pool : RngCyclist) (calls : List Call) :
    (runCalls (poolStep xoodoo) pool calls).1 = (runCalls (cyclistStep (onBytes xoodoo)) pool.toCyclist calls).1 ∧
      (runCalls (poolStep xoodoo) pool calls).2.toCyclist =
        (runCalls (cyclistStep (onBytes xoodoo)) pool.toCyclist calls).2 := by
  induction calls generalizing pool with
  | nil => exact ⟨rfl, rfl⟩
  | cons call calls ih =>
    obtain ⟨hout, hstate⟩ := poolStep_refines xoodoo pool call
    obtain ⟨hrest, hlast⟩ := ih (poolStep xoodoo pool call).2
    rw [hstate] at hrest hlast
    exact ⟨congrArg₂ List.cons hout hrest, hlast⟩

/-! ### Forgetting -/

theorem toCyclist_rngAddEntropy {xoodoo : Lanes → Lanes} (pool : RngCyclist) {buffer : List Byte} (hne : buffer ≠ []) :
    (rngAddEntropy xoodoo pool buffer).toCyclist = Cyclist.absorbAny 16 (onBytes xoodoo) buffer 3 pool.toCyclist := by
  rw [rngAddEntropy, if_neg (by rwa [List.length_eq_zero_iff])]
  exact toCyclist_rngpAbsorbAny xoodoo pool buffer 3

section Forget

variable {xoodoo : Lanes → Lanes} (hx : Function.Bijective xoodoo)

include hx

theorem rngAddEntropy_injective (buffer : List Byte) (u : Bool) :
    Function.Injective fun s : Lanes => rngAddEntropy xoodoo ⟨s, u⟩ buffer := by
  intro s t h
  by_cases hne : buffer = []
  · subst hne
    exact congrArg RngCyclist.state h
  · obtain ⟨g, hg, hop⟩ := Cyclist.permutes_absorbAny 16 (onBytes_bijective hx) buffer 3 u
    have hc := congrArg RngCyclist.toCyclist h
    simp only [toCyclist_rngAddEntropy _ hne] at hc
    have hg' : g (stateByte s) = g (stateByte t) := (Cyclist.mk.inj ((hop _).symm.trans (hc.trans (hop _)))).1
    exact bytesEquiv.injective (hg.1 hg')

/-- What a call leaves is a permutation of what it found, with its first 16 bytes forgotten. -/
theorem exists_generateBytes {n : ℕ} (hn : 0 < n) :
    ∃ g : (Fin 48 → Byte) → Fin 48 → Byte, Function.Bijective g ∧
      ∀ s u, (rngGenerateBytes xoodoo ⟨s, u⟩ n).2.toCyclist = ⟨Cyclist.forget 16 (g (stateByte s)), false⟩ := by
  have hf := onBytes_bijective hx
  -- the phase in which the call starts is of no account
  obtain ⟨g, hg, hop⟩ := Cyclist.permutes_squeezeAny 16 hf n true
  refine ⟨onBytes xoodoo ∘ g, hf.comp hg, fun s u => ?_⟩
  have hsqueeze : (rngpSqueezeAny xoodoo ⟨s, u⟩ n).2.toCyclist = ⟨g (stateByte s), true⟩ :=
    (toCyclist_rngpSqueezeAny xoodoo ⟨s, u⟩ n).1.trans (hop (stateByte s))
  rw [rngGenerateBytes, if_neg (by omega), toCyclist_rngpRatchet_eq, hsqueeze]
  rfl

theorem rngGenerateBytes_zeroes (pool : RngCyclist) {n : ℕ} (hn : 0 < n) :
    (∀ i : Fin 48, i.val < 16 → stateByte (rngGenerateBytes xoodoo pool n).2.state i = 0) ∧
      (rngGenerateBytes xoodoo pool n).2.phaseUp = false := by
  obtain ⟨g, -, hleft⟩ := exists_generateBytes hx hn
  obtain ⟨hstate, hphase⟩ := Cyclist.mk.inj (hleft pool.state pool.phaseUp)
  refine ⟨fun i hi => ?_, hphase⟩
  have hi' := congrFun hstate i
  rwa [Cyclist.forget, if_pos hi] at hi'

theorem card_rngGenerateBytes (pool : RngCyclist) (u : Bool) {n : ℕ} (hn : 0 < n) :
    Nat.card {s : Lanes // (rngGenerateBytes xoodoo ⟨s, u⟩ n).2 = (rngGenerateBytes xoodoo pool n).2} = 2 ^ 128 := by
  obtain ⟨g, hg, hleft⟩ := exists_generateBytes hx hn
  have hiff : ∀ s : Lanes, (rngGenerateBytes xoodoo ⟨s, u⟩ n).2 = (rngGenerateBytes xoodoo pool n).2 ↔
      Cyclist.forget 16 (g (bytesEquiv s)) = Cyclist.forget 16 (g (stateByte pool.state)) := by
    intro s
    rw [← RngCyclist.toCyclist_injective.eq_iff, hleft s u, show pool = ⟨pool.state, pool.phaseUp⟩ from rfl, hleft,
      Cyclist.mk.injEq]
    exact and_iff_left rfl
  rw [← Cyclist.card_forget (R := 16) (by decide) hg (g (stateByte pool.state))]
  exact Nat.card_congr (bytesEquiv.subtypeEquiv hiff)

/-- Two states that the permutation takes to the same string up to its first 16 bytes, and that
differ in the first byte, give two outputs before one and the same state. -/
theorem exists_outputs_ne {c d : Lanes} (hforget : Cyclist.forget 16 (stateByte (xoodoo c)) =
    Cyclist.forget 16 (stateByte (xoodoo d))) (hne : stateByte c 0 ≠ stateByte d 0) (u : Bool) {n : ℕ} (hn : 0 < n) :
    ∃ s t : Lanes, (rngGenerateBytes xoodoo ⟨s, u⟩ n).2 = (rngGenerateBytes xoodoo ⟨t, u⟩ n).2 ∧
      (rngGenerateBytes xoodoo ⟨s, u⟩ n).1 ≠ (rngGenerateBytes xoodoo ⟨t, u⟩ n).1 := by
  obtain ⟨g, hg, hop⟩ := Cyclist.permutes_squeezeAny 16 (onBytes_bijective hx) n u
  -- from some state the squeezing ends in any given state
  have hreach : ∀ c : Lanes, ∃ s : Lanes, (rngpSqueezeAny xoodoo ⟨s, u⟩ n).2 = ⟨c, true⟩ := by
    intro c
    obtain ⟨s, hs⟩ := hg.2 (stateByte c)
    refine ⟨laneOf s, RngCyclist.toCyclist_injective ?_⟩
    rw [(toCyclist_rngpSqueezeAny xoodoo _ n).1, RngCyclist.toCyclist, stateByte_laneOf]
    exact (hop s).trans (congrArg (fun y => (⟨y, true⟩ : Cyclist 48)) hs)
  -- and its last block is the beginning of that state
  have hlast : ∀ {c s : Lanes}, (rngpSqueezeAny xoodoo ⟨s, u⟩ n).2 = ⟨c, true⟩ →
      ((rngpSqueezeAny xoodoo ⟨s, u⟩ n).1.drop (16 * ((n - 1) / 16))).getD 0 0 = stateByte c 0 := by
    intro c s hs
    obtain ⟨hstate, hout⟩ := toCyclist_rngpSqueezeAny xoodoo ⟨s, u⟩ n
    rw [hs] at hstate
    have hdrop := Cyclist.squeezeAny_drop (R := 16) (by decide) (by decide) hn (onBytes xoodoo) (RngCyclist.toCyclist ⟨s, u⟩)
    rw [hout, show rngRate = 16 from rfl, hdrop, show (16 : ℕ) = rngRate from rfl, ← hstate]
    exact (Cyclist.first_getD _ _ 0).trans (if_pos (Nat.succ_pos _))
  obtain ⟨s, hs⟩ := hreach c
  obtain ⟨t, ht⟩ := hreach d
  refine ⟨s, t, ?_, ?_⟩
  · simp only [rngGenerateBytes, if_neg (show ¬n = 0 by omega), hs, ht]
    apply RngCyclist.toCyclist_injective
    rw [toCyclist_rngpRatchet_eq, toCyclist_rngpRatchet_eq]
    simp only [RngCyclist.toCyclist, onBytes, laneOf_stateByte, hforget]
  · intro heq
    simp only [rngGenerateBytes, if_neg (show ¬n = 0 by omega)] at heq
    apply hne
    rw [← hlast hs, ← hlast ht, heq]

end Forget

/-- A state that the permutation takes to `Xoodoo[12](0)`, but for the first bit. -/
def twinOfZero : Lanes :=
  ![0xC5593234, 0x438A1EA8, 0xBDF5DEFB, 0x931347EC, 0xE7418F1B, 0xE6D019C2, 0xF067E4D7, 0xF1F50472, 0x782D7EEA, 0xA1ABAD65,
    0xCC44D597, 0x7A559443]

theorem forget_twinOfZero :
    Cyclist.forget 16 (stateByte (rngpXoodoo fun _ => 0)) = Cyclist.forget 16 (stateByte (rngpXoodoo twinOfZero)) := by
  decide +kernel

/-- **The pool.** Whatever the permutation is: known entropy merges no two states; an output leaves
16 zero bytes and the phase `Down`; each state that it leaves is left by exactly `2 ^ 128` states; and
every run is a run of the hash mode. For Xoodoo itself, outputs of every length are not determined by
the state that is left. -/
theorem rngPool_forgets {xoodoo : Lanes → Lanes} (hx : Function.Bijective xoodoo) :
    (∀ buffer u, Function.Injective fun s : Lanes => rngAddEntropy xoodoo ⟨s, u⟩ buffer) ∧
    (∀ pool n, 0 < n → (∀ i : Fin 48, i.val < 16 → stateByte (rngGenerateBytes xoodoo pool n).2.state i = 0) ∧
      (rngGenerateBytes xoodoo pool n).2.phaseUp = false) ∧
    (∀ pool u n, 0 < n →
      Nat.card {s : Lanes // (rngGenerateBytes xoodoo ⟨s, u⟩ n).2 = (rngGenerateBytes xoodoo pool n).2} = 2 ^ 128) ∧
    (∀ u n, 0 < n → ∃ s t : Lanes, (rngGenerateBytes rngpXoodoo ⟨s, u⟩ n).2 = (rngGenerateBytes rngpXoodoo ⟨t, u⟩ n).2 ∧
      (rngGenerateBytes rngpXoodoo ⟨s, u⟩ n).1 ≠ (rngGenerateBytes rngpXoodoo ⟨t, u⟩ n).1) ∧
    (∀ pool calls,
      (runCalls (poolStep xoodoo) pool calls).1 = (runCalls (cyclistStep (onBytes xoodoo)) pool.toCyclist calls).1 ∧
        (runCalls (poolStep xoodoo) pool calls).2.toCyclist =
          (runCalls (cyclistStep (onBytes xoodoo)) pool.toCyclist calls).2) := by
  refine ⟨rngAddEntropy_injective hx, fun pool n hn => rngGenerateBytes_zeroes hx pool hn,
    fun pool u n hn => card_rngGenerateBytes hx pool u hn, fun u n hn => ?_, run_refines xoodoo⟩
  exact exists_outputs_ne rngpXoodoo_bijective forget_twinOfZero (by decide) u hn

/-- With the permutation of the code. -/
theorem rngPool_forgets_rngpXoodoo :
    Function.Bijective rngpXoodoo ∧ (∀ pool u n, 0 < n →
      Nat.card {s : Lanes // (rngGenerateBytes rngpXoodoo ⟨s, u⟩ n).2 = (rngGenerateBytes rngpXoodoo pool n).2} = 2 ^ 128) :=
  ⟨rngpXoodoo_bijective, (rngPool_forgets rngpXoodoo_bijective).2.2.1⟩

/-- Two planes exchanged. -/
def exchange : Lanes := fun i =>
  if i.val < 4 then s ⟨i.val % 4 + 4, by omega⟩ else if i.val < 8 then s ⟨i.val % 4, by omega⟩ else s i

theorem exchange_involutive : Function.Involutive exchange := by
  intro s
  funext i
  fin_cases i <;> rfl

theorem exchange_apply (j : Fin 4) : exchange s ⟨j.val, by omega⟩ = s ⟨j.val + 4, by omega⟩ := by
  fin_cases j <;> rfl

/-- For a permutation that only exchanges two planes, the state after 16 bytes determines them. -/
theorem exchange_generateBytes (u : Bool) :
    (rngGenerateBytes exchange ⟨s, u⟩ 16).1 = (List.ofFn (stateByte (exchange s))).take 16 ∧
      (rngGenerateBytes exchange ⟨s, u⟩ 16).2.toCyclist = ⟨Cyclist.forget 16 (stateByte s), false⟩ := by
  have hsqueeze : rngpSqueezeAny exchange ⟨s, u⟩ 16 = ((List.ofFn (stateByte (exchange s))).take 16, ⟨exchange s, true⟩) := by
    rw [rngpSqueezeAny]
    simp only [rngRate, Nat.min_self, Nat.sub_self]
    rw [squeezeLoop, if_neg (by decide)]
    simp only [rngpUp, List.append_nil]
  rw [rngGenerateBytes, if_neg (by decide), hsqueeze]
  refine ⟨rfl, ?_⟩
  rw [toCyclist_rngpRatchet_eq, RngCyclist.toCyclist, onBytes, laneOf_stateByte, exchange_involutive s]

/-- A call for no bytes forgets nothing, and not every permutation hides the output that was just
returned. -/
theorem rngGenerateBytes_not_forgets :
    (∀ s, Nat.card {t : Lanes // (rngGenerateBytes rngpXoodoo ⟨t, true⟩ 0).2 = (rngGenerateBytes rngpXoodoo ⟨s, true⟩ 0).2} = 1) ∧
    Function.Bijective exchange ∧
    ∀ s t : Lanes, (rngGenerateBytes exchange ⟨s, true⟩ 16).2 = (rngGenerateBytes exchange ⟨t, true⟩ 16).2 →
      (rngGenerateBytes exchange ⟨s, true⟩ 16).1 = (rngGenerateBytes exchange ⟨t, true⟩ 16).1 := by
  refine ⟨fun s => ?_, exchange_involutive.bijective, fun s t h => ?_⟩
  · rw [Nat.card_eq_one_iff_exists]
    exact ⟨⟨s, rfl⟩, fun t => Subtype.ext (congrArg RngCyclist.state t.property)⟩
  · obtain ⟨hout, hleft⟩ := exchange_generateBytes s true
    obtain ⟨hout', hleft'⟩ := exchange_generateBytes t true
    have hforget := (Cyclist.mk.inj (hleft.symm.trans ((congrArg _ h).trans hleft'))).1
    rw [Cyclist.forget_eq_iff] at hforget
    have hlane : ∀ j : Fin 4, exchange s ⟨j.val, by omega⟩ = exchange t ⟨j.val, by omega⟩ := by
      intro j
      rw [exchange_apply s, exchange_apply t, ← laneOf_stateByte s, ← laneOf_stateByte t]
      simp only [laneOf]
      rw [hforget _ (by simp only; omega), hforget _ (by simp only; omega), hforget _ (by simp only; omega),
        hforget _ (by simp only; omega)]
    rw [hout, hout']
    apply List.ext_getElem (by simp)
    intro i hi _
    rw [List.length_take] at hi
    rw [List.getElem_take, List.getElem_take, List.getElem_ofFn, List.getElem_ofFn, stateByte, stateByte,
      hlane ⟨i / 4, by omega⟩]

end Nt365.Rng
