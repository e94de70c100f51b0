import Nt365.Library.Buffer
import Mathlib.Data.Fintype.BigOperators
import Mathlib.SetTheory.Cardinal.Finite

/-!
# The Cyclist mode in its hash mode

A Cyclist object is a string of `b` bytes and a phase. `Down` adds a padded block to the string,
`Up` applies a permutation `f`. Inputs are absorbed in blocks of at most `R` bytes and outputs are
squeezed in blocks of at most `R` bytes.

Whatever the permutation is, absorbing a given input and squeezing a given number of bytes permute
the strings. The ratchet absorbs the first `R` bytes into themselves: it forgets them, and nothing
else (`card_forget`).
-/

namespace Nt365.Library

/-- A Cyclist object. -/
structure Cyclist (b : ℕ) where
  state : Fin b → Byte
  isUp : Bool

namespace Cyclist

variable {b : ℕ}

/-- `X ‖ 01 ‖ 00* ‖ cd`, with the least bit of the domain byte only. -/
def padded (b : ℕ) (X : List Byte) (cd : Byte) : List Byte := X ++ 1 :: (List.replicate (b - 2 - X.length) 0 ++ [cd &&& 1])

variable (X : List Byte)

/-- The string with other bytes added to it. -/
def inject (s : Fin b → Byte) : Fin b → Byte := fun i => s i ^^^ X.getD i 0

def down (cd : Byte) (c : Cyclist b) : Cyclist b := ⟨inject (padded b X cd) c.state, false⟩

def up (f : (Fin b → Byte) → Fin b → Byte) (c : Cyclist b) : Cyclist b := ⟨f c.state, true⟩

/-- The first bytes of the string. -/
def first (n : ℕ) (c : Cyclist b) : List Byte := (List.ofFn c.state).take n

/-- The blocks of an input: one empty block if it is empty. -/
def split (R : ℕ) (X : List Byte) : List (List Byte) :=
  if 0 < R ∧ R < X.length then X.take R :: split R (X.drop R) else [X]
termination_by X.length

def absorbBlocks (f : (Fin b → Byte) → Fin b → Byte) : List (List Byte) → Byte → Cyclist b → Cyclist b
  | [], _, c => c
  | X :: blocks, cd, c => absorbBlocks f blocks 0 (down X cd (if c.isUp then c else up f c))

variable (R : ℕ)

def absorbAny (f : (Fin b → Byte) → Fin b → Byte) (X : List Byte) (cd : Byte) (c : Cyclist b) : Cyclist b :=
  absorbBlocks f (split R X) cd c

/-- The blocks after the first. -/
def squeezeMore (R : ℕ) (f : (Fin b → Byte) → Fin b → Byte) (n : ℕ) (c : Cyclist b) : List Byte × Cyclist b :=
  if 0 < R ∧ 0 < n then
    let c := up f (down [] 0 c)
    let r := squeezeMore R f (n - R) c
    (first (min n R) c ++ r.1, r.2)
  else ([], c)
termination_by n

def squeezeAny (f : (Fin b → Byte) → Fin b → Byte) (n : ℕ) (c : Cyclist b) : List Byte × Cyclist b :=
  let c := up f c
  let r := squeezeMore R f (n - R) c
  (first (min n R) c ++ r.1, r.2)

/-- `R` bytes are squeezed and absorbed. -/
def ratchet (f : (Fin b → Byte) → Fin b → Byte) (c : Cyclist b) : Cyclist b :=
  let r := squeezeAny R f R c
  absorbAny R f r.1 0 r.2

/-! ### Permutations of the strings -/

/-- In one phase the operation permutes the strings, and it ends in another. -/
def Permutes (op : Cyclist b → Cyclist b) (before after : Bool) : Prop :=
  ∃ g : (Fin b → Byte) → Fin b → Byte, Function.Bijective g ∧ ∀ s, op ⟨s, before⟩ = ⟨g s, after⟩

theorem Permutes.comp {op op' : Cyclist b → Cyclist b} {u v w : Bool} (h' : Permutes op' v w) (h : Permutes op u v) :
    Permutes (fun c => op' (op c)) u w := by
  obtain ⟨g', hg', hop'⟩ := h'
  obtain ⟨g, hg, hop⟩ := h
  exact ⟨g' ∘ g, hg'.comp hg, fun s => (congrArg op' (hop s)).trans (hop' (g s))⟩

theorem inject_involutive : Function.Involutive (inject (b := b) X) := by
  intro s
  funext i
  simp only [inject]
  rw [BitVec.xor_assoc, BitVec.xor_self, BitVec.xor_zero]

theorem permutes_down (X : List Byte) (cd : Byte) (u : Bool) : Permutes (b := b) (down X cd) u false :=
  ⟨inject (padded b X cd), (inject_involutive _).bijective, fun _ => rfl⟩

section Permutation

variable {f : (Fin b → Byte) → Fin b → Byte}

theorem permutes_up (hf : Function.Bijective f) (u : Bool) : Permutes (up f) u true := ⟨f, hf, fun _ => rfl⟩

theorem permutes_raise (hf : Function.Bijective f) (u : Bool) :
    Permutes (fun c : Cyclist b => if c.isUp then c else up f c) u true := by
  cases u with
  | true => exact ⟨id, Function.bijective_id, fun _ => rfl⟩
  | false => exact permutes_up hf false

theorem permutes_absorbBlocks (hf : Function.Bijective f) {blocks : List (List Byte)} (hne : blocks ≠ []) (cd : Byte) (u : Bool) :
    Permutes (absorbBlocks f blocks cd) u false := by
  induction blocks generalizing cd u with
  | nil => exact absurd rfl hne
  | cons X blocks ih =>
    have hblock : Permutes (fun c : Cyclist b => down X cd (if c.isUp then c else up f c)) u false :=
      (permutes_down X cd true).comp (permutes_raise hf u)
    cases blocks with
    | nil => exact hblock
    | cons X' blocks => exact (ih (List.cons_ne_nil _ _) 0 false).comp hblock

theorem split_ne_nil (R : ℕ) (X : List Byte) : split R X ≠ [] := by
  rw [split]
  split <;> simp

theorem permutes_absorbAny (R : ℕ) (hf : Function.Bijective f) (X : List Byte) (cd : Byte) (u : Bool) :
    Permutes (absorbAny R f X cd) u false := permutes_absorbBlocks hf (split_ne_nil R X) cd u

theorem squeezeMore_pos {R n : ℕ} (h : 0 < R ∧ 0 < n) (c : Cyclist b) :
    squeezeMore R f n c =
      (first (min n R) (up f (down [] 0 c)) ++ (squeezeMore R f (n - R) (up f (down [] 0 c))).1,
        (squeezeMore R f (n - R) (up f (down [] 0 c))).2) := by
  conv_lhs => rw [squeezeMore, if_pos h]

theorem squeezeMore_neg {R n : ℕ} (h : ¬(0 < R ∧ 0 < n)) (c : Cyclist b) : squeezeMore R f n c = ([], c) := by
  rw [squeezeMore, if_neg h]

theorem permutes_squeezeMore (R : ℕ) (hf : Function.Bijective f) (n : ℕ) :
    Permutes (fun c => (squeezeMore R f n c).2) true true := by
  induction n using Nat.strong_induction_on with
  | h n ih =>
    by_cases h : 0 < R ∧ 0 < n
    · have hrest := (ih (n - R) (by omega)).comp ((permutes_up hf false).comp (permutes_down [] 0 true))
      obtain ⟨g, hg, hop⟩ := hrest
      exact ⟨g, hg, fun s => (congrArg Prod.snd (squeezeMore_pos h _)).trans (hop s)⟩
    · exact ⟨id, Function.bijective_id, fun s => congrArg Prod.snd (squeezeMore_neg h _)⟩

theorem permutes_squeezeAny (R : ℕ) (hf : Function.Bijective f) (n : ℕ) (u : Bool) :
    Permutes (fun c => (squeezeAny R f n c).2) u true :=
  (permutes_squeezeMore R hf (n - R)).comp (permutes_up hf u)

end Permutation

/-! ### Outputs -/

theorem length_first {R : ℕ} (hR : R ≤ b) (c : Cyclist b) : (first R c).length = R := by
  rw [first, List.length_take, List.length_ofFn]
  omega

theorem first_getD (c : Cyclist b) (i : Fin b) : (first R c).getD i 0 = if i.val < R then c.state i else 0 := by
  rw [first, List.getD_eq_getElem?_getD, List.getElem?_take]
  split
  · rw [List.getElem?_ofFn]
    simp
  · rfl

/-- One block and the later blocks, without all blocks but the last. -/
theorem drop_blocks {R n : ℕ} (hR : 0 < R) (hRb : R ≤ b) (hn : 0 < n) (f : (Fin b → Byte) → Fin b → Byte) (c : Cyclist b)
    (ih : R < n → (squeezeMore R f (n - R) c).1.drop (R * ((n - R - 1) / R)) =
      first ((n - R - 1) % R + 1) (squeezeMore R f (n - R) c).2) :
    (first (min n R) c ++ (squeezeMore R f (n - R) c).1).drop (R * ((n - 1) / R)) =
      first ((n - 1) % R + 1) (squeezeMore R f (n - R) c).2 := by
  by_cases hlong : R < n
  · have hsub : n - 1 = n - R - 1 + R := by omega
    rw [hsub, Nat.add_div_right _ hR, Nat.add_mod_right, Nat.min_eq_right (by omega), Nat.mul_succ, Nat.add_comm (R * _),
      List.drop_append, length_first hRb, ← ih hlong, List.drop_eq_nil_of_le (by rw [length_first hRb]; omega),
      Nat.add_sub_cancel_left, List.nil_append]
  · rw [squeezeMore_neg (by omega), Nat.div_eq_of_lt (by omega), Nat.mod_eq_of_lt (by omega), Nat.min_eq_left (by omega),
      List.append_nil, Nat.mul_zero, List.drop_zero, Nat.sub_add_cancel hn]

/-- The last block of an output is the beginning of the string that is left. -/
theorem squeezeAny_drop {R n : ℕ} (hR : 0 < R) (hRb : R ≤ b) (hn : 0 < n) (f : (Fin b → Byte) → Fin b → Byte) (c : Cyclist b) :
    (squeezeAny R f n c).1.drop (R * ((n - 1) / R)) = first ((n - 1) % R + 1) (squeezeAny R f n c).2 := by
  have hmore : ∀ n, 0 < n → ∀ c : Cyclist b, (squeezeMore R f n c).1.drop (R * ((n - 1) / R)) =
      first ((n - 1) % R + 1) (squeezeMore R f n c).2 := by
    intro n
    induction n using Nat.strong_induction_on with
    | h n ih =>
      intro hn c
      rw [squeezeMore_pos ⟨hR, hn⟩]
      exact drop_blocks hR hRb hn f _ fun hlong => ih (n - R) (by omega) (by omega) _
  exact drop_blocks hR hRb hn f _ fun hlong => hmore (n - R) (by omega) _

/-! ### The ratchet -/

/-- The string without its first `R` bytes, as the ratchet leaves it. -/
def forget (s : Fin b → Byte) : Fin b → Byte := fun i =>
  if i.val < R then 0 else if i.val = R then s i ^^^ 1 else s i

theorem padded_getD {X : List Byte} (hX : X.length + 2 ≤ b) (cd : Byte) (i : Fin b) :
    (padded b X cd).getD i 0 = X.getD i 0 ^^^ (if i.val = X.length then 1 else 0) ^^^ (if i.val + 1 = b then cd &&& 1 else 0) := by
  have hi := i.isLt
  simp only [padded, List.getD_eq_getElem?_getD]
  by_cases hlt : i.val < X.length
  · rw [List.getElem?_append_left hlt, if_neg (by omega), if_neg (by omega)]
    simp
  · rw [List.getElem?_append_right (by omega), List.getElem?_eq_none (l := X) (by omega)]
    by_cases heq : i.val = X.length
    · rw [if_pos heq, if_neg (by omega), heq]
      simp
    · obtain ⟨k, hk⟩ : ∃ k, i.val - X.length = k + 1 := ⟨i.val - X.length - 1, by omega⟩
      rw [if_neg heq, hk, List.getElem?_cons_succ]
      by_cases hk' : k < b - 2 - X.length
      · rw [List.getElem?_append_left (by simpa using hk'), List.getElem?_replicate, if_pos hk', if_neg (by omega)]
        simp
      · rw [List.getElem?_append_right (by simpa using hk'), List.length_replicate, if_pos (by omega),
          show k - (b - 2 - X.length) = 0 by omega]
        simp

/-- **The ratchet** forgets the first `R` bytes after the permutation. -/
theorem ratchet_eq {R : ℕ} (hR : R + 2 ≤ b) (f : (Fin b → Byte) → Fin b → Byte) (c : Cyclist b) :
    ratchet R f c = ⟨forget R (f c.state), false⟩ := by
  have hlen : (first R (up f c)).length = R := length_first (by omega) _
  have hmore : squeezeMore R f (R - R) (up f c) = ([], up f c) := by
    rw [squeezeMore_neg (by omega)]
  have hsplit : split R (first R (up f c)) = [first R (up f c)] := by
    rw [split, if_neg (by omega)]
  simp only [ratchet, squeezeAny, hmore, Nat.min_self, List.append_nil, absorbAny, hsplit, absorbBlocks]
  rw [if_pos (show (up f c).isUp = true from rfl), down]
  congr 1
  funext i
  rw [inject, padded_getD (by omega), first_getD, hlen, forget]
  by_cases hlt : i.val < R
  · rw [if_pos hlt, if_pos hlt, if_neg (by omega)]
    simp [up]
  · rw [if_neg hlt, if_neg hlt]
    by_cases heq : i.val = R
    · rw [if_pos heq, if_pos heq]
      simp [up]
    · rw [if_neg heq, if_neg heq]
      simp [up]

theorem forget_eq_iff {R : ℕ} {s t : Fin b → Byte} : forget R s = forget R t ↔ ∀ i : Fin b, R ≤ i.val → s i = t i := by
  constructor
  · intro h i hi
    have hge : ¬i.val < R := by omega
    have hi' := congrFun h i
    simp only [forget, if_neg hge] at hi'
    split at hi'
    · exact (BitVec.xor_left_inj 1).mp hi'
    · exact hi'
  · intro h
    funext i
    rw [forget, forget]
    by_cases hlt : i.val < R
    · rw [if_pos hlt, if_pos hlt]
    · rw [if_neg hlt, if_neg hlt, h i (by omega)]

/-- What is forgotten could have been anything: with every value of the first `R` bytes there is
exactly one string. -/
theorem exists_unique_forget {R : ℕ} (hR : R ≤ b) {g : (Fin b → Byte) → Fin b → Byte} (hg : Function.Bijective g)
    (t : Fin b → Byte) (Y : Fin R → Byte) :
    ∃! s, forget R (g s) = forget R t ∧ ∀ i : Fin R, g s (i.castLE hR) = Y i := by
  -- the only string with these first bytes and the rest of `t`
  let y : Fin b → Byte := fun i => if h : i.val < R then Y ⟨i, h⟩ else t i
  have hy : ∀ u : Fin b → Byte, (forget R u = forget R t ∧ ∀ i : Fin R, u (i.castLE hR) = Y i) ↔ u = y := by
    intro u
    rw [forget_eq_iff]
    constructor
    · rintro ⟨hrest, hfirst⟩
      funext i
      by_cases h : i.val < R
      · rw [show y i = Y ⟨i, h⟩ from dif_pos h, ← hfirst ⟨i, h⟩]
        rfl
      · rw [show y i = t i from dif_neg h, hrest i (by omega)]
    · rintro rfl
      exact ⟨fun i hi => dif_neg (by omega), fun i => dif_pos i.isLt⟩
  obtain ⟨s, hs⟩ := hg.2 y
  refine ⟨s, (hy (g s)).mpr hs, fun s' hs' => hg.1 ?_⟩
  rw [hs, (hy (g s')).mp hs']

/-- **Forgetting `R` bytes** merges exactly `2 ^ (8 * R)` strings into each. -/
theorem card_forget {R : ℕ} (hR : R ≤ b) {g : (Fin b → Byte) → Fin b → Byte} (hg : Function.Bijective g) (t : Fin b → Byte) :
    Nat.card {s // forget R (g s) = forget R t} = 2 ^ (8 * R) := by
  let firstBytes : {s // forget R (g s) = forget R t} → Fin R → Byte := fun s i => g s.val (i.castLE hR)
  have hbij : Function.Bijective firstBytes := by
    constructor
    · intro s s' h
      apply Subtype.ext
      exact (exists_unique_forget hR hg t (firstBytes s)).unique ⟨s.property, fun _ => rfl⟩
        ⟨s'.property, fun i => congrFun h.symm i⟩
    · intro Y
      obtain ⟨s, ⟨hs, hY⟩, -⟩ := exists_unique_forget hR hg t Y
      exact ⟨⟨s, hs⟩, funext hY⟩
  have hbyte : Nat.card Byte = 2 ^ 8 := by
    rw [Nat.card_congr (BitVec.equivFin (m := 8)).toEquiv, Nat.card_eq_fintype_card, Fintype.card_fin]
  rw [Nat.card_congr (Equiv.ofBijective firstBytes hbij), Nat.card_fun, hbyte, Nat.card_eq_fintype_card, Fintype.card_fin, pow_mul]

end Cyclist

end Nt365.Library
