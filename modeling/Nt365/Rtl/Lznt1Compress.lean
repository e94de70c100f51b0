import Mathlib.Data.Nat.Log
import Nt365.Rtl.Lznt1Match

/-!
# Compressing a chunk

The loop of `LZNT1CompressChunk` writes a list of items, literals and copy tokens, each eight of them after a byte of flags.
At any time the items so far tell the input so far (`Coded`), and the memory has the groups of eight that are complete and
the bytes of the last one (`Written`). The loop ends with all of the input told or where the next item has no room, and so a
chunk ends in one of four ways (`Outcome`).
-/

namespace Nt365.Rtl.Lznt1

open Nt365.Library List Function

/-! ### Bytes in memory -/

/-- These bytes are in memory from an address on. -/
def Laid (out : ℕ → Byte) (a : ℕ) (bs : List Byte) : Prop := ∀ i b, bs[i]? = some b → out (a + i) = b

section Laid

variable {out out' : ℕ → Byte} {a : ℕ} {b : Byte} {bs cs : List Byte}

theorem laid_nil (out : ℕ → Byte) (a : ℕ) : Laid out a [] := by
  intro i b h
  simp at h

theorem laid_append : Laid out a (bs ++ cs) ↔ Laid out a bs ∧ Laid out (a + bs.length) cs := by
  constructor
  · intro h
    refine ⟨fun i b hi => h i b ?_, fun i b hi => ?_⟩
    · rw [getElem?_append_left (List.getElem?_eq_some_iff.1 hi).1, hi]
    · have hb := h (bs.length + i) b (by rw [getElem?_append_right (by omega), Nat.add_sub_cancel_left, hi])
      rwa [← Nat.add_assoc] at hb
  · rintro ⟨h₁, h₂⟩ i b hi
    by_cases hlt : i < bs.length
    · exact h₁ i b (by rwa [getElem?_append_left hlt] at hi)
    · rw [getElem?_append_right (by omega)] at hi
      have hb := h₂ (i - bs.length) b hi
      rwa [show a + bs.length + (i - bs.length) = a + i by omega] at hb

theorem laid_cons : Laid out a (b :: bs) ↔ out a = b ∧ Laid out (a + 1) bs := by
  rw [← singleton_append, laid_append]
  refine and_congr_left fun _ => ⟨fun h => h 0 b rfl, fun h i b' hi => ?_⟩
  cases i with
  | zero => cases hi; exact h
  | succ i => simp at hi

theorem Laid.congr (h : Laid out a bs) (hsame : ∀ i, a ≤ i → i < a + bs.length → out' i = out i) : Laid out' a bs := by
  intro i b hi
  rw [hsame (a + i) (by omega) (by have := (List.getElem?_eq_some_iff.1 hi).1; omega)]
  exact h i b hi

theorem Laid.update {i : ℕ} (h : Laid out a bs) (hi : i < a ∨ a + bs.length ≤ i) (b : Byte) :
    Laid (Function.update out i b) a bs :=
  h.congr fun _ _ _ => update_of_ne (by omega) _ _

end Laid

/-! ### Items -/

/-- A literal or a copy token. -/
structure Item where
  isCopy : Bool
  bytes : List Byte

/-- The bytes of the items, without the flags. -/
def bytesOf (is : List Item) : List Byte := is.flatMap Item.bytes

/-- The format of the tokens at a position of a chunk. -/
def formatAt (n : ℕ) : ℕ := Nat.clog 2 n - 4

theorem lt_formatAt_iff {f n : ℕ} : f < formatAt n ↔ 2 ^ (f + 4) < n := by
  rw [formatAt, Nat.lt_sub_iff_add_lt, Nat.lt_clog_iff_pow_lt (by decide)]

theorem formatAt_le {n : ℕ} (hn : n ≤ 4096) : formatAt n ≤ 8 := by
  by_contra h
  have := lt_formatAt_iff.1 (Nat.lt_of_not_le h)
  omega

theorem formatAt_mono {m n : ℕ} (h : m ≤ n) : formatAt m ≤ formatAt n := Nat.sub_le_sub_right (Nat.clog_mono_right 2 h) 4

theorem nextFormat_eq {n : ℕ} (hn : n ≤ 4096) {k f : ℕ} (hf : f ≤ formatAt n) (hk : 9 ≤ f + k) :
    nextFormat n k f = .ok (formatAt n) := by
  have htable : ∀ f < 9, formatMaxDisplacement[f]? = some (2 ^ (f + 4)) := by decide
  have h8 := formatAt_le hn
  induction k generalizing f with
  | zero => omega
  | succ k ih =>
    rw [nextFormat, htable f (by omega)]
    dsimp only
    split_ifs with hlt
    · exact ih (lt_formatAt_iff.2 hlt) (by omega)
    · have hge : ¬f < formatAt n := fun h => hlt (lt_formatAt_iff.1 h)
      rw [show f = formatAt n by omega]

theorem formatMaxLength_formatAt {n : ℕ} (hn : n ≤ 4096) : formatMaxLength.getD (formatAt n) 0 = 2 ^ (12 - formatAt n) + 2 := by
  have htable : ∀ f < 9, formatMaxLength.getD f 0 = 2 ^ (12 - f) + 2 := by decide
  exact htable _ (by have := formatAt_le hn; omega)

/-- The two bytes of a word. -/
def ushort (v : ℕ) : List Byte := [BitVec.ofNat 8 v, BitVec.ofNat 8 (v / 256)]

/-- The items tell the first `n` bytes of a chunk. -/
inductive Coded (B : Buffer) (chunk stop : ℕ) : List Item → ℕ → Prop
  | nil : Coded B chunk stop [] 0
  | literal {is : List Item} {n : ℕ} (h : Coded B chunk stop is n) :
      Coded B chunk stop (is ++ [⟨false, [B.byte (chunk + n)]⟩]) (n + 1)
  | copy {is : List Item} {n matched length : ℕ} (h : Coded B chunk stop is n)
      (hmatch : Match B chunk stop (chunk + n) matched length) (hle : length ≤ 2 ^ (12 - formatAt n) + 2) :
      Coded B chunk stop (is ++ [⟨true, ushort (setLznt1 (formatAt n) length (chunk + n - matched))⟩]) (n + length)

/-- The items of the standard engine from a position on, by whether they are copy tokens. -/
def tokens (B : Buffer) (chunk stop : ℕ) : ℕ → ℕ → List ℕ → List Bool
  | 0, _, _ => []
  | fuel + 1, p, starts =>
    if p + 3 ≤ stop then
      let length := min (2 ^ (12 - formatAt (p - chunk)) + 2) (greedyLength B stop p starts)
      decide (length ≠ 0) :: tokens B chunk stop fuel (p + max 1 length) (p :: starts)
    else replicate (stop - p) false

/-- The items of the standard engine for a chunk. -/
def chunkTokens (B : Buffer) (chunk stop : ℕ) : List Bool := tokens B chunk stop 4096 chunk []

/-- The bytes of items and of their flags. -/
def codedSize (ts : List Bool) : ℕ := ts.length + ts.count true + (ts.length + 7) / 8

/-- The same, with the flags of the next item. -/
def writtenSize (ts : List Bool) : ℕ := ts.length + ts.count true + ts.length / 8 + 1

theorem codedSize_append_cons_le (ts us : List Bool) (b : Bool) :
    writtenSize ts + 1 + (if b then 1 else 0) ≤ codedSize (ts ++ b :: us) := by
  simp only [writtenSize, codedSize, length_append, length_cons, count_append, count_cons]
  cases b <;> simp <;> omega

/-- How many items are literals. -/
def literals (is : List Item) : ℕ := is.countP fun x => !x.isCopy

section Coded

variable {B : Buffer} {chunk stop n : ℕ} {is : List Item}

@[simp] theorem bytesOf_append (is js : List Item) : bytesOf (is ++ js) = bytesOf is ++ bytesOf js := flatMap_append ..

@[simp] theorem bytesOf_singleton (x : Item) : bytesOf [x] = x.bytes := flatMap_singleton ..

/-- The sizes of the items: a literal is a byte for a byte, and a copy token two bytes for at least three. -/
theorem Coded.sizes (h : Coded B chunk stop is n) :
    (bytesOf is).length = is.length + (is.map Item.isCopy).count true ∧ (bytesOf is).length ≤ n ∧
      3 * (bytesOf is).length ≤ 2 * n + literals is := by
  induction h with
  | nil => exact ⟨rfl, le_rfl, le_rfl⟩
  | literal _ ih =>
    simp only [bytesOf_append, bytesOf_singleton, length_append, literals, countP_append, length_singleton, map_append,
      map_cons, map_nil, count_append] at ih ⊢
    simp
    omega
  | copy _ hmatch _ ih =>
    have h3 := hmatch.three_le
    simp only [bytesOf_append, bytesOf_singleton, length_append, literals, countP_append, length_singleton, ushort, map_append,
      map_cons, map_nil, count_append] at ih ⊢
    simp
    omega

theorem Coded.ne_nil (h : Coded B chunk stop is n) (hn : 0 < n) : is ≠ [] := by
  cases h with
  | nil => omega
  | literal h => exact append_ne_nil_of_right_ne_nil _ (cons_ne_nil _ _)
  | copy h _ _ => exact append_ne_nil_of_right_ne_nil _ (cons_ne_nil _ _)

end Coded

/-- The bits of a flag byte: set for a copy token. -/
def Flags (g : List Item) (flag : Byte) : Prop := ∀ i, flag.getLsbD i = (g[i]?.any Item.isCopy)

theorem flags_nil : Flags [] 0 := by
  intro i
  simp

theorem Flags.snoc {g : List Item} {flag : Byte} (h : Flags g flag) (hg : g.length < 8) (x : Item) :
    Flags (g ++ [x]) (if x.isCopy then flag ||| 1#8 <<< g.length else flag &&& ~~~(1#8 <<< g.length)) := by
  intro i
  have hbit : (1#8 <<< g.length).getLsbD i = decide (i = g.length) := by
    rw [BitVec.getLsbD_shiftLeft, BitVec.getLsbD_one]
    by_cases heq : i = g.length
    · simp [heq, hg]
    · simp only [heq, decide_false]
      grind
  have hget : (g ++ [x])[i]? = if i = g.length then some x else g[i]? := by grind
  have hlt : (flag.getLsbD i && decide (i < 8)) = flag.getLsbD i := by
    by_cases hi : i < 8
    · simp [hi]
    · simp [BitVec.getLsbD_of_ge flag i (by omega)]
  have hi := h i
  rw [hget]
  by_cases heq : i = g.length
  · subst heq
    cases hx : x.isCopy
    · simp only [Bool.false_eq_true, if_false, BitVec.getLsbD_and, BitVec.getLsbD_not, hbit]
      simp [hx]
    · simp only [if_true, BitVec.getLsbD_or, hbit]
      simp [hx]
  · rw [if_neg heq, ← hi]
    cases x.isCopy
    · simp only [Bool.false_eq_true, if_false, BitVec.getLsbD_and, BitVec.getLsbD_not, hbit, heq, decide_false, Bool.not_false,
        Bool.and_true, hlt]
    · simp only [if_true, BitVec.getLsbD_or, hbit, heq, decide_false, Bool.or_false]

/-- Groups of eight items, each after its flags. -/
inductive Groups : List Item → List Byte → Prop
  | nil : Groups [] []
  | snoc {is g : List Item} {bs : List Byte} {flag : Byte} (h : Groups is bs) (hg : g.length = 8) (hflags : Flags g flag) :
      Groups (is ++ g) (bs ++ flag :: bytesOf g)

theorem Groups.length {is : List Item} {bs : List Byte} (h : Groups is bs) :
    8 ∣ is.length ∧ bs.length = (bytesOf is).length + is.length / 8 := by
  induction h with
  | nil => exact ⟨⟨0, rfl⟩, rfl⟩
  | snoc _ hg _ ih =>
    simp only [length_append, bytesOf_append, length_cons, hg]
    omega

/-! ### The loop -/

/-- The loop has told `n` bytes of the chunk: `is` and `bs` are the complete groups, and `g` the items of the last one. -/
structure Written (c : Call) (chunk stop dest limit : ℕ) (before : ℕ → Byte) (is : List Item) (bs : List Byte)
    (g : List Item) (n : ℕ) (s : Pass) : Prop where
  groups : Groups is bs
  coded : Coded c.source chunk stop (is ++ g) n
  flags : Flags g s.flagByte
  flagPointer : s.flagPointer = dest + 2 + bs.length
  outputPointer : s.outputPointer = s.flagPointer + 1 + (bytesOf g).length
  laid : Laid s.out (dest + 2) bs
  lastLaid : Laid s.out (s.flagPointer + 1) (bytesOf g)
  frame : ∀ i < dest, s.out i = before i
  inputPointer : s.inputPointer = chunk + n
  null : s.nullCharacter = 0 ↔ Zeros c.source chunk (chunk + n)
  room : is ++ g ≠ [] → s.flagPointer ≤ limit ∧ (g ≠ [] → s.outputPointer ≤ limit)
  zeros : Zeros c.source chunk stop → literals (is ++ g) ≤ 1 + (n + 2 - (stop - chunk))

/-- The same, at the start of an iteration and after the items `ts`. -/
def Told (c : Call) (chunk stop dest limit : ℕ) (before : ℕ → Byte) (n : ℕ) (ts : List Bool) (s : Pass) : Prop :=
  ∃ is bs g, Written c chunk stop dest limit before is bs g n s ∧ g.length < 8 ∧ s.flagBit = g.length ∧
    (is ++ g).map Item.isCopy = ts

section Iteration

variable {c : Call} {chunk stop dest limit n n' : ℕ} {before : ℕ → Byte} {is g : List Item} {bs : List Byte} {ts : List Bool}
  {s s' : Pass}

theorem Told.withWork (h : Told c chunk stop dest limit before n ts s) (format : ℕ) (work : WorkSpace) :
    Told c chunk stop dest limit before n ts { s with format, work } := by
  obtain ⟨is, bs, g, h, hg, hbit⟩ := h
  exact ⟨is, bs, g, { h with }, hg, hbit⟩

/-- Where the next item goes, and where the last one ends. -/
theorem Told.sizes (h : Told c chunk stop dest limit before n ts s) :
    s.outputPointer = dest + 2 + writtenSize ts ∧ (0 < n → dest + 2 + codedSize ts ≤ limit) := by
  obtain ⟨is, bs, g, h, hg, -, rfl⟩ := h
  have hgroups := h.groups.length
  have hsizes := h.coded.sizes.1
  have hptr := h.flagPointer
  have hout := h.outputPointer
  simp only [bytesOf_append, length_append] at hsizes
  simp only [writtenSize, codedSize, length_map, length_append]
  refine ⟨by omega, fun hn => ?_⟩
  have hroom := h.room (h.coded.ne_nil hn)
  by_cases hnil : g = []
  · subst hnil
    simp only [bytesOf, flatMap_nil, length_nil, Nat.add_zero] at *
    omega
  · have := hroom.2 hnil
    have := length_pos_of_ne_nil hnil
    omega

section

variable (h : Written c chunk stop dest limit before is bs g n s)

include h

theorem Written.snoc {x : Item}
    (hcoded : Coded c.source chunk stop (is ++ g ++ [x]) n') (hflags : Flags (g ++ [x]) s'.flagByte)
    (hflagPointer : s'.flagPointer = s.flagPointer) (hout : s'.outputPointer = s.outputPointer + x.bytes.length)
    (hlaid : Laid s'.out s.outputPointer x.bytes) (hsame : ∀ i < s.outputPointer, s'.out i = s.out i)
    (hinput : s'.inputPointer = chunk + n')
    (hnull : s'.nullCharacter = 0 ↔ Zeros c.source chunk (chunk + n')) (hfin : s'.outputPointer ≤ limit)
    (hzeros : Zeros c.source chunk stop → literals (is ++ g ++ [x]) ≤ 1 + (n' + 2 - (stop - chunk))) :
    Written c chunk stop dest limit before is bs (g ++ [x]) n' s' := by
  have hptr := h.flagPointer
  have hend := h.outputPointer
  rw [append_assoc] at hcoded hzeros
  refine ⟨h.groups, hcoded, hflags, hflagPointer.trans hptr, ?_, h.laid.congr fun i _ hi => hsame i (by omega), ?_, fun i hi => ?_,
    hinput, hnull, fun _ => ⟨by omega, fun _ => hfin⟩, hzeros⟩
  · rw [bytesOf_append, bytesOf_singleton, length_append]
    omega
  · rw [bytesOf_append, bytesOf_singleton, laid_append, hflagPointer, ← hend]
    exact ⟨h.lastLaid.congr fun i _ hi => hsame i (by omega), hlaid⟩
  · rw [hsame i (by omega), h.frame i hi]

theorem nextFlag_spec (hg : g.length ≤ 8) (hbit : s.flagBit + 1 = g.length) (hfin : limit ≤ c.compressedBufferSize)
    (hts : (is ++ g).map Item.isCopy = ts) :
    ∃ s', nextFlag c s = .ok (.inl s') ∧ Told c chunk stop dest limit before n ts s' ∧ s'.work = s.work ∧
      s'.format = s.format := by
  have hne : g ≠ [] := ne_nil_of_length_pos (by omega)
  have hroom := (h.room (append_ne_nil_of_right_ne_nil is hne)).2 hne
  have hout := h.outputPointer
  have hptr := h.flagPointer
  unfold nextFlag
  split_ifs with h8
  · rw [store_of_lt (by omega), ok_bind]
    refine ⟨_, rfl, ⟨is ++ g, bs ++ s.flagByte :: bytesOf g, [],
      ⟨.snoc h.groups (by omega) h.flags, ?_, flags_nil, ?_, rfl, ?_, laid_nil _ _, ?_,
      h.inputPointer, h.null, fun _ => ⟨hroom, fun hnil => absurd rfl hnil⟩, ?_⟩, by decide, rfl, by rwa [append_nil]⟩,
      rfl, rfl⟩
    · rw [append_nil]
      exact h.coded
    · rw [length_append, length_cons]
      dsimp only
      omega
    · rw [laid_append, laid_cons, ← hptr]
      exact ⟨h.laid.update (by omega) _, update_self .., h.lastLaid.update (by omega) _⟩
    · intro i hi
      exact (update_of_ne (by omega) _ _).trans (h.frame i hi)
    · rw [append_nil]
      exact h.zeros
  · exact ⟨_, rfl, ⟨is, bs, g, { h with flagPointer := hptr, outputPointer := hout }, by omega, hbit, hts⟩, rfl, rfl⟩

end

theorem zeros_succ {B : Buffer} (h : chunk ≤ n) : Zeros B chunk (n + 1) ↔ Zeros B chunk n ∧ B.byte n = 0 := by
  refine ⟨fun hz => ⟨fun p hp hlt => hz p hp (by omega), hz n h (by omega)⟩, fun ⟨hz, hn⟩ p hp hlt => ?_⟩
  obtain hlt | rfl := Nat.lt_succ_iff_lt_or_eq.1 hlt
  · exact hz p hp hlt
  · exact hn

/-- A match is of bytes before, so that it is zero where they are. -/
theorem Match.zeros_iff {B : Buffer} {ziv matched length : ℕ} (h : Match B chunk stop ziv matched length) :
    Zeros B chunk (ziv + length) ↔ Zeros B chunk ziv := by
  refine ⟨fun hz p hp hlt => hz p hp (by omega), fun hz p => ?_⟩
  have hlt := h.lt
  have hchunk := h.chunk_le
  induction p using Nat.strong_induction_on with
  | _ p ih =>
    intro hp hlt'
    by_cases hz' : p < ziv
    · exact hz p hp hz'
    · have hagree := h.agree (p - ziv) (by omega)
      rw [Nat.add_sub_cancel' (Nat.le_of_not_lt hz')] at hagree
      rw [← hagree]
      exact ih _ (by omega) (by omega) (by omega)

theorem putLiteral_spec (h : Told c chunk stop dest limit before n ts s) (hread : chunk + n < c.source.size)
    (hfin : limit ≤ c.compressedBufferSize) (hzeros : Zeros c.source chunk stop → 0 < n → stop < chunk + n + 3) :
    putLiteral c limit s = .ok (.inr s) ∧ limit ≤ s.outputPointer ∨
      ∃ s', putLiteral c limit s = .ok (.inl s') ∧ Told c chunk stop dest limit before (n + 1) (ts ++ [false]) s' ∧
        s'.work = s.work ∧ s'.format = s.format := by
  obtain ⟨is, bs, g, h, hg, hbit, rfl⟩ := h
  have hinput := h.inputPointer
  unfold putLiteral
  split_ifs with hfull
  · exact .inl ⟨rfl, hfull⟩
  · rw [hinput, fetch_of_lt hread, ok_bind, store_of_lt (by omega), ok_bind]
    refine .inr (nextFlag_spec (h.snoc (x := ⟨false, [c.source.byte (chunk + n)]⟩)
      (.literal h.coded) ?_ rfl rfl ?_ ?_ rfl ?_ ?_ ?_) ?_ ?_ hfin (by simp))
    · rw [hbit]
      exact h.flags.snoc hg _
    · rw [laid_cons]
      exact ⟨update_self .., laid_nil _ _⟩
    · exact fun i hi => update_of_ne (by omega) _ _
    · rw [← Nat.add_assoc, zeros_succ (Nat.le_add_right chunk n), ← h.null]
      exact BitVec.or_eq_zero_iff
    · dsimp only
      omega
    · intro hz
      have hle := h.zeros hz
      have hsizes := h.coded.sizes
      have hcount : literals (is ++ g) ≤ (is ++ g).length := countP_le_length
      have hlast := hzeros hz
      unfold literals at hle hcount ⊢
      rw [countP_append, countP_singleton, Bool.not_false, if_pos rfl]
      omega
    · rw [length_append, length_singleton]
      omega
    · rw [length_append, length_singleton, ← hbit]

theorem storeUshort_spec {size i : ℕ} (h : i + 1 < size) (out : ℕ → Byte) (v : ℕ) :
    ∃ out', storeUshort size out i v = .ok out' ∧ Laid out' i (ushort v) ∧ ∀ j, j < i ∨ i + 2 ≤ j → out' j = out j := by
  rw [storeUshort, store_of_lt (by omega), ok_bind, store_of_lt h]
  refine ⟨_, rfl, ?_, fun j hj => ?_⟩
  · rw [ushort, laid_cons, laid_cons, update_self, update_of_ne (by omega), update_self]
    exact ⟨rfl, rfl, laid_nil _ _⟩
  · rw [update_of_ne (by omega), update_of_ne (by omega)]

theorem putCopy_spec {length : ℕ} (h : Told c chunk stop dest limit before n ts s) (hfin : limit ≤ c.compressedBufferSize)
    (hmatch : Match c.source chunk stop (chunk + n) s.work.matchedString length) (hle : length ≤ 2 ^ (12 - formatAt n) + 2)
    (hformat : s.format = formatAt n) :
    putCopy c limit length s = .ok (.inr s) ∧ limit ≤ s.outputPointer + 1 ∨
      ∃ s', putCopy c limit length s = .ok (.inl s') ∧ Told c chunk stop dest limit before (n + length) (ts ++ [true]) s' ∧
        s'.work = s.work ∧ s'.format = s.format := by
  obtain ⟨is, bs, g, h, hg, hbit, rfl⟩ := h
  have hinput := h.inputPointer
  unfold putCopy
  split_ifs with hfull
  · exact .inl ⟨rfl, hfull⟩
  · obtain ⟨out, hout, hlaid, hsame⟩ := storeUshort_spec (show s.outputPointer + 1 < c.compressedBufferSize by omega) s.out
      (setLznt1 (formatAt n) length (chunk + n - s.work.matchedString))
    dsimp only
    rw [hinput, hformat, hout, ok_bind]
    refine .inr (nextFlag_spec (h.snoc (.copy h.coded hmatch hle) ?_ rfl rfl hlaid (fun i hi => hsame i (.inl hi)) ?_ ?_ ?_ ?_) ?_
      ?_ hfin (by simp))
    · rw [hbit]
      exact h.flags.snoc hg _
    · exact Nat.add_assoc ..
    · rw [← Nat.add_assoc, hmatch.zeros_iff]
      exact h.null
    · dsimp only
      omega
    · intro hz
      have hle := h.zeros hz
      unfold literals at hle ⊢
      rw [countP_append, countP_singleton, Bool.not_true, if_neg (by decide)]
      omega
    · rw [length_append, length_singleton]
      omega
    · rw [length_append, length_singleton, ← hbit]

end Iteration

section Chunk

variable {c : Call} {chunk stop dest limit : ℕ} {before : ℕ → Byte}

theorem nextMatch_spec {p : ℕ} {starts : List ℕ} {w : WorkSpace} (hp : InMemory c chunk stop) (hchunk : chunk ≤ p)
    (hmax : w.maxLength = 2 ^ (12 - formatAt (p - chunk)) + 2) (hw : Ready c chunk stop p starts w) :
    ∃ length w' starts', nextMatch c stop p w = .ok (length, w') ∧ Ready c chunk stop (p + 1) starts' w' ∧ length ≤ w.maxLength ∧
      (length = 0 ∨ Match c.source chunk stop p w'.matchedString length) ∧
      (Zeros c.source chunk stop → chunk < p → p + 3 ≤ stop → length ≠ 0) ∧
      (c.engine = .standard → ∀ fuel, p < stop → stop ≤ p + fuel + 1 → tokens c.source chunk stop (fuel + 1) p starts =
        decide (length ≠ 0) :: tokens c.source chunk stop fuel (p + max 1 length) starts') := by
  have hpow := Nat.one_le_two_pow (n := 12 - formatAt (p - chunk))
  unfold nextMatch
  split_ifs with h3
  · obtain ⟨length, w', hfind, hready, hle, hmatch, hzero, hgreedy⟩ := findMatch_spec hp hchunk h3 (by omega) hw
    refine ⟨length, w', _, hfind, hready, hle, hmatch, fun hz hlt _ => hzero hz hlt, fun he fuel _ _ => ?_⟩
    rw [tokens, if_pos h3, ← hmax, ← hgreedy he]
  · refine ⟨0, w, starts, rfl, hw.mono (by omega) (by omega), by omega, .inl rfl, fun _ _ h => absurd h h3,
      fun _ fuel hlt hfuel => ?_⟩
    rw [tokens, if_neg h3, show stop - p = stop - (p + 1) + 1 by omega, replicate_succ]
    cases fuel with
    | zero => simp [tokens, show stop - (p + 1) = 0 by omega]
    | succ fuel => rw [tokens, if_neg (by omega)]; rfl

/-- The end of the loop: all of the chunk is told, or the next item has no room. -/
def LoopEnd (c : Call) (chunk stop dest limit : ℕ) (before : ℕ → Byte) (s : Pass) : Prop :=
  ∃ n ts, Told c chunk stop dest limit before n ts s ∧
    (chunk + n = stop ∧ (c.engine = .standard → chunkTokens c.source chunk stop = ts) ∨
      chunk + n < stop ∧ limit ≤ s.outputPointer + 1 ∧
        (c.engine = .standard → limit < dest + 2 + codedSize (chunkTokens c.source chunk stop)))

theorem chunkLoop_spec (hp : InMemory c chunk stop) (hchunk : chunk ≤ stop) (hfin : limit ≤ c.compressedBufferSize) {s : Pass}
    (hs : Told c chunk stop dest limit before 0 [] s) (hready : Ready c chunk stop chunk [] s.work)
    (hformat : s.format = 0) :
    ∃ s', loop .fuel (chunkBody c chunk stop limit) 4097 s = .ok s' ∧
      LoopEnd c chunk stop dest limit before s' := by
  have hend := hp.end_le
  have hread := hp.readable
  -- `k` counts the bytes that are left
  refine loop_rule (I := fun k s => ∃ n ts starts fuel, Told c chunk stop dest limit before n ts s ∧
      Ready c chunk stop (chunk + n) starts s.work ∧ s.format ≤ formatAt n ∧ chunk + n + k = stop ∧ k ≤ fuel ∧
      (c.engine = .standard → chunkTokens c.source chunk stop = ts ++ tokens c.source chunk stop fuel (chunk + n) starts))
    (Q := fun r => ∃ s', r = .ok s' ∧ LoopEnd c chunk stop dest limit before s')
    ?_ (k := stop - chunk) ⟨0, [], [], 4096, hs, hready, by omega, by omega, by omega, fun _ => rfl⟩ (by omega)
  rintro k s ⟨n, ts, starts, fuel, htold, hw, hformat, hk, hfuel, hts⟩
  have hinput : s.inputPointer = chunk + n := by
    obtain ⟨is, bs, g, h, -⟩ := htold
    exact h.inputPointer
  unfold chunkBody
  refine iterates_ite (fun hlt => ?_) fun hge => ⟨s, rfl, n, ts, htold, .inl ⟨by omega, fun he => ?_⟩⟩
  swap
  · rw [hts he]
    cases fuel with
    | zero => exact append_nil ts
    | succ fuel => rw [tokens, if_neg (by omega), show stop - (chunk + n) = 0 by omega, replicate_zero, append_nil]
  obtain ⟨fuel, rfl⟩ : ∃ j, fuel = j + 1 := ⟨fuel - 1, by omega⟩
  rw [show s.inputPointer - chunk = n by omega, nextFormat_eq (show n ≤ 4096 by omega) hformat (by omega), ok_bind,
    formatMaxLength_formatAt (by omega)]
  obtain ⟨length, w', starts', hfind, hready', hle, hmatch, hzero, htokens⟩ := nextMatch_spec
    (w := { s.work with maxLength := 2 ^ (12 - formatAt n) + 2 }) hp (Nat.le_add_right chunk n)
      (by rw [Nat.add_sub_cancel_left]) { hw with }
  dsimp only at hfind hle ⊢
  rw [← hinput] at hfind
  rw [hfind, ok_bind]
  dsimp only
  have htold' := htold.withWork (formatAt n) w'
  have hnext (he : c.engine = .standard) := (hts he).trans (congrArg _ (htokens he fuel (by omega) (by omega)))
  have hsizes := htold'.sizes.1
  have hfull (he : c.engine = .standard) : dest + 2 + writtenSize ts + 1 + (if length ≠ 0 then 1 else 0) ≤
      dest + 2 + codedSize (chunkTokens c.source chunk stop) := by
    have := codedSize_append_cons_le ts (tokens c.source chunk stop fuel (chunk + n + max 1 length) starts') (decide (length ≠ 0))
    rw [← hnext he] at this
    simp only [decide_eq_true_eq] at this
    omega
  dsimp only at hsizes
  refine iterates_ite (fun h0 => ?_) fun hne => ?_
  · obtain ⟨hput, hfull'⟩ | ⟨s', hput, hs', hwork, hfmt⟩ := putLiteral_spec htold' (by omega) hfin
      fun hz hn => Nat.lt_of_not_le fun h => hzero hz (by omega) h h0
    · rw [hput]
      exact ⟨_, rfl, n, ts, htold', .inr ⟨by omega, by dsimp only at hfull' ⊢; omega,
        fun he => by have := hfull he; dsimp only at hfull'; omega⟩⟩
    · rw [hput]
      refine ⟨k - 1, by omega, n + 1, _, starts', fuel, hs', ?_, ?_, by omega, by omega, fun he => ?_⟩
      · rw [hwork]
        exact hready'
      · rw [hfmt]
        exact formatAt_mono (Nat.le_succ n)
      · rw [hnext he, h0, append_assoc]
        rfl
  · have hmatch := hmatch.resolve_left hne
    have h3 := hmatch.three_le
    have hend' := hmatch.le_end
    obtain ⟨hput, hfull'⟩ | ⟨s', hput, hs', hwork, hfmt⟩ := putCopy_spec htold' hfin hmatch hle rfl
    · rw [hput]
      exact ⟨_, rfl, n, ts, htold', .inr ⟨by omega, hfull',
        fun he => by have := hfull he; rw [if_pos hne] at this; dsimp only at hfull'; omega⟩⟩
    · rw [hput]
      refine ⟨k - length, by omega, n + length, _, starts', fuel, hs', ?_, ?_, by omega, by omega, fun he => ?_⟩
      · rw [hwork]
        exact hready'.mono (by omega) (by omega)
      · rw [hfmt]
        exact formatAt_mono (Nat.le_add_right n length)
      · rw [hnext he, decide_eq_true hne, append_assoc, show max 1 length = length by omega, Nat.add_assoc]
        rfl

/-! ### The end of a chunk -/

/-- The bytes of a compressed chunk after its header. The last group has its flags, even with no item, unless they have no room. -/
inductive Payload : List Item → List Byte → Prop
  | full {is : List Item} {bs : List Byte} (h : Groups is bs) : Payload is bs
  | part {is g : List Item} {bs : List Byte} {flag : Byte} (h : Groups is bs) (hg : g.length < 8) (hflags : Flags g flag) :
      Payload (is ++ g) (bs ++ flag :: bytesOf g)

theorem Payload.le_length {is : List Item} {bs : List Byte} (h : Payload is bs) :
    8 * (bytesOf is).length + is.length ≤ 8 * bs.length := by
  cases h with
  | full h =>
    have := h.length
    omega
  | part h hg _ =>
    have := h.length
    simp only [length_append, bytesOf_append, length_cons]
    omega

/-- The loop left before the end of the chunk. -/
def Blocked (c : Call) (chunk stop dest : ℕ) : Prop :=
  ∃ is n, Coded c.source chunk stop is n ∧ chunk + n < stop ∧ (Zeros c.source chunk stop → literals is ≤ 3) ∧
    8 * min (dest + 4098) c.compressedBufferSize ≤ 8 * (dest + 4) + 8 * (bytesOf is).length + is.length ∧
    (c.engine = .standard → min (dest + 4098) c.compressedBufferSize <
      dest + 2 + codedSize (chunkTokens c.source chunk stop))

/-- The four ways in which the compression of a chunk ends. -/
inductive Outcome (c : Call) (chunk stop dest : ℕ) (before : ℕ → Byte) : Except Fault Compressed → Prop
  | packed {is : List Item} {bs : List Byte} {r : Compressed} (hcoded : Coded c.source chunk stop is (stop - chunk))
      (hpayload : Payload is bs) (hsize : r.size = bs.length + 2) (hle : r.size ≤ 4098)
      (hroom : dest + r.size ≤ c.compressedBufferSize) (hheader : Laid r.out dest (ushort (chunkHeader r.size true)))
      (hlaid : Laid r.out (dest + 2) bs) (hframe : ∀ i < dest, r.out i = before i)
      (hstatus : Zeros c.source chunk stop ∧ r.status = .bufferAllZeros ∨ ¬Zeros c.source chunk stop ∧ r.status = .success)
      (hsizes : c.engine = .standard → codedSize (chunkTokens c.source chunk stop) ≤ 4096 ∧
        (dest + 4098 ≤ c.compressedBufferSize → r.size = 2 + min 4096 (writtenSize (chunkTokens c.source chunk stop)))) :
      Outcome c chunk stop dest before (.ok r)
  | stored {r : Compressed} (hblocked : Blocked c chunk stop dest) (hread : chunk + 4096 ≤ c.source.size) (hsize : r.size = 4098)
      (hroom : dest + 4098 ≤ c.compressedBufferSize) (hheader : Laid r.out dest (ushort (chunkHeader 4098 false)))
      (hlaid : ∀ k < 4096, r.out (dest + 2 + k) = c.source.byte (chunk + k)) (hframe : ∀ i < dest, r.out i = before i)
      (hstatus : r.status = .success) : Outcome c chunk stop dest before (.ok r)
  | outside (hblocked : Blocked c chunk stop dest) (hroom : dest + 4098 ≤ c.compressedBufferSize)
      (hread : ¬chunk + 4096 ≤ c.source.size) : Outcome c chunk stop dest before (.error .outside)
  | tooSmall {r : Compressed} (hblocked : Blocked c chunk stop dest) (hroom : ¬dest + 4098 ≤ c.compressedBufferSize)
      (hstatus : r.status = .bufferTooSmall) : Outcome c chunk stop dest before (.ok r)

theorem copyMemory_spec {B : Buffer} {size n target place : ℕ} (htarget : target + n ≤ size) (hread : place + n ≤ B.size)
    (out : ℕ → Byte) :
    ∃ out', copyMemory B size n target place out = .ok out' ∧ (∀ k < n, out' (target + k) = B.byte (place + k)) ∧
      ∀ j, j < target ∨ target + n ≤ j → out' j = out j := by
  induction n generalizing target place out with
  | zero => exact ⟨out, rfl, by omega, fun _ _ => rfl⟩
  | succ n ih =>
    rw [copyMemory, fetch_of_lt (by omega), ok_bind, store_of_lt (by omega), ok_bind]
    obtain ⟨out', hcopy, hbytes, hsame⟩ := ih (show target + 1 + n ≤ size by omega) (show place + 1 + n ≤ B.size by omega)
      (Function.update out target (B.byte place))
    refine ⟨out', hcopy, fun k hk => ?_, fun j hj => ?_⟩
    · cases k with
      | zero => exact (hsame target (by omega)).trans (update_self ..)
      | succ k =>
        have h := hbytes k (by omega)
        rwa [Nat.add_right_comm target, Nat.add_right_comm place] at h
    · exact (hsame j (by omega)).trans (update_of_ne (by omega) _ _)

theorem copyMemory_outside {B : Buffer} {size n target place : ℕ} (htarget : target + n ≤ size) (hread : ¬place + n ≤ B.size)
    (hn : 0 < n) (out : ℕ → Byte) : copyMemory B size n target place out = .error .outside := by
  induction n generalizing target place out with
  | zero => omega
  | succ n ih =>
    rw [copyMemory]
    by_cases hlt : place < B.size
    · rw [fetch_of_lt hlt, ok_bind, store_of_lt (by omega), ok_bind]
      exact ih (by omega) (by omega) (by omega) _
    · rw [fetch, if_neg hlt]
      rfl

/-- The bytes of the last group, and whether its flags have room. -/
theorem Told.payload {n : ℕ} {ts : List Bool} {s : Pass} (h : Told c chunk stop dest limit before n ts s) (hn : 0 < n)
    (hfin : limit ≤ c.compressedBufferSize) :
    ∃ is bs out, Coded c.source chunk stop is n ∧ Payload is bs ∧ lastFlag c limit s = .ok out ∧
      (if s.flagPointer < limit then s.outputPointer else s.outputPointer - 1) = dest + 2 + bs.length ∧
      dest + 2 + bs.length = min limit s.outputPointer ∧ Laid out (dest + 2) bs ∧ ∀ i < dest, out i = before i := by
  obtain ⟨is, bs, g, h, hg, -⟩ := h
  have hroom := h.room (h.coded.ne_nil hn)
  have hptr := h.flagPointer
  have hout := h.outputPointer
  unfold lastFlag
  split_ifs with hlt
  · refine ⟨is ++ g, _, _, h.coded, .part h.groups hg h.flags, store_of_lt (by omega), ?_, ?_, ?_, fun i hi => ?_⟩
    · rw [length_append, length_cons]
      omega
    · rw [length_append, length_cons]
      by_cases hnil : g = []
      · rw [hnil] at hout ⊢
        change _ + (_ + 0 + 1) = _
        change _ = _ + 0 at hout
        omega
      · have := hroom.2 hnil
        omega
    · rw [laid_append, laid_cons, ← hptr]
      exact ⟨h.laid.update (by omega) _, update_self .., h.lastLaid.update (by omega) _⟩
    · exact (update_of_ne (by omega) _ _).trans (h.frame i hi)
  · have hnil : g = [] := by
      by_contra hnil
      have := hroom.2 hnil
      omega
    have hcoded := h.coded
    rw [hnil, append_nil] at hcoded
    rw [hnil] at hout
    change s.outputPointer = s.flagPointer + 1 + 0 at hout
    exact ⟨is, bs, _, hcoded, .full h.groups, rfl, by omega, by omega, h.laid, h.frame⟩

theorem Told.blocked {n : ℕ} {ts : List Bool} {s : Pass} (h : Told c chunk stop dest limit before n ts s)
    (hn : chunk + n < stop) (hfull : min (dest + 4098) c.compressedBufferSize ≤ s.outputPointer + 1)
    (hsize : c.engine = .standard → min (dest + 4098) c.compressedBufferSize <
      dest + 2 + codedSize (chunkTokens c.source chunk stop)) :
    Blocked c chunk stop dest := by
  obtain ⟨is, bs, g, h, hg, -⟩ := h
  refine ⟨is ++ g, n, h.coded, hn, fun hz => (h.zeros hz).trans (by omega), ?_, hsize⟩
  have hptr := h.flagPointer
  have hout := h.outputPointer
  have hgroups := h.groups.length
  simp only [length_append, bytesOf_append]
  omega

/-- **The compression of a chunk** ends in one of the four ways. -/
theorem lznt1CompressChunk_spec (dest : ℕ) (hchunk : chunk < stop) (hend : stop = min (chunk + 4096) c.uncompressedBufferSize)
    (hp : InMemory c chunk stop) (out : ℕ → Byte) (work : WorkSpace) :
    Outcome c chunk stop dest out (lznt1CompressChunk c chunk dest out work) := by
  have h18 := (Nat.max_le.1 hp.work).1
  rw [lznt1CompressChunk, Call.touch_of_le h18, ok_bind]
  dsimp only
  rw [show (if chunk + 4096 < c.uncompressedBufferSize then chunk + 4096 else c.uncompressedBufferSize) =
    stop by split_ifs <;> omega]
  generalize hfin' : (if dest + 4098 < c.compressedBufferSize then dest + 4098 else c.compressedBufferSize) = limit
  have hfin : limit = min (dest + 4098) c.compressedBufferSize := by
    rw [← hfin']
    split_ifs <;> omega
  have hstart : Told c chunk stop dest limit out 0 [] ⟨chunk, dest + 3, dest + 2, 0, 0, 0, 0, out,
      { work with nextFreeEntry := 0, uncompressedBuffer := chunk, endOfUncompressedBufferPlus1 := stop, maxLength := 4098 }⟩ :=
    ⟨[], [], [], ⟨.nil, .nil, flags_nil, rfl, rfl, laid_nil _ _, laid_nil _ _, fun _ _ => rfl, rfl,
      ⟨fun _ p h1 h2 => by omega, fun _ => rfl⟩, fun h => absurd rfl h, fun _ => Nat.zero_le _⟩, by decide, rfl, rfl⟩
  obtain ⟨s, hloop, n, ts, htold, hends⟩ := chunkLoop_spec hp hchunk.le (by omega) hstart
    ⟨rfl, rfl, Nat.zero_le _, by simp, fun h => absurd h (Nat.lt_irrefl _), fun _ => .inl ⟨rfl, rfl⟩⟩ rfl
  rw [hloop, ok_bind, finishChunk]
  have hinput : s.inputPointer = chunk + n := by
    obtain ⟨is, bs, g, h, -⟩ := htold
    exact h.inputPointer
  have hnull : s.nullCharacter = 0 ↔ Zeros c.source chunk (chunk + n) := by
    obtain ⟨is, bs, g, h, -⟩ := htold
    exact h.null
  rw [hinput]
  obtain ⟨rfl, htokens⟩ | ⟨hlt, hfull, hsize⟩ := hends
  swap
  · rw [if_pos hlt]
    have hblocked := htold.blocked hlt (hfin ▸ hfull) (hfin ▸ hsize)
    by_cases hroom : dest + 4098 ≤ c.compressedBufferSize
    · rw [if_pos hroom]
      by_cases hread : chunk + 4096 ≤ c.source.size
      · obtain ⟨out₁, hcopy, hbytes, hsame₁⟩ := copyMemory_spec
          (show dest + 2 + 4096 ≤ c.compressedBufferSize by omega) hread s.out
        obtain ⟨out₂, hstore, hheader, hsame₂⟩ := storeUshort_spec (show dest + 1 < c.compressedBufferSize by omega) out₁
          (chunkHeader 4098 false)
        rw [hcopy, ok_bind, hstore, ok_bind]
        refine .stored hblocked hread rfl hroom hheader (fun k hk => ?_) (fun i hi => ?_) rfl
        · exact (hsame₂ _ (by omega)).trans (hbytes k hk)
        · obtain ⟨is, bs, g, h, -⟩ := htold
          exact (hsame₂ i (by omega)).trans ((hsame₁ i (by omega)).trans (h.frame i hi))
      · rw [copyMemory_outside (by omega) hread (by omega)]
        exact .outside hblocked hroom hread
    · rw [if_neg hroom]
      exact .tooSmall hblocked hroom rfl
  · rw [if_neg (Nat.lt_irrefl _)]
    obtain ⟨is, bs, out₁, hcoded, hpayload, hstore₁, hptr, hlast, hlaid, hframe⟩ := htold.payload (by omega) (by omega)
    rw [hstore₁, ok_bind]
    dsimp only
    rw [hptr, show dest + 2 + bs.length - dest = bs.length + 2 by omega]
    obtain ⟨out₂, hstore₂, hheader, hsame⟩ := storeUshort_spec (show dest + 1 < c.compressedBufferSize by omega) out₁
      (chunkHeader (bs.length + 2) true)
    rw [hstore₂, ok_bind]
    refine .packed ((Nat.add_sub_cancel_left (n := chunk) (m := n)).symm ▸ hcoded) hpayload rfl (by dsimp only; omega)
      (by dsimp only; omega) hheader
      (hlaid.congr fun i hi _ => hsame i (by omega)) (fun i hi => (hsame i (by omega)).trans (hframe i hi)) ?_
      fun he => ?_
    swap
    · rw [htokens he]
      have := htold.sizes.1
      have := htold.sizes.2 (by omega)
      dsimp only
      omega
    by_cases hz : s.nullCharacter = 0
    · exact .inl ⟨hnull.1 hz, if_pos hz⟩
    · exact .inr ⟨fun h => hz (hnull.2 h), if_neg hz⟩

end Chunk

end Nt365.Rtl.Lznt1
