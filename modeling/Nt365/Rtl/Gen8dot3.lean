import Nt365.Library.Word
import Mathlib.Data.Nat.Digits.Lemmas
import Mathlib.Order.Interval.Set.Defs

/-!
# Short names

`RtlGenerate8dot3Name` of `GEN8DOT3.C`, without extended characters. The first call makes a basis and an extension of the long
name; every call puts the next index on the basis. A character is its number. The checksum takes the name two characters at a time,
and of a name of three, five, ... characters it reads the one after it.
-/

namespace Nt365.Rtl.Gen8dot3

open Nt365.Library List

def space : ℕ := 0x20

def dot : ℕ := 0x2e

def tilde : ℕ := 0x7e

/-- `UNICODE_STRING`: the characters, of which there are `Length / 2`, and what can be read after them. -/
structure UnicodeString where
  chars : List ℕ
  after : List ℕ

/-- `GENERATE_NAME_CONTEXT`, with its buffers as far as they are filled; the extension without its dot. -/
structure Context where
  checksum : ℕ := 0
  checksumInserted : Bool := false
  name : List ℕ := []
  extension : List ℕ := []
  lastIndexValue : ℕ := 0

/-- `GetNextWchar` on what is left of the name: a character, or 0, and the index after it. -/
def getNextWchar (skipDots : Bool) : List ℕ → ℕ → ℕ × ℕ
  | [], currentIndex => (0, currentIndex)
  | wc :: rest, currentIndex =>
    if wc ≤ space ∨ 127 < wc ∨ wc = dot ∧ skipDots then getNextWchar skipDots rest (currentIndex + 1)
    else
      let wc := if wc ∈ [0x3a, 0x2b, 0x2c, 0x3b, 0x3d, 0x5b, 0x5d] then 0x5f else wc
      (if 0x61 ≤ wc ∧ wc ≤ 0x7a then wc - 0x20 else wc, currentIndex + 1)

section Basis

variable (chars : List ℕ)

/-- The scan for the index after the last dot, with a bound on the characters that it gets. -/
def lastDot : ℕ → Bool → ℕ → ℕ → ℕ
  | 0, _, _, lastDotIndex => lastDotIndex
  | n + 1, skipDots, currentIndex, lastDotIndex =>
    let (wc, currentIndex) := getNextWchar skipDots (chars.drop currentIndex) currentIndex
    if wc = 0 then lastDotIndex else lastDot n false currentIndex (if wc = dot then currentIndex else lastDotIndex)

/-- At most `room` characters for a part of the short name, none beyond where it stops. -/
def gather (stop : ℕ → Bool) : ℕ → ℕ → List ℕ
  | 0, _ => []
  | room + 1, currentIndex =>
    let (wc, currentIndex) := getNextWchar true (chars.drop currentIndex) currentIndex
    if wc = 0 ∨ stop currentIndex then [] else wc :: gather stop room currentIndex

def nibble (n : ℕ) : ℕ := n % 16 + if n % 16 ≤ 9 then 0x30 else 0x41 - 10

def nibbles (checksum : ℕ) : List ℕ := [checksum, checksum / 16, checksum / 256, checksum / 4096].map nibble

/-- The context of the first call. -/
def initialise (checksum : ℕ) (context : Context) : Context :=
  let lastDotIndex := lastDot chars chars.length (chars.head? = some dot) 0 maxUlong
  let name := gather chars (fun currentIndex => lastDotIndex < currentIndex) 8 0
  let extension := if lastDotIndex = maxUlong then context.extension else gather chars (fun _ => false) 3 lastDotIndex
  if name.length < 3 then { context with checksum, checksumInserted := true, name := name ++ nibbles checksum, extension }
  else { context with checksum, name, extension }

end Basis

/-- The loop of the checksum over two characters at a time, with `left` of the name left; `none` if it reads what is not there. -/
def checksumFrom : (left : ℕ) → List ℕ → ℕ → Option ℕ
  | 0, _, checksum => some checksum
  | left + 1, a :: b :: rest, checksum =>
    checksumFrom (left - 1) rest (u16 ((if checksum % 2 = 1 then 0x8000 else 0) + checksum / 2 + u16 (a * 256 + b)))
  | _, _, _ => none

/-- `RtlComputeLfnChecksum`. The first shift is by 8 and the second character, of which the processor takes five bits. -/
def rtlComputeLfnChecksum (name : UnicodeString) : Option ℕ :=
  if name.chars.length = 1 then name.chars.head?
  else
    match name.chars ++ name.after with
    | a :: b :: rest => checksumFrom (name.chars.length - 2) rest (u16 (a * 2 ^ ((8 + b) % 32)))
    | _ => none

namespace Context

/-- The next index; after the fourth the checksum is put into the basis. -/
def next (context : Context) : Context :=
  let context := { context with lastIndexValue := add32 context.lastIndexValue 1 }
  if 4 < context.lastIndexValue ∧ ¬context.checksumInserted then
    { context with checksumInserted := true, name := context.name.take 2 ++ nibbles context.checksum }
  else context

/-- The loop that writes the digits of an index from the right. -/
def indexDigits : ℕ → ℕ → List ℕ → List ℕ
  | 0, _, buffer => buffer
  | room + 1, i, buffer => if i = 0 then buffer else indexDigits room (i / 10) ((0x30 + i % 10) :: buffer)

/-- An extension after its dot, which is dropped with it. -/
def dotted (ext : List ℕ) : List ℕ := if ext = [] then [] else dot :: ext

/-- The short name: the basis as far as there is room, the index and the extension. -/
def name8dot3 (context : Context) : List ℕ :=
  let index := if context.lastIndexValue = 0 then [] else tilde :: indexDigits 7 context.lastIndexValue []
  context.name.take (8 - index.length) ++ index ++ dotted context.extension

end Context

open Context

/-- One call. -/
def rtlGenerate8dot3Name (name : UnicodeString) (context : Context) : Option (Context × List ℕ) := do
  let context ← if context.name = [] then (rtlComputeLfnChecksum name).map fun checksum => initialise name.chars checksum context
    else some context
  return (context.next, context.next.name8dot3)

/-- What a number of calls leave, from a zeroed context on. -/
def calls (name : UnicodeString) : ℕ → Option (Context × List ℕ)
  | 0 => some ({}, [])
  | k + 1 => calls name k >>= fun r => rtlGenerate8dot3Name name r.1

/-! ### What a short name is -/

/-- The digits of an index. -/
def decimal (k : ℕ) : List ℕ := (Nat.digits 10 k).reverse.map (0x30 + ·)

/-- No dot, space or lower-case letter. -/
def Clean (c : ℕ) : Prop := c ≠ dot ∧ c ≠ space ∧ (c < 0x61 ∨ 0x7a < c)

/-- At most 12 characters: a base that ends in `~` and the index, and an extension or none. -/
def IsShortName (k : ℕ) (s : List ℕ) : Prop :=
  s.length ≤ 12 ∧ ∃ base ext, s = base ++ dotted ext ∧ base.length ∈ Set.Icc 1 8 ∧ ext.length ≤ 3 ∧
    (∃ stem, base = stem ++ tilde :: decimal k) ∧ ∀ c ∈ base ++ ext, Clean c

/-- The calls give short names, each another one, that do not depend on what is after the name, or on whether anything is. -/
def Generates (name : UnicodeString) : Prop :=
  ∃ names : ℕ → List ℕ, Set.InjOn names (Set.Icc 1 9999999) ∧
    ∀ k ∈ Set.Icc 1 9999999, IsShortName k (names k) ∧ ∀ after, (calls { name with after } k).map Prod.snd = some (names k)

/-! ### The parts are clean -/

theorem getNextWchar_clean (cs : List ℕ) (i : ℕ) : (getNextWchar true cs i).1 = 0 ∨ Clean (getNextWchar true cs i).1 := by
  induction cs generalizing i with
  | nil => exact .inl rfl
  | cons wc rest ih =>
    rw [getNextWchar]
    split
    · exact ih (i + 1)
    · rename_i hpass
      simp only [and_true, not_or, not_le] at hpass
      unfold Clean
      unfold space dot at *
      dsimp only
      split_ifs <;> omega

theorem gather_clean (chars : List ℕ) (stop : ℕ → Bool) (room i : ℕ) :
    (gather chars stop room i).length ≤ room ∧ ∀ c ∈ gather chars stop room i, Clean c := by
  induction room generalizing i with
  | zero => exact ⟨le_rfl, forall_mem_nil _⟩
  | succ room ih =>
    rw [gather]
    dsimp only
    split
    · exact ⟨Nat.zero_le _, forall_mem_nil _⟩
    · rename_i hgo
      obtain ⟨hlen, hrest⟩ := ih (getNextWchar true (chars.drop i) i).2
      exact ⟨Nat.succ_le_succ hlen, forall_mem_cons.mpr ⟨(getNextWchar_clean _ i).resolve_left fun h => hgo (.inl h), hrest⟩⟩

theorem nibbles_clean (checksum : ℕ) : ∀ c ∈ nibbles checksum, Clean c := by
  intro c hc
  obtain ⟨n, -, rfl⟩ := mem_map.mp hc
  unfold Clean nibble dot space
  split <;> omega

/-- What every call leaves: a basis, and clean characters. -/
structure Context.Ready (context : Context) : Prop where
  name : context.name ≠ []
  ext : context.extension.length ≤ 3
  clean : ∀ c ∈ context.name, Clean c
  extClean : ∀ c ∈ context.extension, Clean c

variable {context : Context} {name : UnicodeString}

theorem initialise_ready (chars : List ℕ) (checksum : ℕ) :
    (initialise chars checksum {}).Ready ∧ (initialise chars checksum {}).lastIndexValue = 0 := by
  unfold initialise
  generalize lastDot chars chars.length (chars.head? = some dot) 0 maxUlong = lastDotIndex
  have hname := (gather_clean chars (fun currentIndex => lastDotIndex < currentIndex) 8 0).2
  obtain ⟨ext, heq, hlen, hext⟩ : ∃ ext, (if lastDotIndex = maxUlong then []
    else gather chars (fun _ => false) 3 lastDotIndex) = ext ∧
      ext.length ≤ 3 ∧ ∀ c ∈ ext, Clean c := by
    split
    · exact ⟨[], rfl, Nat.zero_le _, forall_mem_nil _⟩
    · exact ⟨_, rfl, gather_clean chars _ 3 _⟩
  dsimp only
  rw [heq]
  split
  · exact ⟨⟨by simp [nibbles], hlen, forall_mem_append.mpr ⟨hname, nibbles_clean checksum⟩, hext⟩, rfl⟩
  · exact ⟨⟨fun h => by simp_all, hlen, hname, hext⟩, rfl⟩

theorem Context.Ready.next (h : context.Ready) : context.next.Ready := by
  rw [Context.next]
  split
  · exact ⟨by simp [nibbles], h.ext, forall_mem_append.mpr ⟨fun c hc => h.clean c (mem_of_mem_take hc), nibbles_clean _⟩,
      h.extClean⟩
  · exact ⟨h.name, h.ext, h.clean, h.extClean⟩

theorem lastIndexValue_next : context.next.lastIndexValue = add32 context.lastIndexValue 1 := by
  rw [Context.next]
  split <;> rfl

/-! ### The index -/

theorem indexDigits_eq (room : ℕ) {i : ℕ} (hi : i < 10 ^ room) (buffer : List ℕ) :
    indexDigits room i buffer = decimal i ++ buffer := by
  induction room generalizing i buffer with
  | zero =>
    obtain rfl : i = 0 := by omega
    rfl
  | succ room ih =>
    rw [indexDigits]
    split
    · simp [decimal, *]
    · rename_i hne
      rw [ih (by rw [pow_succ] at hi; omega), decimal, decimal, Nat.digits_def' (by omega) (n := i) (Nat.pos_of_ne_zero hne)]
      simp

theorem decimal_digit {i c : ℕ} (hc : c ∈ decimal i) : 0x30 ≤ c ∧ c ≤ 0x39 := by
  obtain ⟨d, hd, rfl⟩ := mem_map.mp hc
  have hlt := Nat.digits_lt_base (by omega) (mem_reverse.mp hd)
  omega

/-- **The name of an index** is a short name. -/
theorem Context.Ready.isShortName (h : context.Ready) (hk : context.lastIndexValue ∈ Set.Icc 1 9999999) :
    IsShortName context.lastIndexValue context.name8dot3 := by
  obtain ⟨hpos, hle⟩ := hk
  have hext := h.ext
  have hdigits : (decimal context.lastIndexValue).length ≤ 7 := by
    rw [decimal, length_map, length_reverse]
    exact (Nat.digits_length_le_iff (by omega) _).mpr (by omega)
  have hdotted : (dotted context.extension).length ≤ context.extension.length + 1 := by
    unfold dotted
    split <;> simp
  rw [name8dot3, if_neg (by omega), indexDigits_eq 7 (by omega), append_nil]
  have hbase := length_take_le (8 - (tilde :: decimal context.lastIndexValue).length) context.name
  refine ⟨?_, _, context.extension, rfl, ?_, hext, ⟨_, rfl⟩, ?_⟩
  · simp only [length_append, length_cons] at hbase ⊢
    omega
  · rw [length_append, length_cons] at *
    constructor <;> omega
  · refine forall_mem_append.mpr ⟨forall_mem_append.mpr ⟨fun c hc => h.clean c (mem_of_mem_take hc), ?_⟩, h.extClean⟩
    refine forall_mem_cons.mpr ⟨by unfold Clean; decide, fun c hc => ?_⟩
    have hdigit := decimal_digit hc
    unfold Clean dot space
    omega

/-- The index is read back from the name: it is what follows the last `~` before the dot. -/
theorem IsShortName.decimal_eq {k : ℕ} {s : List ℕ} (h : IsShortName k s) :
    ((s.takeWhile (· ≠ dot)).reverse.takeWhile (· ≠ tilde)).reverse = decimal k := by
  obtain ⟨-, base, ext, rfl, -, -, ⟨stem, rfl⟩, hclean⟩ := h
  have hext : (dotted ext).takeWhile (· ≠ dot) = [] := by
    unfold dotted
    split <;> simp
  rw [takeWhile_append_of_pos fun c hc => decide_eq_true (hclean c (mem_append_left _ hc)).1, hext, append_nil, reverse_append,
    reverse_cons, append_assoc, takeWhile_append_of_pos fun c hc => ?_]
  · simp
  · have hdigit := decimal_digit (mem_reverse.mp hc)
    exact decide_eq_true (by unfold tilde; omega)

/-- **A short name has one index.** -/
theorem IsShortName.index_eq {j k : ℕ} {s t : List ℕ} (hj : IsShortName j s) (hk : IsShortName k t) (h : s = t) : j = k := by
  have hdecimal : decimal j = decimal k := by rw [← hj.decimal_eq, ← hk.decimal_eq, h]
  exact Nat.digits_inj_iff.mp (reverse_injective (map_injective_iff.mpr (add_right_injective 0x30) hdecimal))

/-! ### The checksum -/

/-- An even number of characters is read, and nothing after them. -/
theorem checksumFrom_even : ∀ (cs : List ℕ) (checksum : ℕ), cs.length % 2 = 0 →
    ∃ r, ∀ after, checksumFrom cs.length (cs ++ after) checksum = some r
  | [], checksum, _ => ⟨checksum, fun _ => by rw [length_nil, checksumFrom]⟩
  | [_], _, h => absurd h (by simp)
  | _ :: _ :: cs, _, h => checksumFrom_even cs _ (by rw [length_cons, length_cons] at h; omega)

/-- With an odd number the last read is after them. -/
theorem checksumFrom_odd : ∀ (cs : List ℕ) (checksum : ℕ), cs.length % 2 = 1 → checksumFrom cs.length cs checksum = none
  | [], _, h => absurd h (by simp)
  | [_], _, _ => rfl
  | _ :: _ :: cs, _, h => checksumFrom_odd cs _ (by rw [length_cons, length_cons] at h; omega)

/-- The checksum of a single character, or of an even number of them, does not depend on what is after them. -/
theorem checksum_eq_some (hne : name.chars ≠ []) (h : name.chars.length = 1 ∨ name.chars.length % 2 = 0) :
    ∃ r, ∀ after, rtlComputeLfnChecksum { name with after } = some r := by
  obtain ⟨_ | ⟨a, _ | ⟨b, cs⟩⟩, after⟩ := name
  · exact absurd rfl hne
  · exact ⟨a, fun after => if_pos (h.resolve_right (by simp))⟩
  · obtain ⟨r, hr⟩ := checksumFrom_even cs (u16 (a * 2 ^ ((8 + b) % 32))) (by
      simp only [length_cons] at h
      omega)
    exact ⟨r, fun after => (if_neg (by simp)).trans (hr after)⟩

/-- Of others the character after them is read. -/
theorem checksum_eq_none (h : ¬(name.chars.length = 1 ∨ name.chars.length % 2 = 0)) :
    rtlComputeLfnChecksum { name with after := [] } = none := by
  obtain ⟨_ | ⟨a, _ | ⟨b, cs⟩⟩, after⟩ := name
  · exact absurd (.inr rfl) h
  · exact if_neg fun hlen => h (.inl hlen)
  · refine (if_neg fun hlen => h (.inl hlen)).trans ?_
    rw [append_nil]
    refine checksumFrom_odd cs _ ?_
    simp only [length_cons] at h
    omega

/-! ### The calls -/

/-- The context of the `k`-th call. -/
def contextAt (chars : List ℕ) (checksum : ℕ) : ℕ → Context
  | 0 => initialise chars checksum {}
  | k + 1 => (contextAt chars checksum k).next

theorem contextAt_ready (chars : List ℕ) (checksum : ℕ) {k : ℕ} (hk : k ≤ 9999999) :
    (contextAt chars checksum k).Ready ∧ (contextAt chars checksum k).lastIndexValue = k := by
  induction k with
  | zero => exact initialise_ready chars checksum
  | succ k ih =>
    obtain ⟨hready, hindex⟩ := ih (by omega)
    rw [contextAt, lastIndexValue_next, hindex]
    exact ⟨hready.next, add32_of_lt (by omega)⟩

/-- The calls, if the checksum reads what is there. -/
theorem calls_eq {checksum : ℕ} (hsum : rtlComputeLfnChecksum name = some checksum) {k : ℕ} (hk : k < 9999999) :
    calls name (k + 1) = some (contextAt name.chars checksum (k + 1), (contextAt name.chars checksum (k + 1)).name8dot3) := by
  induction k with
  | zero => simp [calls, rtlGenerate8dot3Name, hsum, contextAt]
  | succ k ih =>
    have hready := (contextAt_ready name.chars checksum (k := k + 1) (by omega)).1
    rw [calls, ih (by omega), show contextAt name.chars checksum (k + 1 + 1) =
      (contextAt name.chars checksum (k + 1)).next from rfl]
    simp only [rtlGenerate8dot3Name, Option.bind_eq_bind, Option.bind_some, if_neg hready.name, Option.pure_def]

/-- **The calls for a name generate short names** as they should exactly if it has one character or an even number of them. -/
theorem generates_iff (hne : name.chars ≠ []) : Generates name ↔ name.chars.length = 1 ∨ name.chars.length % 2 = 0 := by
  constructor
  · rintro ⟨names, -, hnames⟩
    by_contra h
    have hfirst := (hnames 1 ⟨le_rfl, by decide⟩).2 []
    simp [calls, rtlGenerate8dot3Name, checksum_eq_none h] at hfirst
  · intro h
    obtain ⟨checksum, hsum⟩ := checksum_eq_some hne h
    have hshort : ∀ k ∈ Set.Icc 1 9999999, IsShortName k (contextAt name.chars checksum k).name8dot3 := by
      intro k hk
      obtain ⟨hready, hindex⟩ := contextAt_ready name.chars checksum hk.2
      simpa only [hindex] using hready.isShortName (by rwa [hindex])
    refine ⟨fun k => (contextAt name.chars checksum k).name8dot3, fun j hj k hk heq => ?_,
      fun k hk => ⟨hshort k hk, fun after => ?_⟩⟩
    · exact (hshort j hj).index_eq (hshort k hk) heq
    · obtain ⟨k, rfl⟩ := Nat.exists_eq_add_of_le' hk.1
      rw [calls_eq (hsum after) (Nat.lt_of_succ_le hk.2)]
      rfl

/-- The name `ab`, of two characters. -/
theorem generates_ab : Generates ⟨[0x61, 0x62], []⟩ := (generates_iff (cons_ne_nil _ _)).mpr (.inr rfl)

/-- For the name `abc` the first call reads the character after it. -/
theorem not_generates_abc : ¬Generates ⟨[0x61, 0x62, 0x63], []⟩ := by
  rintro ⟨names, -, hnames⟩
  cases (hnames 1 ⟨le_rfl, by decide⟩).2 []

end Nt365.Rtl.Gen8dot3
