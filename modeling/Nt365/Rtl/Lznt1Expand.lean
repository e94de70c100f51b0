import Nt365.Rtl.Lznt1Compress

/-!
# Decompressing a chunk

`LZNT1DecompressChunk` on what `LZNT1CompressChunk` wrote gives the bytes of the chunk back, wherever they are written.
-/

namespace Nt365.Rtl.Lznt1

open Nt365.Library List

/-! ### Tokens -/

theorem token_round {f length d : ℕ} (hf : f ≤ 8) (h3 : 3 ≤ length) (hlength : length ≤ 2 ^ (12 - f) + 2) (hd : 1 ≤ d)
    (hd' : d ≤ 2 ^ (4 + f)) :
    setLznt1 f length d < 65536 ∧ getLznt1Length f (setLznt1 f length d) = length ∧
      getLznt1Displacement f (setLznt1 f length d) = d := by
  have hpq : 2 ^ (4 + f) * 2 ^ (12 - f) = 65536 := by rw [← Nat.pow_add, show 4 + f + (12 - f) = 16 by omega]
  have hp := Nat.two_pow_pos (12 - f)
  unfold setLznt1 getLznt1Length getLznt1Displacement
  rw [Nat.mod_eq_of_lt (show length - 3 < 2 ^ (12 - f) by omega), Nat.mod_eq_of_lt (show d - 1 < 2 ^ (4 + f) by omega)]
  refine ⟨?_, ?_, ?_⟩
  · have hmul : (d - 1 + 1) * 2 ^ (12 - f) ≤ 2 ^ (4 + f) * 2 ^ (12 - f) := Nat.mul_le_mul_right _ (by omega)
    rw [Nat.add_mul] at hmul
    omega
  · rw [Nat.add_mul_mod_self_right, Nat.mod_eq_of_lt (by omega)]
    omega
  · rw [Nat.add_mul_div_right _ _ hp, Nat.div_eq_of_lt (by omega)]
    omega

theorem retrieveUshort_eq {B : Buffer} {i v : ℕ} (h : Laid B.byte i (ushort v)) (hi : i + 2 ≤ B.size) (hv : v < 65536) :
    retrieveUshort B i = .ok v := by
  rw [ushort, laid_cons, laid_cons] at h
  rw [retrieveUshort, fetch_of_lt (by omega), ok_bind, fetch_of_lt (by omega), ok_bind, h.1, h.2.1, BitVec.toNat_ofNat,
    BitVec.toNat_ofNat]
  exact congrArg Except.ok (by omega)

/-! ### What is written -/

/-- The first `k` bytes of a chunk are written from `target` on, and nothing else has changed. -/
def Restored (B : Buffer) (chunk target : ℕ) (before : ℕ → Byte) (k : ℕ) (out : ℕ → Byte) : Prop :=
  (∀ i < k, out (target + i) = B.byte (chunk + i)) ∧ ∀ j, j < target ∨ target + k ≤ j → out j = before j

section Restored

variable {B : Buffer} {chunk target k : ℕ} {before out : ℕ → Byte}

theorem Restored.snoc (h : Restored B chunk target before k out) :
    Restored B chunk target before (k + 1) (Function.update out (target + k) (B.byte (chunk + k))) := by
  refine ⟨fun i hi => ?_, fun j hj => (Function.update_of_ne (by omega) _ _).trans (h.2 j (by omega))⟩
  obtain hi | rfl := Nat.lt_succ_iff_lt_or_eq.1 hi
  · exact (Function.update_of_ne (by omega) _ _).trans (h.1 i hi)
  · exact Function.update_self ..

theorem copyBack_spec (size length : ℕ) {d : ℕ} (hd : 1 ≤ d) (hdk : d ≤ k) (hsize : target + k + length ≤ size)
    (hsame : ∀ i < length, B.byte (chunk + k - d + i) = B.byte (chunk + k + i)) (h : Restored B chunk target before k out) :
    ∃ out', copyBack size d length (target + k) out = .ok out' ∧ Restored B chunk target before (k + length) out' := by
  induction length generalizing k out with
  | zero => exact ⟨out, rfl, h⟩
  | succ length ih =>
    have hbyte : out (target + k - d) = B.byte (chunk + k) := by
      rw [show target + k - d = target + (k - d) by omega, h.1 _ (by omega), show chunk + (k - d) = chunk + k - d + 0 by omega]
      exact hsame 0 (by omega)
    rw [copyBack, store_of_lt (by omega), ok_bind, hbyte]
    have hsame' (i : ℕ) (hi : i < length) : B.byte (chunk + (k + 1) - d + i) = B.byte (chunk + (k + 1) + i) := by
      have := hsame (i + 1) (by omega)
      rwa [show chunk + k - d + (i + 1) = chunk + (k + 1) - d + i by omega, show chunk + k + (i + 1) =
        chunk + (k + 1) + i by omega] at this
    obtain ⟨out', hcopy, hrest⟩ := ih (Nat.le_succ_of_le hdk) (by omega) hsame' h.snoc
    exact ⟨out', hcopy, by rwa [show k + (length + 1) = k + 1 + length by omega]⟩

end Restored

/-! ### Where the items are -/

/-- Where the item after some others is; `a` is the place of the first flags. -/
def place (a : ℕ) (js : List Item) : ℕ := a + 1 + (bytesOf js).length + js.length / 8

/-- Where the flags of that item are. -/
def flagPlace (a : ℕ) (js : List Item) : ℕ := place a (js.take (js.length / 8 * 8)) - 1

/-- Each item has its bytes and its flag at its place, before the end. -/
def LaidOut (mem : ℕ → Byte) (a stop : ℕ) (is : List Item) : Prop :=
  ∀ js x ks, is = js ++ x :: ks → Laid mem (place a js) x.bytes ∧ (mem (flagPlace a js)).getLsbD (js.length % 8) = x.isCopy ∧
    place a js + x.bytes.length ≤ stop

section LaidOut

variable {mem : ℕ → Byte} {a : ℕ} {is g : List Item} {bs : List Byte} {flag : Byte}

theorem LaidOut.append (h : LaidOut mem a (a + bs.length) is) (hgroups : Groups is bs) (hg : g.length ≤ 8) (hflags : Flags g flag)
    (hlaid : Laid mem (a + bs.length) (flag :: bytesOf g)) : LaidOut mem a (a + (bs ++ flag :: bytesOf g).length) (is ++ g) := by
  have hlength := hgroups.length
  rw [laid_cons] at hlaid
  have hlast (g' : List Item) (x : Item) (ks : List Item) (heq : g = g' ++ x :: ks) : Laid mem (place a (is ++ g')) x.bytes ∧
      (mem (flagPlace a (is ++ g'))).getLsbD ((is ++ g').length % 8) = x.isCopy ∧
      place a (is ++ g') + x.bytes.length ≤ a + (bs ++ flag :: bytesOf g).length := by
    have hlt : g'.length < 8 := by
      rw [heq, length_append, length_cons] at hg
      omega
    have hdiv : (is ++ g').length / 8 * 8 = is.length := by
      rw [length_append]
      omega
    have hplace : place a (is ++ g') = a + bs.length + 1 + (bytesOf g').length := by
      rw [place, bytesOf_append, length_append, length_append]
      omega
    have hsplit : bytesOf g = bytesOf g' ++ (x.bytes ++ bytesOf ks) := by
      rw [heq, ← singleton_append, bytesOf_append, bytesOf_append, bytesOf_singleton]
    refine ⟨?_, ?_, ?_⟩
    · have hbytes := hlaid.2
      rw [hsplit, laid_append, laid_append] at hbytes
      rw [hplace]
      exact hbytes.2.1
    · rw [flagPlace, hdiv, take_left, place, show a + 1 + (bytesOf is).length + is.length / 8 - 1 =
        a + bs.length by omega, hlaid.1,
        length_append, show (is.length + g'.length) % 8 = g'.length by omega, hflags g'.length, heq, getElem?_append_right le_rfl,
        Nat.sub_self]
      rfl
    · rw [hplace, hsplit]
      simp only [length_append, length_cons]
      omega
  intro js x ks heq
  obtain ⟨g', rfl, hg'⟩ | ⟨ks', heq, hks⟩ := append_eq_append_iff.1 heq
  · exact hlast g' x ks hg'
  · cases ks' with
    | nil =>
      rw [append_nil] at heq
      have := hlast [] x ks hks.symm
      rwa [append_nil, heq] at this
    | cons y ks' =>
      obtain ⟨rfl, hks⟩ := cons_eq_cons.1 hks
      obtain ⟨h₁, h₂, h₃⟩ := h js x ks' heq
      refine ⟨h₁, h₂, h₃.trans ?_⟩
      rw [length_append]
      omega

theorem Groups.laidOut (h : Groups is bs) (hlaid : Laid mem a bs) : LaidOut mem a (a + bs.length) is := by
  induction h with
  | nil => exact fun js x ks heq => by simp at heq
  | snoc h hg hflags ih =>
    rw [laid_append] at hlaid
    exact (ih hlaid.1).append h hg.le hflags hlaid.2

/-- A payload has its items at their places, and nothing after them. -/
theorem Payload.laidOut (h : Payload is bs) (hlaid : Laid mem a bs) :
    LaidOut mem a (a + bs.length) is ∧ a + bs.length ≤ place a is := by
  cases h with
  | full h =>
    have := h.length
    exact ⟨h.laidOut hlaid, by rw [place]; omega⟩
  | part h hg hflags =>
    have := h.length
    rw [laid_append] at hlaid
    refine ⟨(h.laidOut hlaid.1).append h hg.le hflags hlaid.2, ?_⟩
    simp only [place, length_append, bytesOf_append, length_cons]
    omega

end LaidOut

/-! ### The loop -/

/-- The items tell the bytes of a chunk from `n` to `stop`. -/
inductive Codes (B : Buffer) (chunk endOfInput stop : ℕ) : ℕ → List Item → Prop
  | nil : Codes B chunk endOfInput stop stop []
  | literal {n : ℕ} {ks : List Item} (h : Codes B chunk endOfInput stop (n + 1) ks) :
      Codes B chunk endOfInput stop n (⟨false, [B.byte (chunk + n)]⟩ :: ks)
  | copy {n matched length : ℕ} {ks : List Item} (h : Codes B chunk endOfInput stop (n + length) ks)
      (hmatch : Match B chunk endOfInput (chunk + n) matched length) (hle : length ≤ 2 ^ (12 - formatAt n) + 2) :
      Codes B chunk endOfInput stop n (⟨true, ushort (setLznt1 (formatAt n) length (chunk + n - matched))⟩ :: ks)

theorem Coded.codes {B : Buffer} {chunk endOfInput stop n : ℕ} {is ks : List Item} (h : Coded B chunk endOfInput is n)
    (hks : Codes B chunk endOfInput stop n ks) : Codes B chunk endOfInput stop 0 (is ++ ks) := by
  induction h generalizing ks with
  | nil => exact hks
  | literal _ ih =>
    rw [append_assoc]
    exact ih hks.literal
  | copy _ hmatch hle ih =>
    rw [append_assoc]
    exact ih (hks.copy hmatch hle)

theorem Codes.le {B : Buffer} {chunk endOfInput stop n : ℕ} {ks : List Item} (h : Codes B chunk endOfInput stop n ks) :
    n ≤ stop := by
  induction h with
  | nil => exact le_rfl
  | literal _ ih => omega
  | copy _ _ _ ih => omega

section Expand

variable {B D : Buffer} {chunk endOfInput target endOfOutput a endOfChunk : ℕ} {before : ℕ → Byte} {is : List Item}

/-- The loop has expanded the items `js`, which tell `n` bytes. -/
structure Expanded (B D : Buffer) (chunk target a : ℕ) (before : ℕ → Byte) (js : List Item) (n : ℕ) (s : Expansion) : Prop where
  outputPointer : s.outputPointer = target + n
  inputPointer : s.inputPointer = place a js
  flagBit : s.flagBit = js.length % 8
  flagByte : s.flagByte = D.byte (flagPlace a js)
  format : s.format ≤ formatAt n
  restored : Restored B chunk target before n s.out

/-- After an item the loop goes on to the next, or it leaves after the last. -/
theorem fetchFlag_spec {js ks : List Item} {x : Item} {n : ℕ} {s : Expansion} (hsize : endOfChunk ≤ D.size)
    (hlaid : LaidOut D.byte a endOfChunk (js ++ x :: ks)) (houtput : s.outputPointer = target + n)
    (hinput : s.inputPointer = place a js + x.bytes.length) (hbit : s.flagBit = js.length % 8)
    (hbyte : s.flagByte = D.byte (flagPlace a js))
    (hformat : s.format ≤ formatAt n) (hrestored : Restored B chunk target before n s.out) :
    (∃ s', fetchFlag D endOfChunk s = .ok (.inl s') ∧ Expanded B D chunk target a before (js ++ [x]) n s') ∨
      ks = [] ∧ ∃ s', fetchFlag D endOfChunk s = .ok (.inr (some s')) ∧ s'.outputPointer = target + n ∧ s'.out = s.out := by
  have hlength : (js ++ [x]).length = js.length + 1 := by rw [length_append, length_singleton]
  have hplace : place a (js ++ [x]) = place a js + x.bytes.length + (if (js.length + 1) % 8 = 0 then 1 else 0) := by
    rw [place, place, bytesOf_append, bytesOf_singleton, length_append, hlength]
    split_ifs <;> omega
  unfold fetchFlag
  rw [hbit]
  by_cases h8 : (js.length + 1) % 8 = 0
  · rw [if_pos h8] at hplace
    rw [if_pos (by omega)]
    split_ifs with hfull
    · refine .inr ⟨?_, _, rfl, houtput, rfl⟩
      cases ks with
      | nil => rfl
      | cons y ks =>
        have := (hlaid (js ++ [x]) y ks (by rw [append_assoc, singleton_append])).2.2
        omega
    · rw [fetch_of_lt (by omega), ok_bind]
      refine .inl ⟨_, rfl, houtput, by dsimp only; omega, by dsimp only; omega, ?_, hformat, hrestored⟩
      rw [flagPlace, show (js ++ [x]).length / 8 * 8 = (js ++ [x]).length by omega, take_length, hplace, ← hinput,
        Nat.add_sub_cancel]
  · rw [if_neg h8] at hplace
    rw [if_neg (by omega)]
    refine .inl ⟨_, rfl, houtput, hinput.trans hplace.symm, by dsimp only; omega, ?_, hformat, hrestored⟩
    rw [flagPlace, show (js ++ [x]).length / 8 * 8 = js.length / 8 * 8 by omega, take_append_of_le_length (by omega)]
    exact hbyte

/-- From this state the loop ends with the first `stop` bytes of the chunk. -/
def Expands (B D : Buffer) (chunk target endOfOutput endOfChunk : ℕ) (before : ℕ → Byte) (stop fuel : ℕ) (s : Expansion) : Prop :=
  ∃ s', loop .fuel (expandBody D target endOfOutput endOfChunk) fuel s = .ok (some s') ∧ s'.outputPointer = target + stop ∧
    Restored B chunk target before stop s'.out

/-- **The loop** expands what is left of the items. -/
theorem expandLoop_spec {stop n fuel : ℕ} {ks : List Item} (hks : Codes B chunk endOfInput stop n ks) (hstop : stop ≤ 4096)
    (hsize : endOfChunk ≤ D.size) (houtput : target + stop ≤ endOfOutput) {js : List Item} {s : Expansion}
    (hend : endOfChunk ≤ place a (js ++ ks))
    (hlaid : LaidOut D.byte a endOfChunk (js ++ ks)) (hs : Expanded B D chunk target a before js n s) (hfuel : ks.length < fuel) :
    Expands B D chunk target endOfOutput endOfChunk before stop fuel s := by
  have hdone {js ks : List Item} {x : Item} {n fuel : ℕ} {s t : Expansion} (hks : Codes B chunk endOfInput stop n ks)
      (hbody : expandBody D target endOfOutput endOfChunk s = fetchFlag D endOfChunk t)
      (hlaid : LaidOut D.byte a endOfChunk (js ++ x :: ks))
      (h₁ : t.outputPointer = target + n) (h₂ : t.inputPointer = place a js + x.bytes.length) (h₃ : t.flagBit = js.length % 8)
      (h₄ : t.flagByte = D.byte (flagPlace a js)) (h₅ : t.format ≤ formatAt n) (h₆ : Restored B chunk target before n t.out)
      (hnext : ∀ s', Expanded B D chunk target a before (js ++ [x]) n s' →
        Expands B D chunk target endOfOutput endOfChunk before stop fuel s') :
      Expands B D chunk target endOfOutput endOfChunk before stop (fuel + 1) s := by
    obtain ⟨s', hgo, hs'⟩ | ⟨rfl, s', hleave, hptr, hout⟩ := fetchFlag_spec hsize hlaid h₁ h₂ h₃ h₄ h₅ h₆
    · rw [Expands, loop_go (hbody.trans hgo)]
      exact hnext s' hs'
    · cases hks
      exact ⟨s', loop_leave (hbody.trans hleave), hptr, hout ▸ h₆⟩
  induction hks generalizing js s fuel with
  | nil =>
    have hinput := hs.inputPointer
    rw [append_nil] at hend
    obtain ⟨fuel, rfl⟩ : ∃ k, fuel = k + 1 := ⟨fuel - 1, by omega⟩
    refine ⟨s, loop_leave ?_, hs.outputPointer, hs.restored⟩
    rw [expandBody, if_neg (by omega)]
  | @literal n ks hks ih =>
    obtain ⟨hbytes, hflag, hin⟩ := hlaid js _ ks rfl
    have hle := hks.le
    have hinput := hs.inputPointer
    have hout := hs.outputPointer
    rw [laid_cons] at hbytes
    rw [length_cons] at hfuel hin
    obtain ⟨fuel, rfl⟩ : ∃ k, fuel = k + 1 := ⟨fuel - 1, by omega⟩
    refine hdone (t := { s with
      format := formatAt n, out := Function.update s.out (target + n) (B.byte (chunk + n)), inputPointer := s.inputPointer + 1,
      outputPointer := s.outputPointer + 1 }) hks ?_ hlaid (by dsimp only; omega) (by rw [hinput]; rfl) hs.flagBit hs.flagByte
      (formatAt_mono (Nat.le_succ n)) hs.restored.snoc fun s' hs' => ih (by simpa using hend) (by simpa using hlaid) hs' (by omega)
    rw [expandBody, if_pos (by omega), show s.outputPointer - target = n by omega,
      nextFormat_eq (by omega) hs.format (by omega), ok_bind,
      hs.flagByte, hs.flagBit, hflag, if_neg Bool.false_ne_true, fetch_of_lt (by omega), ok_bind, hinput, hbytes.1,
        store_of_lt (by omega), ok_bind,
      hout]
  | @copy n matched length ks hks hmatch hlength ih =>
    obtain ⟨hbytes, hflag, hin⟩ := hlaid js _ ks rfl
    have hle := hks.le
    have hinput := hs.inputPointer
    have hout := hs.outputPointer
    have hchunk := hmatch.chunk_le
    have hlt := hmatch.lt
    have h3 := hmatch.three_le
    have hdisp : n ≤ 2 ^ (4 + formatAt n) := by
      have := lt_formatAt_iff (f := formatAt n) (n := n)
      rw [Nat.add_comm]
      omega
    obtain ⟨htoken, hgetLength, hgetDisp⟩ := token_round (formatAt_le (by omega)) h3 hlength
      (show 1 ≤ chunk + n - matched by omega) (by omega)
    rw [length_cons] at hfuel
    change place a js + 2 ≤ endOfChunk at hin
    obtain ⟨fuel, rfl⟩ : ∃ k, fuel = k + 1 := ⟨fuel - 1, by omega⟩
    obtain ⟨out', hcopy, hrestored⟩ := copyBack_spec endOfOutput length (show 1 ≤ chunk + n - matched by omega)
      (by omega) (by omega)
      (fun i hi => by rw [show chunk + n - (chunk + n - matched) = matched by omega]; exact hmatch.agree i hi) hs.restored
    refine hdone (t := { s with
      format := formatAt n, out := out', inputPointer := s.inputPointer + 2, outputPointer := s.outputPointer + length })
        hks ?_ hlaid
      (by dsimp only; omega) (by rw [hinput]; rfl) hs.flagBit hs.flagByte (formatAt_mono (Nat.le_add_right n length)) hrestored
      fun s' hs' => ih (by simpa using hend) (by simpa using hlaid) hs' (by omega)
    rw [expandBody, if_pos (by omega), show s.outputPointer - target = n by omega,
      nextFormat_eq (by omega) hs.format (by omega), ok_bind, hs.flagByte, hs.flagBit, hflag, if_pos rfl, takeCopy]
    dsimp only
    rw [if_neg (by omega), hinput, retrieveUshort_eq hbytes (by omega) htoken, ok_bind, hgetLength, hgetDisp, if_neg (by omega),
      show (if endOfOutput ≤ s.outputPointer + length then endOfOutput - s.outputPointer else length) = length by
      split_ifs <;> omega, hout, hcopy, ok_bind]

/-- **A compressed chunk** gives its bytes back. -/
theorem lznt1DecompressChunk_spec {bs : List Byte} {compressedBuffer : ℕ}
    (hcoded : Coded B chunk endOfInput is (endOfInput - chunk))
    (hpayload : Payload is bs) (hlaid : Laid D.byte (compressedBuffer + 2) bs) (hn : chunk < endOfInput)
    (hend : endOfInput ≤ chunk + 4096)
    (hsize : compressedBuffer + 2 + bs.length ≤ D.size) (houtput : target + (endOfInput - chunk) ≤ endOfOutput) (out : ℕ → Byte) :
    ∃ out', lznt1DecompressChunk D target endOfOutput compressedBuffer (compressedBuffer + 2 + bs.length) out =
        .ok (some (endOfInput - chunk, out')) ∧ Restored B chunk target out (endOfInput - chunk) out' := by
  obtain ⟨hout, hplace⟩ := hpayload.laidOut hlaid
  have hle := hpayload.le_length
  have hsizes := hcoded.sizes
  have hpos := length_pos_of_ne_nil (hcoded.ne_nil (by omega))
  have hcodes := hcoded.codes .nil
  rw [append_nil] at hcodes
  have hstart : Expanded B D chunk target (compressedBuffer + 2) out [] 0
    ⟨target, compressedBuffer + 3, D.byte (compressedBuffer + 2), 0, 0, out⟩ :=
    ⟨rfl, rfl, rfl, rfl, Nat.zero_le _, fun i hi => by omega, fun _ _ => rfl⟩
  obtain ⟨s, hloop, hptr, hrestored⟩ := expandLoop_spec hcodes (by omega) hsize houtput hplace hout hstart
    (show is.length < compressedBuffer + 2 + bs.length - compressedBuffer + 1 by omega)
  refine ⟨s.out, ?_, hrestored⟩
  rw [lznt1DecompressChunk, fetch_of_lt (by omega), ok_bind, hloop, ok_bind]
  exact congrArg (fun n => Except.ok (some (n, s.out))) (by omega)

end Expand

end Nt365.Rtl.Lznt1
