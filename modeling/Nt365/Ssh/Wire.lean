import Mathlib.Data.BitVec
import Nt365.Library.Loop
import Nt365.Library.LuaString

/-!
# The SSH wire types

`ssh.wire` writes and reads the types that SSH packets are made of: a byte, a boolean, a big-endian 32-bit
number, and a string with its length before it. A reader takes exactly what a writer wrote
(`readU32_append`, `readString_append`), and what a reader has taken is what a writer would write
(`readU32_eq_ok`, `readString_eq_ok`).

## The model

A Lua string is a list of bytes. A `Reader` holds a string and a position; only the bytes from the position on are
ever looked at, and they are the state of a reader here.
-/

namespace Nt365.Ssh

open Nt365.Library

abbrev Byte := BitVec 8

abbrev Bytes := List Byte

namespace Wire

/-! ### Writing -/

variable (n : ℕ)

def u8 : Bytes := [BitVec.ofNat 8 n]

def boolean (b : Bool) : Bytes := [if b then 1 else 0]

def u32 : Bytes :=
  [BitVec.ofNat 8 (n / 2 ^ 24), BitVec.ofNat 8 (n / 2 ^ 16), BitVec.ofNat 8 (n / 2 ^ 8), BitVec.ofNat 8 n]

def string (s : Bytes) : Bytes := u32 s.length ++ s

/-- `mpint` of a magnitude: no leading zeros, and one if the sign bit would be set. -/
def mpint (raw : Bytes) : Bytes :=
  match raw.dropWhile (· = 0) with
  | [] => u32 0
  | b :: rest => if b &&& 0x80 ≠ 0 then string (0 :: b :: rest) else string (b :: rest)

/-- `namelist`: the names with commas between them. -/
def namelist (names : List Bytes) : Bytes := string (List.intercalate [44] names)

/-- The bytes of a literal of the source. -/
def ascii (s : String) : Bytes := s.toList.map fun c => BitVec.ofNat 8 c.toNat

@[simp] theorem length_u32 : (u32 n).length = 4 := rfl

/-! ### Reading -/

/-- The errors of a reader. -/
inductive ReadError where
  -- `short read (n bytes)`
  | shortBytes (n : ℕ)
  -- `short read (u8)`
  | shortU8
  -- `short read (u32)`
  | shortU32
deriving DecidableEq

/-- `Reader:u8`. -/
def readU8 : Bytes → Except ReadError (ℕ × Bytes)
  | [] => .error .shortU8
  | b :: rest => .ok (b.toNat, rest)

/-- `Reader:boolean`. -/
def readBoolean (r : Bytes) : Except ReadError (Bool × Bytes) := do
  let (b, r) ← readU8 r
  .ok (b ≠ 0, r)

/-- `Reader:u32`. -/
def readU32 : Bytes → Except ReadError (ℕ × Bytes)
  | a :: b :: c :: d :: rest => .ok (a.toNat * 2 ^ 24 + b.toNat * 2 ^ 16 + c.toNat * 2 ^ 8 + d.toNat, rest)
  | _ => .error .shortU32

/-- `Reader:bytes`. -/
def readBytes (r : Bytes) : Except ReadError (Bytes × Bytes) :=
  if r.length < n then .error (.shortBytes n) else .ok (r.take n, r.drop n)

/-- `Reader:string`. -/
def readString (r : Bytes) : Except ReadError (Bytes × Bytes) := do
  let (n, r) ← readU32 r
  readBytes n r

/-- `Reader:namelist`. -/
def readNamelist (r : Bytes) : Except ReadError (List Bytes × Bytes) := do
  let (s, r) ← readString r
  .ok (if s = [] then [] else s.splitOn 44, r)

/-! ### A reader takes what was written -/

theorem readU32_append (rest : Bytes) : readU32 (u32 n ++ rest) = .ok (n % 2 ^ 32, rest) := by
  simp only [u32, List.cons_append, List.nil_append, readU32, BitVec.toNat_ofNat]
  congr 2
  omega

theorem readBytes_append (s rest : Bytes) : readBytes s.length (s ++ rest) = .ok (s, rest) := by
  simp [readBytes]

theorem readString_append {s : Bytes} (hs : s.length < 2 ^ 32) (rest : Bytes) : readString (string s ++ rest) = .ok (s, rest) := by
  rw [readString, string, List.append_assoc, readU32_append, ok_bind, Nat.mod_eq_of_lt hs]
  exact readBytes_append s rest

/-- A string can be told from what follows it. -/
theorem string_append_inj {s t x y : Bytes} (hs : s.length < 2 ^ 32) (ht : t.length < 2 ^ 32)
    (h : string s ++ x = string t ++ y) : s = t ∧ x = y := by
  have hread := readString_append hs x
  rw [h, readString_append ht y] at hread
  obtain ⟨rfl, rfl⟩ := Prod.mk.inj (Except.ok.inj hread)
  exact ⟨rfl, rfl⟩

/-! ### A writer would write what was taken -/

theorem readU8_eq_ok {r rest : Bytes} {n : ℕ} (h : readU8 r = .ok (n, rest)) : r = u8 n ++ rest ∧ n < 2 ^ 8 := by
  cases r with
  | nil => cases h
  | cons b r =>
    obtain ⟨rfl, rfl⟩ := Prod.mk.inj (Except.ok.inj h)
    exact ⟨by simp [u8], b.isLt⟩

theorem readBoolean_eq_ok {r rest : Bytes} {b : Bool} (h : readBoolean r = .ok (b, rest)) :
    ∃ byte : Byte, r = byte :: rest ∧ (b = true ↔ byte ≠ 0) := by
  cases r with
  | nil => cases h
  | cons byte r =>
    obtain ⟨rfl, rfl⟩ := Prod.mk.inj (Except.ok.inj h)
    refine ⟨byte, rfl, ?_⟩
    rw [decide_eq_true_iff]
    exact not_congr ⟨fun h => BitVec.eq_of_toNat_eq h, fun h => by rw [h]; rfl⟩

theorem readU32_eq_ok {r rest : Bytes} {n : ℕ} (h : readU32 r = .ok (n, rest)) : r = u32 n ++ rest ∧ n < 2 ^ 32 := by
  match r, h with
  | a :: b :: c :: d :: r, h =>
    obtain ⟨rfl, rfl⟩ := Prod.mk.inj (Except.ok.inj h)
    have ha := a.isLt
    have hb := b.isLt
    have hc := c.isLt
    have hd := d.isLt
    refine ⟨?_, by omega⟩
    simp only [u32, List.cons_append, List.nil_append, List.cons.injEq, and_true]
    refine ⟨?_, ?_, ?_, ?_⟩ <;> apply BitVec.eq_of_toNat_eq <;> rw [BitVec.toNat_ofNat] <;> omega

theorem readBytes_eq_ok {r s rest : Bytes} {n : ℕ} (h : readBytes n r = .ok (s, rest)) : r = s ++ rest ∧ s.length = n := by
  rw [readBytes] at h
  split at h
  · cases h
  · obtain ⟨rfl, rfl⟩ := Prod.mk.inj (Except.ok.inj h)
    exact ⟨(List.take_append_drop n r).symm, List.length_take_of_le (by omega)⟩

theorem readString_eq_ok {r s rest : Bytes} (h : readString r = .ok (s, rest)) : r = string s ++ rest ∧ s.length < 2 ^ 32 := by
  rw [readString] at h
  cases hn : readU32 r with
  | error e => rw [hn] at h; cases h
  | ok p =>
    obtain ⟨n, r'⟩ := p
    rw [hn, ok_bind] at h
    obtain ⟨rfl, hlt⟩ := readU32_eq_ok hn
    obtain ⟨rfl, rfl⟩ := readBytes_eq_ok h
    exact ⟨by rw [string, List.append_assoc], hlt⟩

end Wire

end Nt365.Ssh
