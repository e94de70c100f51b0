import Nt365.Ssh.Wire

/-!
# The SSH binary packet protocol

A packet carries a payload with a padding, behind the length of both. Before the keys are exchanged it is sent as it
is (`ssh.packet`); after that its length and its body are each XORed with a ChaCha20 key stream and a
Poly1305 tag follows (`ssh.cipoly`). `io.send` and `io.recv` (`ssh.conn`) hold the transform in force in each
direction and the number of the next packet, and a `Conn` (`ssh.xport`) reads an exact number of bytes from a
transport that returns them in pieces of its own choice.

## The model

ChaCha20 is the XOR with a key stream, any function of the key, the nonce, the block counter and the position in the
block; Poly1305 is any function of the message and the key (`Primitives`). A transport is the list of what
its `read` returns, call by call, and then the end of the stream. The random padding of a packet is given
with it. Packet numbers are Lua numbers, so they stay at 2⁵³ once they get there.
-/

namespace Nt365.Ssh

open Nt365.Library Nt365.Library.LuaString

namespace Packet

/-- A key of ChaCha20 or of Poly1305; both functions insist on its size. -/
abbrev Key := { key : Bytes // key.length = 32 }

/-- A nonce of ChaCha20. -/
abbrev Nonce := { nonce : Bytes // nonce.length = 8 }

/-- What a tag is. -/
abbrev Tag := { tag : Bytes // tag.length = 16 }

/-- The primitives of `ssh.crypto`. -/
structure Primitives where
  -- by key, nonce, block counter and position in the block of 64 bytes
  keyStream : Key → Nonce → ℕ → Fin 64 → Byte
  poly1305 : Bytes → Key → Tag

/-- `crypto.chacha20`. -/
def Primitives.chacha20 (P : Primitives) (data : Bytes) (key : Key) (nonce : Nonce) (counter : ℕ) : Bytes :=
  data.mapIdx fun i b => b ^^^ P.keyStream key nonce (counter + i / 64) (Fin.ofNat 64 i)

@[simp] theorem Primitives.length_chacha20 (P : Primitives) (data : Bytes) (key : Key) (nonce : Nonce)
    (counter : ℕ) : (P.chacha20 data key nonce counter).length = data.length := by
  simp [chacha20]

/-- The errors that end a connection. -/
inductive Fault where
  -- `connection closed by peer`
  | closedByPeer
  -- `bad packet_length`
  | badPacketLength (packetLength : ℕ)
  -- `Poly1305 tag mismatch (MAC error)`
  | tagMismatch
  -- `chacha20-poly1305 key must be 64 bytes`
  | badKey
  -- `string.byte` of an empty body is `nil`
  | emptyBody
  | wire (error : Wire.ReadError)
deriving DecidableEq

/-! ### The transport -/

/-- `Conn`, with the transport under it: what its reads return and what was written to it. -/
structure Conn where
  rbuf : Bytes
  incoming : List Bytes
  written : Bytes

/-- `Conn:read` with its calls of `_fill`. -/
def readFrom (n : ℕ) (written : Bytes) : Bytes → List Bytes → Except Fault (Bytes × Conn)
  | rbuf, [] =>
    if rbuf.length < n then .error .closedByPeer
    else .ok (sub rbuf 1 n, ⟨sub rbuf (n + 1) (-1), [], written⟩)
  | rbuf, chunk :: incoming =>
    if rbuf.length < n then
      if chunk = [] then .error .closedByPeer else readFrom n written (rbuf ++ chunk) incoming
    else .ok (sub rbuf 1 n, ⟨sub rbuf (n + 1) (-1), chunk :: incoming, written⟩)

def Conn.read (n : ℕ) (conn : Conn) : Except Fault (Bytes × Conn) :=
  readFrom n conn.written conn.rbuf conn.incoming

def Conn.write (s : Bytes) (conn : Conn) : Conn :=
  { conn with written := conn.written ++ s }

/-! ### The two transforms -/

inductive Cipher where
  -- `packet.none`
  | none
  -- `cipoly.new`: the key of the body and the key of the length
  | chachaPoly (k2 k1 : Key)

def maxPacket : ℕ := 256 * 1024

/-- `cipoly.new`. -/
def cipolyNew (key : Bytes) : Except Fault Cipher :=
  if h : key.length = 64 then
    .ok (.chachaPoly
      ⟨sub key 1 32, by rw [show (32 : ℤ) = (32 : ℕ) from rfl, sub_one]; simp [h]⟩
      ⟨sub key 33 64, by
        rw [show (33 : ℤ) = (32 : ℕ) + 1 from rfl, show (64 : ℤ) = (64 : ℕ) from rfl, sub_eq_take]
        simp [h]⟩)
  else .error .badKey

/-- `nonce`. -/
def nonce (seq : ℕ) : Nonce := ⟨[0, 0, 0, 0] ++ Wire.u32 seq, rfl⟩

/-- Both `pad_len` functions, with what is to be a multiple of the block size. -/
def padTo (unpadded blockSize : ℕ) : ℕ :=
  let pad := blockSize - unpadded % blockSize
  if pad < 4 then pad + blockSize else pad

/-- `pad_len` of the transform. Only in clear does it count the length field. -/
def Cipher.padLen (cipher : Cipher) (payloadLen : ℕ) : ℕ :=
  match cipher with
  | .none => padTo (4 + 1 + payloadLen) 8
  | .chachaPoly .. => padTo (1 + payloadLen) 8

/-- The value of the length field. -/
def Cipher.packetLength (cipher : Cipher) (payloadLen : ℕ) : ℕ :=
  1 + payloadLen + cipher.padLen payloadLen

section

variable (P : Primitives)

def polyKey (k2 : Key) (n : Nonce) : Key :=
  ⟨P.chacha20 (List.replicate 32 0) k2 n 0, by simp⟩

/-- `seal`; `random` are the bytes that `rng.bytes` returns. -/
def Cipher.seal (cipher : Cipher) (seq : ℕ) (random : ℕ → Byte) (payload : Bytes) : Bytes :=
  let pad := cipher.padLen payload.length
  let packetLength := cipher.packetLength payload.length
  match cipher with
  | .none => Wire.u32 packetLength ++ Wire.u8 pad ++ payload ++ List.replicate pad 0
  | .chachaPoly k2 k1 =>
    let n := nonce seq
    let encLen := P.chacha20 (Wire.u32 packetLength) k1 n 0
    let body := Wire.u8 pad ++ payload ++ (List.range pad).map random
    let encBody := P.chacha20 body k2 n 1
    let tag := P.poly1305 (encLen ++ encBody) (polyKey P k2 n)
    encLen ++ encBody ++ tag

/-- The length field that was read. -/
def readLength (field : Bytes) : Except Fault ℕ :=
  match Wire.readU32 field with
  | .error e => .error (.wire e)
  | .ok (packetLength, _) =>
    if packetLength < 1 ∨ maxPacket < packetLength then .error (.badPacketLength packetLength)
    else .ok packetLength

/-- The payload of a body. -/
def unpad (packetLength : ℕ) (body : Bytes) : Except Fault Bytes :=
  match body with
  | [] => .error .emptyBody
  | padlen :: _ => .ok (sub body 2 ((packetLength : ℤ) - padlen.toNat))

/-- `read`. -/
def Cipher.read (cipher : Cipher) (seq : ℕ) (conn : Conn) : Except Fault (Bytes × Conn) :=
  match cipher with
  | .none => do
    let (field, conn) ← conn.read 4
    let packetLength ← readLength field
    let (body, conn) ← conn.read packetLength
    let payload ← unpad packetLength body
    .ok (payload, conn)
  | .chachaPoly k2 k1 => do
    let n := nonce seq
    let (encLen, conn) ← conn.read 4
    let packetLength ← readLength (P.chacha20 encLen k1 n 0)
    let (encBody, conn) ← conn.read packetLength
    let (tag, conn) ← conn.read 16
    -- `ct_eq` compares every byte
    if (P.poly1305 (encLen ++ encBody) (polyKey P k2 n)).val ≠ tag then .error .tagMismatch
    else do
      let payload ← unpad packetLength (P.chacha20 encBody k2 n 1)
      .ok (payload, conn)

/-! ### The two ends -/

/-- `new_io`. -/
structure Io where
  xp : Conn
  recvCipher : Cipher
  sendCipher : Cipher
  seqIn : ℕ
  seqOut : ℕ

def newIo (incoming : List Bytes) : Io := ⟨⟨[], incoming, []⟩, .none, .none, 0, 0⟩

/-- `seq + 1` on Lua numbers. -/
def nextSeq (seq : ℕ) : ℕ := if seq < 2 ^ 53 then seq + 1 else seq

/-- `io.recv`. -/
def Io.recv (io : Io) : Except Fault (Bytes × Io) := do
  let (payload, xp) ← io.recvCipher.read P io.seqIn io.xp
  .ok (payload, { io with xp := xp, seqIn := nextSeq io.seqIn })

/-- `io.send`. -/
def Io.send (random : ℕ → Byte) (payload : Bytes) (io : Io) : Io :=
  { io with
    xp := io.xp.write (io.sendCipher.seal P io.seqOut random payload)
    seqOut := nextSeq io.seqOut }

/-- What a sender does: a packet with its random padding, or the switch to a key. -/
inductive Action where
  | packet (payload : Bytes) (random : ℕ → Byte)
  | newKeys (key : Bytes)

/-- What a receiver does meanwhile. -/
inductive Turn where
  | recv
  | newKeys (key : Bytes)

def Action.turn : Action → Turn
  | .packet _ _ => .recv
  | .newKeys key => .newKeys key

/-- A packet as one end sees it: its number and its payload. -/
abbrev Seen := ℕ × Bytes

/-- The sender's run: its end afterwards and the packets it sent. -/
def sendAll : List Action → Io → Except Fault (Io × List Seen)
  | [], io => .ok (io, [])
  | .packet payload random :: actions, io => do
    let (io', sent) ← sendAll actions (io.send P random payload)
    .ok (io', (io.seqOut, payload) :: sent)
  | .newKeys key :: actions, io => do
    let cipher ← cipolyNew key
    sendAll actions { io with sendCipher := cipher }

/-- The receiver's run: its end afterwards and the packets it received. -/
def recvAll : List Turn → Io → Except Fault (Io × List Seen)
  | [], io => .ok (io, [])
  | .recv :: turns, io => do
    let (payload, io') ← io.recv P
    let (io'', received) ← recvAll turns io'
    .ok (io'', (io.seqIn, payload) :: received)
  | .newKeys key :: turns, io => do
    let cipher ← cipolyNew key
    recvAll turns { io with recvCipher := cipher }

end

end Packet

end Nt365.Ssh
