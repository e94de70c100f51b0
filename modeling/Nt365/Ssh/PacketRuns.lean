import Nt365.Ssh.Packet

/-!
# Packets arrive intact

The bytes a connection has still to hand out are those in its buffer and those the transport will return
(`Conn.Holds`). A read takes the first of them, however the transport cuts them (`Conn.Holds.read`), so that a
transform reads back the packet that the same transform sealed under the same number (`Cipher.read_seal`). Two ends that
start with equal numbers and transforms, and switch to the same keys at the same packets, then stay in step
(`recvAll_sendAll`). What was not sealed may be read too: the padding length of a frame is not checked
(`rejects_iff`).
-/

namespace Nt365.Ssh

open Nt365.Library Nt365.Library.LuaString List

namespace Packet

/-! ### Reading an exact number of bytes -/

/-- The bytes that the connection has still to hand out. A transport returns an empty string only at its
end. -/
structure Conn.Holds (conn : Conn) (bytes : Bytes) : Prop where
  nonempty : ∀ chunk ∈ conn.incoming, chunk ≠ []
  eq : conn.rbuf ++ conn.incoming.flatten = bytes

theorem sub_split {rbuf tail a rest : Bytes} (h : rbuf ++ tail = a ++ rest) (hlen : a.length ≤ rbuf.length) :
    sub rbuf 1 a.length = a ∧ sub rbuf (a.length + 1) (-1) ++ tail = rest := by
  rw [sub_one, sub_to_end]
  have htake := congrArg (List.take a.length) h
  have hdrop := congrArg (List.drop a.length) h
  rw [take_append_of_le_length hlen, take_left] at htake
  rw [drop_append_of_le_length hlen, drop_left] at hdrop
  exact ⟨htake, hdrop⟩

theorem readFrom_holds (written : Bytes) (incoming : List Bytes) :
    ∀ {rbuf a rest : Bytes}, (∀ chunk ∈ incoming, chunk ≠ []) → rbuf ++ incoming.flatten = a ++ rest →
      ∃ conn', readFrom a.length written rbuf incoming = .ok (a, conn') ∧ conn'.Holds rest := by
  induction incoming with
  | nil =>
    intro rbuf a rest hne h
    have hlen : a.length ≤ rbuf.length := by
      have := congrArg List.length h
      simp at this
      omega
    obtain ⟨htake, hdrop⟩ := sub_split h hlen
    rw [readFrom, if_neg (Nat.not_lt.2 hlen), htake]
    exact ⟨_, rfl, hne, hdrop⟩
  | cons chunk incoming ih =>
    intro rbuf a rest hne h
    rw [readFrom]
    by_cases hlen : rbuf.length < a.length
    · rw [if_pos hlen, if_neg (hne chunk (mem_cons_self ..))]
      refine ih (fun c hc => hne c (mem_cons_of_mem _ hc)) ?_
      rw [append_assoc, ← flatten_cons]
      exact h
    · obtain ⟨htake, hdrop⟩ := sub_split h (Nat.not_lt.1 hlen)
      rw [if_neg hlen, htake]
      exact ⟨_, rfl, hne, hdrop⟩

theorem Conn.Holds.read {conn : Conn} {a rest : Bytes} {n : ℕ} (h : conn.Holds (a ++ rest)) (hn : a.length = n) :
    ∃ conn', conn.read n = .ok (a, conn') ∧ conn'.Holds rest := by
  subst hn
  exact readFrom_holds _ _ h.nonempty h.eq

/-! ### One packet -/

theorem padTo_spec (unpadded : ℕ) : 4 ≤ padTo unpadded 8 ∧ padTo unpadded 8 ≤ 11 ∧ 8 ∣ unpadded + padTo unpadded 8 := by
  unfold padTo
  dsimp only
  split <;> omega

theorem Cipher.padLen_bounds (cipher : Cipher) (n : ℕ) : 4 ≤ cipher.padLen n ∧ cipher.padLen n ≤ 11 := by
  cases cipher with
  | none => exact ⟨(padTo_spec _).1, (padTo_spec _).2.1⟩
  | chachaPoly k2 k1 => exact ⟨(padTo_spec _).1, (padTo_spec _).2.1⟩

/-- XOR with the same key stream twice. -/
@[simp] theorem Primitives.chacha20_chacha20 (P : Primitives) (data : Bytes) (key : Key) (n : Nonce)
    (counter : ℕ) : P.chacha20 (P.chacha20 data key n counter) key n counter = data := by
  refine ext_getElem (by simp) fun i h₁ h₂ => ?_
  simp only [chacha20, getElem_mapIdx, BitVec.xor_assoc, BitVec.xor_self, BitVec.xor_zero]

theorem readLength_u32 {n : ℕ} (h₁ : 1 ≤ n) (h₂ : n ≤ maxPacket) : readLength (Wire.u32 n) = .ok n := by
  have hmod : n % 2 ^ 32 = n := Nat.mod_eq_of_lt (by unfold maxPacket at h₂; omega)
  rw [readLength, ← append_nil (Wire.u32 n), Wire.readU32_append, hmod]
  exact if_neg (by omega)

theorem unpad_cons {padlen : Byte} {tail : Bytes} (h : padlen.toNat ≤ tail.length) :
    unpad (padlen :: tail).length (padlen :: tail) = .ok (tail.take (tail.length - padlen.toNat)) := by
  have hend : ((padlen :: tail).length : ℤ) - padlen.toNat = (1 + (tail.length - padlen.toNat) : ℕ) := by
    rw [length_cons]
    omega
  rw [unpad, hend, show (2 : ℤ) = (1 : ℕ) + 1 from rfl, sub_eq_take, drop_one, tail_cons, Nat.add_sub_cancel_left]

section

variable (P : Primitives)

variable (cipher : Cipher)

/-- What one who has the keys reads in a sealed packet, its tag apart. -/
def Cipher.plain (seq : ℕ) (wire : Bytes) : Bytes :=
  match cipher with
  | .none => wire
  | .chachaPoly k2 k1 =>
    P.chacha20 (wire.take 4) k1 (nonce seq) 0 ++
      P.chacha20 ((wire.drop 4).take (wire.length - 20)) k2 (nonce seq) 1

/-- How many bytes of the length field are in what is to be a multiple of the block size. -/
def Cipher.lengthCounted : Cipher → ℕ
  | .none => 4
  | .chachaPoly .. => 0

/-- The bytes of the padding. -/
def Cipher.padding (random : ℕ → Byte) (payload : Bytes) : Bytes :=
  match cipher with
  | .none => List.replicate (cipher.padLen payload.length) 0
  | .chachaPoly .. => (List.range (cipher.padLen payload.length)).map random

@[simp] theorem Cipher.length_padding (random : ℕ → Byte) (payload : Bytes) :
    (cipher.padding random payload).length = cipher.padLen payload.length := by
  cases cipher <;> simp [padding]

/-- The body before it is encrypted. -/
def Cipher.body (random : ℕ → Byte) (payload : Bytes) : Bytes :=
  Wire.u8 (cipher.padLen payload.length) ++ payload ++ cipher.padding random payload

theorem Cipher.length_body (random : ℕ → Byte) (payload : Bytes) :
    (cipher.body random payload).length = cipher.packetLength payload.length := by
  simp [body, packetLength, Wire.u8]
  omega

theorem Cipher.unpad_body (random : ℕ → Byte) (payload : Bytes) :
    unpad (cipher.body random payload).length (cipher.body random payload) = .ok payload := by
  have hpad : (BitVec.ofNat 8 (cipher.padLen payload.length)).toNat = (cipher.padding random payload).length := by
    have hle := (cipher.padLen_bounds payload.length).2
    rw [BitVec.toNat_ofNat, Nat.mod_eq_of_lt (by omega), length_padding]
  rw [body, Wire.u8, append_assoc, singleton_append, unpad_cons, hpad]
  · simp
  · simp [hpad]

/-- A body behind its length, as the transform sends it. -/
def Cipher.frame (seq : ℕ) (body : Bytes) : Bytes :=
  match cipher with
  | .none => Wire.u32 body.length ++ body
  | .chachaPoly k2 k1 =>
    let encLen := P.chacha20 (Wire.u32 body.length) k1 (nonce seq) 0
    let encBody := P.chacha20 body k2 (nonce seq) 1
    encLen ++ encBody ++ P.poly1305 (encLen ++ encBody) (polyKey P k2 (nonce seq))

theorem Cipher.seal_eq_frame (seq : ℕ) (random : ℕ → Byte) (payload : Bytes) :
    cipher.seal P seq random payload = cipher.frame P seq (cipher.body random payload) := by
  have hlen := cipher.length_body random payload
  cases cipher with
  | none =>
    rw [frame, hlen]
    simp [Cipher.seal, body, padding]
  | chachaPoly k2 k1 =>
    rw [frame, hlen]
    rfl

/-- A frame in the words of its length and its body. -/
theorem Cipher.plain_frame (seq : ℕ) (body : Bytes) :
    cipher.plain P seq (cipher.frame P seq body) = Wire.u32 body.length ++ body := by
  cases cipher with
  | none => rfl
  | chachaPoly k2 k1 =>
    rw [frame, plain]
    set encLen := P.chacha20 (Wire.u32 body.length) k1 (nonce seq) 0 with hencLen
    set encBody := P.chacha20 body k2 (nonce seq) 1 with hencBody
    have hlen : encLen.length = 4 := by simp [hencLen]
    rw [append_assoc, take_left' hlen, drop_left' hlen]
    have hbody : (encLen ++ (encBody ++ (P.poly1305 (encLen ++ encBody) (polyKey P k2 (nonce seq))).val)).length - 20 =
      encBody.length := by
      simp only [length_append, hlen, (P.poly1305 _ _).property]
      omega
    rw [hbody, take_left, hencLen, hencBody, P.chacha20_chacha20, P.chacha20_chacha20]

/-- The length that the transform aligns is a multiple of the block size. -/
theorem Cipher.dvd_packetLength (n : ℕ) : 8 ∣ cipher.lengthCounted + cipher.packetLength n := by
  cases cipher with
  | none =>
    have h := (padTo_spec (4 + 1 + n)).2.2
    simp only [lengthCounted, packetLength, padLen]
    omega
  | chachaPoly k2 k1 =>
    have h := (padTo_spec (1 + n)).2.2
    simp only [lengthCounted, packetLength, padLen]
    omega

variable {cipher : Cipher} {seq : ℕ} {payload rest : Bytes} {conn : Conn}

theorem Cipher.read_frame {body : Bytes} (hpos : 1 ≤ body.length) (hfit : body.length ≤ maxPacket)
    (hunpad : unpad body.length body = .ok payload)
    (h : conn.Holds (cipher.frame P seq body ++ rest)) :
    ∃ conn', cipher.read P seq conn = .ok (payload, conn') ∧ conn'.Holds rest := by
  have hlength := readLength_u32 hpos hfit
  cases cipher with
  | none =>
    rw [frame, append_assoc] at h
    obtain ⟨conn₁, hread₁, h₁⟩ := h.read (Wire.length_u32 _)
    obtain ⟨conn₂, hread₂, h₂⟩ := h₁.read rfl
    refine ⟨conn₂, ?_, h₂⟩
    rw [Cipher.read, hread₁, ok_bind]
    dsimp only
    rw [hlength, ok_bind, hread₂, ok_bind]
    dsimp only
    rw [hunpad, ok_bind]
  | chachaPoly k2 k1 =>
    rw [frame, append_assoc, append_assoc] at h
    obtain ⟨conn₁, hread₁, h₁⟩ := h.read (by rw [P.length_chacha20, Wire.length_u32])
    obtain ⟨conn₂, hread₂, h₂⟩ := h₁.read (by rw [P.length_chacha20])
    obtain ⟨conn₃, hread₃, h₃⟩ := h₂.read (n := 16) (P.poly1305 _ _).property
    refine ⟨conn₃, ?_, h₃⟩
    rw [Cipher.read, hread₁, ok_bind]
    dsimp only
    rw [P.chacha20_chacha20, hlength, ok_bind, hread₂, ok_bind]
    dsimp only
    rw [hread₃, ok_bind]
    dsimp only
    rw [if_neg (not_not.2 rfl), P.chacha20_chacha20, hunpad, ok_bind]

/-- A transform reads back what it sealed under the same number. -/
theorem Cipher.read_seal {random : ℕ → Byte} (hfit : cipher.packetLength payload.length ≤ maxPacket)
    (h : conn.Holds (cipher.seal P seq random payload ++ rest)) :
    ∃ conn', cipher.read P seq conn = .ok (payload, conn') ∧ conn'.Holds rest := by
  rw [seal_eq_frame] at h
  refine read_frame P ?_ ?_ (cipher.unpad_body random payload) h <;> rw [length_body]
  · unfold packetLength
    omega
  · exact hfit

/-! ### Two ends in step -/

/-- Every packet fits under the transform in force when it is sent, and every key has its size. -/
def Fits : Cipher → List Action → Prop
  | _, [] => True
  | cipher, .packet payload _ :: actions =>
    cipher.packetLength payload.length ≤ maxPacket ∧ Fits cipher actions
  | _, .newKeys key :: actions => ∃ cipher, cipolyNew key = .ok cipher ∧ Fits cipher actions

/-- The payloads that are sent. -/
def payloads : List Action → List Bytes
  | [] => []
  | .packet payload _ :: actions => payload :: payloads actions
  | .newKeys _ :: actions => payloads actions

/-- A receiver in step with a sender gets what the sender sends, and is in step with it afterwards. -/
theorem recvAll_sendAll (actions : List Action) :
    ∀ {s : Io}, Fits s.sendCipher actions → ∃ s' sent bytes,
      sendAll P actions s = .ok (s', sent) ∧ s'.xp.written = s.xp.written ++ bytes ∧
        sent.map Prod.snd = payloads actions ∧
        ∀ {r : Io} {rest : Bytes}, r.recvCipher = s.sendCipher → r.seqIn = s.seqOut →
          r.xp.Holds (bytes ++ rest) →
          ∃ r', recvAll P (actions.map Action.turn) r = .ok (r', sent) ∧ r'.xp.Holds rest ∧
            r'.seqIn = s'.seqOut := by
  induction actions with
  | nil =>
    intro s _
    exact ⟨s, [], [], rfl, (append_nil _).symm, rfl, fun _ hseq h => ⟨_, rfl, h, hseq⟩⟩
  | cons action actions ih =>
    intro s hfits
    cases action with
    | packet payload random =>
      obtain ⟨s', sent, bytes, hsend, hwritten, hpayloads, hrecv⟩ := ih (s := s.send P random payload) hfits.2
      refine ⟨s', (s.seqOut, payload) :: sent, s.sendCipher.seal P s.seqOut random payload ++ bytes,
        ?_, ?_, ?_, ?_⟩
      · rw [sendAll, hsend, ok_bind]
      · rw [hwritten, ← append_assoc]
        rfl
      · rw [map_cons, hpayloads, payloads]
      · intro r rest hcipher hseq h
        rw [append_assoc, ← hcipher, ← hseq] at h
        obtain ⟨conn, hread, hconn⟩ := Cipher.read_seal P (hcipher ▸ hfits.1) h
        obtain ⟨r', hr', hrest, hseq'⟩ := hrecv
          (r := { r with xp := conn, seqIn := nextSeq r.seqIn }) hcipher (congrArg nextSeq hseq) hconn
        refine ⟨r', ?_, hrest, hseq'⟩
        have hstep : r.recv P = .ok (payload, { r with xp := conn, seqIn := nextSeq r.seqIn }) := by
          rw [Io.recv, hread, ok_bind]
        rw [map_cons, Action.turn, recvAll, hstep, ok_bind]
        dsimp only
        rw [hr', ok_bind, hseq]
    | newKeys key =>
      obtain ⟨cipher, hcipher, hfits⟩ := hfits
      obtain ⟨s', sent, bytes, hsend, hwritten, hpayloads, hrecv⟩ := ih (s := { s with sendCipher := cipher }) hfits
      refine ⟨s', sent, bytes, ?_, hwritten, hpayloads, ?_⟩
      · rw [sendAll, hcipher, ok_bind, hsend]
      · intro r rest _ hseq h
        obtain ⟨r', hr', hrest, hseq'⟩ := hrecv (r := { r with recvCipher := cipher }) rfl hseq h
        refine ⟨r', ?_, hrest, hseq'⟩
        rw [map_cons, Action.turn, recvAll, hcipher, ok_bind, hr']

/-- What every sealed packet is to one who has the keys: a length, which the transform aligns, and a body with a
padding of 4 to 11 bytes. -/
def WellFramed (cipher : Cipher) (seq : ℕ) (payload wire : Bytes) : Prop :=
  ∃ padding : Bytes, 4 ≤ padding.length ∧ padding.length ≤ 11 ∧
    8 ∣ cipher.lengthCounted + (1 + payload.length + padding.length) ∧
    cipher.plain P seq wire =
      Wire.u32 (1 + payload.length + padding.length) ++ (Wire.u8 padding.length ++ payload ++ padding)

theorem Cipher.wellFramed_seal (cipher : Cipher) (seq : ℕ) (random : ℕ → Byte) (payload : Bytes) :
    WellFramed P cipher seq payload (cipher.seal P seq random payload) := by
  have hbounds := cipher.padLen_bounds payload.length
  refine ⟨cipher.padding random payload, ?_, ?_, ?_, ?_⟩ <;> rw [length_padding]
  · exact hbounds.1
  · exact hbounds.2
  · exact cipher.dvd_packetLength payload.length
  · rw [seal_eq_frame, plain_frame, length_body]
    rfl

/-- **Packets arrive intact.** A sender sends packets and switches to keys; a receiver makes the same switches at
the same packets. However the transport cuts the stream, the receiver gets exactly the payloads, under
the numbers they were sent with, and has consumed exactly the bytes that were sent. -/
theorem packets_arrive (actions : List Action) (hfits : Fits .none actions) (answers : List Bytes) :
    (∃ s sent, sendAll P actions (newIo answers) = .ok (s, sent) ∧ sent.map Prod.snd = payloads actions ∧
      ∀ chunks : List Bytes, (∀ chunk ∈ chunks, chunk ≠ []) → ∀ rest, chunks.flatten = s.xp.written ++ rest →
        ∃ r, recvAll P (actions.map Action.turn) (newIo chunks) = .ok (r, sent) ∧
          r.xp.rbuf ++ r.xp.incoming.flatten = rest ∧ r.seqIn = s.seqOut) ∧
    ∀ cipher seq random payload, WellFramed P cipher seq payload (cipher.seal P seq random payload) := by
  refine ⟨?_, fun cipher seq random payload => cipher.wellFramed_seal P seq random payload⟩
  obtain ⟨s, sent, bytes, hsend, hwritten, hpayloads, hrecv⟩ := recvAll_sendAll P actions (s := newIo answers) hfits
  refine ⟨s, sent, hsend, hpayloads, fun chunks hne rest hchunks => ?_⟩
  have hholds : (newIo chunks).xp.Holds (bytes ++ rest) := ⟨hne, by rw [hwritten] at hchunks; exact hchunks⟩
  obtain ⟨r, hr, hrest, hseq⟩ := hrecv rfl rfl hholds
  exact ⟨r, hr, hrest.eq, hseq⟩

/-! ### Malformed frames -/

theorem readFrom_short {n : ℕ} {written : Bytes} (incoming : List Bytes) {rbuf : Bytes}
    (h : (rbuf ++ incoming.flatten).length < n) : readFrom n written rbuf incoming = .error .closedByPeer := by
  induction incoming generalizing rbuf with
  | nil => exact if_pos (by simpa using h)
  | cons chunk incoming ih =>
    rw [flatten_cons, ← append_assoc] at h
    rw [readFrom, ih h, ite_self, if_pos]
    simp only [length_append] at h
    omega

theorem Conn.Holds.of_read {bytes a : Bytes} {n : ℕ} {conn' : Conn} (h : conn.Holds bytes) (hread : conn.read n = .ok (a, conn')) :
    ∃ rest, bytes = a ++ rest ∧ a.length = n ∧ conn'.Holds rest := by
  rcases Nat.lt_or_ge bytes.length n with hlt | hle
  · rw [Conn.read, readFrom_short _ (h.eq ▸ hlt)] at hread
    cases hread
  · rw [← take_append_drop n bytes] at h
    obtain ⟨conn'', heq, hrest⟩ := h.read (length_take_of_le hle)
    rw [hread] at heq
    obtain ⟨rfl, rfl⟩ := Prod.mk.inj (Except.ok.inj heq)
    exact ⟨_, (take_append_drop n bytes).symm, length_take_of_le hle, hrest⟩

theorem readLength_eq_ok {field : Bytes} {n : ℕ} (hfield : field.length = 4) (h : readLength field = .ok n) :
    field = Wire.u32 n ∧ n ≤ maxPacket := by
  rw [readLength] at h
  cases hn : Wire.readU32 field with
  | error e => rw [hn] at h; cases h
  | ok r =>
    obtain ⟨m, rest⟩ := r
    obtain ⟨rfl, -⟩ := Wire.readU32_eq_ok hn
    rw [hn] at h
    dsimp only at h
    split_ifs at h with hbad
    obtain rfl := Except.ok.inj h
    rw [length_append, Wire.length_u32, Nat.add_eq_left, length_eq_zero_iff] at hfield
    rw [hfield, append_nil]
    exact ⟨rfl, by omega⟩

theorem Cipher.read_eq_ok {bytes : Bytes} {conn' : Conn} (h : conn.Holds bytes)
    (hread : cipher.read P seq conn = .ok (payload, conn')) :
    ∃ body rest, bytes = cipher.frame P seq body ++ rest ∧ body.length ≤ maxPacket ∧ unpad body.length body = .ok payload ∧
      conn'.Holds rest := by
  cases cipher with
  | none =>
    obtain ⟨⟨field, conn₁⟩, h₁, hread⟩ := exists_of_bind_eq_ok hread
    obtain ⟨n, hn, hread⟩ := exists_of_bind_eq_ok hread
    obtain ⟨⟨body, conn₂⟩, h₂, hread⟩ := exists_of_bind_eq_ok hread
    obtain ⟨p, hp, hread⟩ := exists_of_bind_eq_ok hread
    obtain ⟨rfl, rfl⟩ := Prod.mk.inj (Except.ok.inj hread)
    obtain ⟨rest₁, rfl, hfield, hrest₁⟩ := h.of_read h₁
    obtain ⟨rest₂, rfl, rfl, hrest₂⟩ := hrest₁.of_read h₂
    obtain ⟨rfl, hle⟩ := readLength_eq_ok hfield hn
    exact ⟨body, rest₂, by rw [frame, append_assoc], hle, hp, hrest₂⟩
  | chachaPoly k2 k1 =>
    obtain ⟨⟨encLen, conn₁⟩, h₁, hread⟩ := exists_of_bind_eq_ok hread
    obtain ⟨n, hn, hread⟩ := exists_of_bind_eq_ok hread
    obtain ⟨⟨encBody, conn₂⟩, h₂, hread⟩ := exists_of_bind_eq_ok hread
    obtain ⟨⟨tag, conn₃⟩, h₃, hread⟩ := exists_of_bind_eq_ok hread
    dsimp only at hread
    split_ifs at hread with htag
    obtain ⟨p, hp, hread⟩ := exists_of_bind_eq_ok hread
    obtain ⟨rfl, rfl⟩ := Prod.mk.inj (Except.ok.inj hread)
    obtain ⟨rest₁, rfl, hfield, hrest₁⟩ := h.of_read h₁
    obtain ⟨rest₂, rfl, rfl, hrest₂⟩ := hrest₁.of_read h₂
    obtain ⟨rest₃, rfl, -, hrest₃⟩ := hrest₂.of_read h₃
    obtain ⟨hlen, hle⟩ := readLength_eq_ok (by rw [P.length_chacha20, hfield]) hn
    refine ⟨P.chacha20 encBody k2 (nonce seq) 1, rest₃, ?_, by rwa [P.length_chacha20], by rwa [P.length_chacha20], hrest₃⟩
    rw [frame, P.length_chacha20, ← hlen, P.chacha20_chacha20, P.chacha20_chacha20, not_not.1 htag]
    simp only [append_assoc]

/-- **Malformed frames are rejected**: what is read is a frame with a padding of at least 4 bytes behind the payload, as
long as its first byte says. -/
def Rejects (cipher : Cipher) (seq : ℕ) (conn : Conn) (bytes : Bytes) : Prop :=
  ∀ payload conn', cipher.read P seq conn = .ok (payload, conn') → ∃ padding rest : Bytes, 4 ≤ padding.length ∧
    padding.length < 2 ^ 8 ∧
    bytes = cipher.frame P seq (Wire.u8 padding.length ++ payload ++ padding) ++ rest ∧ conn'.Holds rest

/-- Malformed frames are rejected exactly if the stream does not start with one: the padding length is never looked at. -/
theorem rejects_iff (cipher : Cipher) (seq : ℕ) (conn : Conn) (bytes : Bytes) (h : conn.Holds bytes) :
    Rejects P cipher seq conn bytes ↔ ∀ (padlen : Byte) (tail rest : Bytes), bytes = cipher.frame P seq (padlen :: tail) ++ rest →
      tail.length < maxPacket → 4 ≤ padlen.toNat ∧ padlen.toNat ≤ tail.length := by
  constructor
  · rintro hrejects padlen tail rest rfl hfit
    have hfit' : (padlen :: tail).length ≤ maxPacket := hfit
    obtain ⟨conn', hread, hrest⟩ := Cipher.read_frame P (by simp) hfit' rfl h
    obtain ⟨padding, rest', hfour, hbyte, heq, hrest'⟩ := hrejects _ _ hread
    rw [← hrest.eq, ← hrest'.eq, append_left_inj] at heq
    have hbody := congrArg (fun wire => (cipher.plain P seq wire).drop 4) heq
    simp only [Cipher.plain_frame, drop_left' (Wire.length_u32 _), Wire.u8, cons_append, nil_append, List.cons.injEq] at hbody
    have htail := congrArg List.length hbody.2
    rw [length_append] at htail
    rw [hbody.1, BitVec.toNat_ofNat, Nat.mod_eq_of_lt hbyte]
    omega
  · intro hpadded payload conn' hread
    obtain ⟨body, rest, heq, hfit, hunpad, hrest⟩ := Cipher.read_eq_ok P h hread
    cases body with
    | nil => cases hunpad
    | cons padlen tail =>
      obtain ⟨hfour, hroom⟩ := hpadded padlen tail rest heq hfit
      obtain rfl := Except.ok.inj ((unpad_cons hroom).symm.trans hunpad)
      have hlen : (tail.drop (tail.length - padlen.toNat)).length = padlen.toNat := by
        rw [length_drop]
        omega
      refine ⟨tail.drop (tail.length - padlen.toNat), rest, ?_, ?_, ?_, hrest⟩ <;> rw [hlen]
      · exact hfour
      · exact padlen.isLt
      · rw [heq, Wire.u8, BitVec.ofNat_toNat, BitVec.setWidth_eq, append_assoc, take_append_drop, singleton_append]

end

/-- A key stream of ones and a tag of zeros. -/
def flip : Primitives := ⟨fun _ _ _ _ => 255, fun _ _ => ⟨List.replicate 16 0, rfl⟩⟩

/-- A packet in clear and one under a key, cut into single bytes. -/
theorem packets_arrive_flip :
    let actions : List Action :=
      [.packet [21] fun _ => 0, .newKeys (List.replicate 64 1), .packet [5, 7] fun i => BitVec.ofNat 8 i]
    ∃ s sent, sendAll flip actions (newIo []) = .ok (s, sent) ∧ sent.map Prod.snd = [[21], [5, 7]] ∧
      ∃ r, recvAll flip (actions.map Action.turn) (newIo (s.xp.written.map fun b => [b])) = .ok (r, sent) ∧
        r.xp.rbuf ++ r.xp.incoming.flatten = [] ∧ r.seqIn = s.seqOut := by
  intro actions
  have hfits : Fits .none actions := ⟨by decide, _, rfl, by simp only [Cipher.packetLength]; decide, trivial⟩
  obtain ⟨⟨s, sent, hsend, hpayloads, hrecv⟩, -⟩ := packets_arrive flip actions hfits []
  refine ⟨s, sent, hsend, hpayloads, hrecv _ (by simp) [] ?_⟩
  induction s.xp.written with
  | nil => rfl
  | cons b bs ih => simpa using ih

/-- A payload of one byte before ten bytes of padding, in two pieces. -/
theorem rejects_iff_padded :
    let bytes : Bytes := [0, 0, 0, 12, 10, 65] ++ List.replicate 10 0
    let conn : Conn := ⟨[], [bytes.take 7, bytes.drop 7], []⟩
    (∃ conn', Cipher.none.read flip 0 conn = .ok ([65], conn')) ∧ Rejects flip .none 0 conn bytes := by
  intro bytes conn
  let body : Bytes := [10, 65] ++ List.replicate 10 0
  have hholds : conn.Holds bytes := ⟨by decide, by decide⟩
  have hframe : conn.Holds (Cipher.none.frame flip 0 body ++ []) := ⟨by decide, by decide⟩
  have hunpad : unpad body.length body = .ok [65] := rfl
  obtain ⟨conn', hread, -⟩ := Cipher.read_frame flip (by decide) (by decide) hunpad hframe
  refine ⟨⟨conn', hread⟩, (rejects_iff flip .none 0 conn bytes hholds).mpr fun padlen tail rest h hfit => ?_⟩
  have hfield := congrArg Wire.readU32 h
  rw [Cipher.frame, append_assoc, Wire.readU32_append] at hfield
  obtain ⟨hlength, hbody⟩ := Prod.mk.inj (Except.ok.inj hfield)
  obtain ⟨rfl, -⟩ := List.cons.inj hbody
  have hlength : 12 = (tail.length + 1) % 2 ^ 32 := hlength
  unfold maxPacket at hfit
  exact ⟨by decide, show 10 ≤ tail.length by omega⟩

/-- A padding of three bytes behind a body of two: Lua counts the end of the payload from the end of the body. -/
def overpadded : Bytes := [0, 0, 0, 2, 3, 65]

theorem not_rejects_overpadded : ¬ Rejects flip .none 0 ⟨overpadded, [], []⟩ overpadded := by
  intro h
  have hholds : Conn.Holds ⟨overpadded, [], []⟩ (Cipher.none.frame flip 0 [3, 65] ++ []) := ⟨by simp, by decide⟩
  obtain ⟨conn', hread, -⟩ := Cipher.read_frame flip (by decide) (by decide)
    (show unpad (length [3, 65]) [3, 65] = .ok [65] from rfl) hholds
  obtain ⟨padding, rest, hfour, -, heq, -⟩ := h _ _ hread
  have hlen := congrArg List.length heq
  simp [Cipher.frame, overpadded, Wire.u8] at hlen
  omega

end Packet

end Nt365.Ssh
