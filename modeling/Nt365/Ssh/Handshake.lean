import Nt365.Ssh.UserAuth

/-!
# The server's handshake

`handshake` (`ssh.conn`) takes a connection from the exchange of keys over the authentication of the user to the opening
of a session channel, and then calls the session. The key exchange is that of `ssh.kex`.

## The model

`handshake` maps the payloads that `recv` returns, after which it raises an error, to the events of the run: what was
received and sent, what `opts.authorize` was asked and answered, the start of the session, and the end
of the task. The cryptographic functions are parameters, and so are the random bytes and the client's version line.
`opts.authorize` may answer as it likes, so it is also given the number of requests that are still allowed.
-/

namespace Nt365.Ssh

open Nt365.Library

namespace Handshake

open Wire UserAuth

/-- The functions of `ssh.crypto` that the handshake calls. -/
structure Crypto where
  sha256 : Bytes → { hash : Bytes // hash.length = 32 }
  -- `none` for `x25519 failed`
  x25519 : Bytes → Bytes → Option Bytes
  ed25519Sign : Bytes → Bytes → Bytes → Bytes
  ed25519Verify : Bytes → Bytes → Bytes → Bool

/-- What `opts.authorize` is asked. -/
structure AuthContext where
  user : Bytes
  service : Bytes
  method : Bytes
  pkAlg : Bytes
  pkBlob : Bytes
deriving DecidableEq

/-- The options of `serve`. -/
structure Options where
  versionId : Bytes
  hostkeySeed : Bytes
  hostkeyPub : Bytes
  -- `none` when it raises an error
  authorize : ℕ → AuthContext → Option Bool

/-- The random bytes that the handshake draws. -/
structure Draws where
  cookie : Bytes
  scalar : Bytes

/-- What the session is handed. -/
structure Session where
  user : Bytes
  exec : Option Bytes
  pty : Bool
  peerCh : ℕ
  peerWindow : ℕ
  peerMaxpkt : ℕ
deriving DecidableEq

/-- How the task ends. -/
inductive Stop where
  -- `recv` raises an error
  | noPacket
  | wire (error : ReadError)
  | userauth (error : ParseError)
  -- an assertion, with its text
  | assertion (message : String)
  | x25519Failed
  | authorizeRaised
  -- a return, with what was logged
  | returned (message : String)
deriving DecidableEq

inductive Event where
  | received (payload : Bytes)
  | sent (payload : Bytes)
  -- the exchange hash becomes the session identifier
  | keyed (sessionId : Bytes)
  | authorized (context : AuthContext) (answer : Bool)
  | session (s : Session)
  | stopped (reason : Stop)
deriving DecidableEq

def msgServiceRequest : ℕ := 5
def msgServiceAccept : ℕ := 6
def msgKexinit : ℕ := 20
def msgNewkeys : ℕ := 21
def msgKexEcdhInit : ℕ := 30
def msgKexEcdhReply : ℕ := 31
def msgChannelOpen : ℕ := 90
def msgChannelOpenConfirmation : ℕ := 91
def msgChannelOpenFailure : ℕ := 92
def msgChannelRequest : ℕ := 98
def msgChannelSuccess : ℕ := 99
def msgChannelFailure : ℕ := 100

/-- Go on with a result, or end with the error that was raised. -/
def attempt {α : Type} (x : Except Stop α) (k : α → List Event) : List Event :=
  match x with
  | .error reason => [.stopped reason]
  | .ok a => k a

/-- Go on with the next payload. -/
def receive (packets : List Bytes) (k : Bytes → List Bytes → List Event) : List Event :=
  match packets with
  | [] => [.stopped .noPacket]
  | payload :: packets => .received payload :: k payload packets

/-- A read of the wire in the handshake. -/
def fromWire {α : Type} : Except ReadError α → Except Stop α
  | .error e => .error (.wire e)
  | .ok a => .ok a

/-! ### The key exchange -/

def algoKex : List Bytes := [ascii "curve25519-sha256", ascii "curve25519-sha256@libssh.org"]
def algoHostKey : List Bytes := [ascii "ssh-ed25519"]
def algoCipher : List Bytes := [ascii "chacha20-poly1305@openssh.com"]
def algoMac : List Bytes := [ascii "hmac-sha2-256"]
def algoCompression : List Bytes := [ascii "none"]

def buildKexinit (cookie : Bytes) : Bytes :=
  u8 msgKexinit ++ (cookie ++ namelist algoKex ++ namelist algoHostKey ++ namelist algoCipher ++ namelist algoCipher ++
    namelist algoMac ++ namelist algoMac ++ namelist algoCompression ++ namelist algoCompression ++ namelist [] ++
    namelist [] ++ boolean false ++ Wire.u32 0)

/-- The lists of `parse_kexinit` that the handshake looks at. -/
structure Kexinit where
  kex : List Bytes
  hostKey : List Bytes

def skipNamelists : ℕ → Bytes → Except ReadError Bytes
  | 0, r => .ok r
  | n + 1, r => do
    let (_, r) ← readNamelist r
    skipNamelists n r

variable (payload : Bytes)

/-- `parse_kexinit`; all of the message is read. -/
def parseKexinit : Except Stop Kexinit := do
  let (msg, r) ← fromWire (readU8 payload)
  if msg ≠ msgKexinit then .error (.assertion "ssh.kex: not a KEXINIT")
  else do
    let (_, r) ← fromWire (readBytes 16 r)
    let (kex, r) ← fromWire (readNamelist r)
    let (hostKey, r) ← fromWire (readNamelist r)
    let r ← fromWire (skipNamelists 8 r)
    let (_, r) ← fromWire (readBoolean r)
    let (_, _) ← fromWire (readU32 r)
    .ok ⟨kex, hostKey⟩

/-- `pick`: the first of the client's names that the server has too. -/
def pick (client server : List Bytes) : Option Bytes := client.find? (· ∈ server)

/-- Both messages name the suite. -/
def negotiate (clientInit serverInit : Bytes) : Except Stop Unit := do
  let client ← parseKexinit clientInit
  let server ← parseKexinit serverInit
  if pick client.kex server.kex ≠ some (ascii "curve25519-sha256") then
    .error (.assertion "kex not curve25519-sha256")
  else if pick client.hostKey server.hostKey ≠ some (ascii "ssh-ed25519") then
    .error (.assertion "host key not ssh-ed25519")
  else .ok ()

/-- `ed25519_hostkey_blob` and `ed25519_sig_blob`. -/
def ed25519Blob (s : Bytes) : Bytes := string (ascii "ssh-ed25519") ++ string s

/-- The client's ephemeral key. -/
def parseEcdhInit : Except Stop Bytes := do
  let (msg, r) ← fromWire (readU8 payload)
  if msg ≠ msgKexEcdhInit then .error (.assertion "expected KEX_ECDH_INIT")
  else do
    let (qc, _) ← fromWire (readString r)
    if qc.length ≠ 32 then .error (.assertion "Q_C must be 32 bytes") else .ok qc

/-- `crypto.X25519_BASE`. -/
def x25519Base : Bytes := 9 :: List.replicate 31 0

variable (crypto : Crypto)

/-- `crypto.x25519`. -/
def x25519 (scalar point : Bytes) : Except Stop Bytes :=
  match crypto.x25519 scalar point with
  | none => .error .x25519Failed
  | some out => .ok out

/-- The server's ephemeral key and the shared secret. -/
def sharedSecret (scalar qc : Bytes) : Except Stop (Bytes × Bytes) := do
  let qs ← x25519 crypto scalar x25519Base
  let k ← x25519 crypto scalar qc
  .ok (qs, k)

/-- `exchange_hash`. -/
def exchangeHash (vc vs ic is ks qc qs k : Bytes) : { hash : Bytes // hash.length = 32 } :=
  crypto.sha256 (string vc ++ string vs ++ string ic ++ string is ++ string ks ++ string qc ++ string qs ++ mpint k)

/-- A message that is only looked at for its number. -/
def expectMsg (msg : ℕ) (message : String) (payload : Bytes) : Except Stop Bytes := do
  let (m, r) ← fromWire (readU8 payload)
  if m ≠ msg then .error (.assertion message) else .ok r

/-! ### The session channel -/

def openConfirm (peerCh ourCh window maxpkt : ℕ) : Bytes :=
  u8 msgChannelOpenConfirmation ++ Wire.u32 peerCh ++ Wire.u32 ourCh ++ Wire.u32 window ++ Wire.u32 maxpkt

variable (peerCh : ℕ)

def openFailure : Bytes :=
  u8 msgChannelOpenFailure ++ (Wire.u32 peerCh ++ Wire.u32 3 ++ string (ascii "unknown channel type") ++ string [])

def reqSuccess : Bytes := u8 msgChannelSuccess ++ Wire.u32 peerCh

def reqFailure : Bytes := u8 msgChannelFailure ++ Wire.u32 peerCh

def ourWin : ℕ := 1024 * 1024
def ourMaxpkt : ℕ := 32768

/-- The kinds of channel requests. -/
inductive RequestKind where
  | shell
  | exec (command : Bytes)
  | ptyReq
  | env
  | other

/-- The kind of a request, with the command that `exec` reads. -/
def requestKind (rtype r : Bytes) : Except ReadError RequestKind :=
  if rtype = ascii "shell" then .ok .shell
  else if rtype = ascii "exec" then do
    let (command, _) ← readString r
    .ok (.exec command)
  else if rtype = ascii "pty-req" then .ok .ptyReq
  else if rtype = ascii "env" then .ok .env
  else .ok .other

/-- A channel request: its kind and whether a reply is wanted. -/
def parseChannelRequest : Except Stop (RequestKind × Bool) := do
  let (msg, r) ← fromWire (readU8 payload)
  if msg ≠ msgChannelRequest then .error (.returned "expected CHANNEL_REQUEST")
  else do
    let (_, r) ← fromWire (readU32 r)
    let (rtype, r) ← fromWire (readString r)
    let (wantReply, r) ← fromWire (readBoolean r)
    let kind ← fromWire (requestKind rtype r)
    .ok (kind, wantReply)

/-- What the opening of a channel asks for: its type, the peer's number for it, its window and its largest packet. -/
def parseChannelOpen : Except Stop (Bytes × ℕ × ℕ × ℕ) := do
  let (msg, r) ← fromWire (readU8 payload)
  if msg ≠ msgChannelOpen then .error (.returned "expected CHANNEL_OPEN")
  else do
    let (ctype, r) ← fromWire (readString r)
    let (peerCh, r) ← fromWire (readU32 r)
    let (peerWin, r) ← fromWire (readU32 r)
    let (peerMaxpkt, _) ← fromWire (readU32 r)
    .ok (ctype, peerCh, peerWin, peerMaxpkt)

def reply (wanted : Bool) (payload : Bytes) : List Event := if wanted then [.sent payload] else []

/-- The loop over channel requests, until one starts the session. -/
def channelRequests (s : Session) : List Bytes → List Event
  | [] => [.stopped .noPacket]
  | payload :: packets =>
    .received payload :: attempt (parseChannelRequest payload) fun (kind, wantReply) =>
      match kind with
      | .shell => reply wantReply (reqSuccess s.peerCh) ++ [.session s]
      | .exec command => reply wantReply (reqSuccess s.peerCh) ++ [.session { s with exec := some command }]
      | .ptyReq => reply wantReply (reqSuccess s.peerCh) ++ channelRequests { s with pty := true } packets
      | .env => reply wantReply (reqSuccess s.peerCh) ++ channelRequests s packets
      | .other => reply wantReply (reqFailure s.peerCh) ++ channelRequests s packets

/-- Step 13: the session channel. -/
def openChannel (user : Bytes) (packets : List Bytes) : List Event :=
  receive packets fun payload packets =>
    attempt (parseChannelOpen payload) fun (ctype, peerCh, peerWin, peerMaxpkt) =>
      if ctype ≠ ascii "session" then
        [.sent (openFailure peerCh), .stopped (.returned "rejected channel")]
      else
        .sent (openConfirm peerCh 0 ourWin ourMaxpkt) ::
          channelRequests ⟨user, none, false, peerCh, peerWin, peerMaxpkt⟩ packets

/-! ### Authentication -/

/-- A request in the handshake. -/
def fromUserauth {α : Type} : Except ParseError α → Except Stop α
  | .error e => .error (.userauth e)
  | .ok a => .ok a

def failure : Event := .sent (buildFailure [ascii "publickey"] false)

/-- What `opts.authorize` is asked about a request. -/
def Request.context (req : Request) : AuthContext :=
  ⟨req.user, req.service, req.method, req.pkAlg.getD [], req.pkBlob.getD []⟩

section

variable (crypto : Crypto) (opts : Options) (sessionId : Bytes)

/-- Step 12: the loop over authentication requests, with as many of them as are still allowed. -/
def authenticate : ℕ → List Bytes → List Event
  | 0, _ => [.stopped (.returned "")]
  | n + 1, packets =>
    receive packets fun payload packets =>
      if payload.head? ≠ some (BitVec.ofNat 8 msgUserauthRequest) then
        [.stopped (.returned "userauth: unexpected msg")]
      else attempt (fromUserauth (parseRequest payload)) fun req =>
        if req.method = ascii "publickey" ∧ req.pkAlg = some (ascii "ssh-ed25519") then
          if req.haveSig ≠ some true then
            .sent (buildPkOk (req.pkAlg.getD []) (req.pkBlob.getD [])) :: authenticate n packets
          else if verifyEd25519 crypto.ed25519Verify req sessionId then
            match opts.authorize n (Request.context req) with
            | none => [.stopped .authorizeRaised]
            | some true =>
              .authorized (Request.context req) true :: .sent buildSuccess :: openChannel req.user packets
            | some false =>
              .authorized (Request.context req) false :: failure :: authenticate n packets
          else failure :: authenticate n packets
        else failure :: authenticate n packets

end

/-- Step 11: the service. -/
def requestService (opts : Options) (sessionId : Bytes) (packets : List Bytes) : List Event :=
  receive packets fun payload packets =>
    attempt (expectMsg msgServiceRequest "expected SERVICE_REQUEST" payload) fun r =>
      attempt (fromWire (readString r)) fun (svc, _) =>
        .sent (u8 msgServiceAccept ++ string svc) :: authenticate crypto opts sessionId 20 packets

/-- Steps 3 to 10: the ephemeral keys, the exchange hash and the new keys. -/
def exchangeKeys (opts : Options) (draws : Draws) (vc ic is : Bytes) (packets : List Bytes) : List Event :=
  receive packets fun payload packets =>
    attempt (parseEcdhInit payload) fun qc =>
      attempt (sharedSecret crypto draws.scalar qc) fun (qs, k) =>
        let ks := ed25519Blob opts.hostkeyPub
        let hash := exchangeHash crypto vc opts.versionId ic is ks qc qs k
        let sig := crypto.ed25519Sign hash opts.hostkeySeed opts.hostkeyPub
        .sent (u8 msgKexEcdhReply ++ (string ks ++ string qs ++ string (ed25519Blob sig))) ::
          .sent (u8 msgNewkeys) ::
            receive packets fun payload packets =>
              attempt (expectMsg msgNewkeys "expected client NEWKEYS" payload) fun _ =>
                .keyed hash :: requestService crypto opts hash packets

/-- `handshake`, from step 2 on. -/
def handshake (opts : Options) (draws : Draws) (vc : Bytes) (packets : List Bytes) : List Event :=
  let is := buildKexinit draws.cookie
  .sent is :: receive packets fun ic packets =>
    attempt (negotiate ic is) fun _ => exchangeKeys crypto opts draws vc ic is packets

end Handshake

end Nt365.Ssh
