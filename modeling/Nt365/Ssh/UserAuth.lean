import Nt365.Ssh.Wire

/-!
# User authentication

`ssh.userauth` reads a `USERAUTH_REQUEST`, and for a public key it rebuilds from the fields it has read the data that
the client is to have signed. What is rebuilt is what was received: the session identifier, and the
request up to its key blob with the signature flag as 1 (`parseRequest_publickey`, `Accepted`). It tells the session
identifier, the user, the service and the key blob from one another (`Accepted.inj`).
-/

namespace Nt365.Ssh

open Nt365.Library

namespace UserAuth

open Wire

def msgUserauthRequest : ℕ := 50
def msgUserauthFailure : ℕ := 51
def msgUserauthSuccess : ℕ := 52
def msgUserauthPkOk : ℕ := 60

/-- What `parse_request` returns; a field that it does not set is `nil`. -/
structure Request where
  user : Bytes
  service : Bytes
  method : Bytes
  haveSig : Option Bool
  pkAlg : Option Bytes
  pkBlob : Option Bytes
  sig : Option Bytes
  change : Option Bool
  password : Option Bytes
deriving DecidableEq

inductive ParseError where
  -- `not a USERAUTH_REQUEST`
  | notRequest
  | wire (error : ReadError)
deriving DecidableEq

/-- A read of the wire in a function with other errors. -/
def wire {α : Type} : Except ReadError α → Except ParseError α
  | .error e => .error (.wire e)
  | .ok a => .ok a

/-- The fields of a public key request. -/
def parsePublickey (user service method r : Bytes) : Except ParseError Request := do
  let (haveSig, r) ← wire (readBoolean r)
  let (pkAlg, r) ← wire (readString r)
  let (pkBlob, r) ← wire (readString r)
  if haveSig then do
    let (sig, _) ← wire (readString r)
    .ok ⟨user, service, method, some true, some pkAlg, some pkBlob, some sig, none, none⟩
  else .ok ⟨user, service, method, some false, some pkAlg, some pkBlob, none, none, none⟩

/-- The fields of a password request. -/
def parsePassword (user service method r : Bytes) : Except ParseError Request := do
  let (change, r) ← wire (readBoolean r)
  let (password, _) ← wire (readString r)
  .ok ⟨user, service, method, none, none, none, none, some change, some password⟩

/-- The fields of every request, then those of its method. -/
def parseFields (r : Bytes) : Except ParseError Request := do
  let (user, r) ← wire (readString r)
  let (service, r) ← wire (readString r)
  let (method, r) ← wire (readString r)
  if method = ascii "publickey" then parsePublickey user service method r
  else if method = ascii "password" then parsePassword user service method r
  else .ok ⟨user, service, method, none, none, none, none, none, none⟩

def parseRequest (payload : Bytes) : Except ParseError Request := do
  let (msg, r) ← wire (readU8 payload)
  if msg ≠ msgUserauthRequest then .error .notRequest else parseFields r

def buildFailure (methods : List Bytes) (partialSuccess : Bool) : Bytes :=
  u8 msgUserauthFailure ++ namelist methods ++ boolean partialSuccess

def buildSuccess : Bytes := u8 msgUserauthSuccess

def buildPkOk (pkAlg pkBlob : Bytes) : Bytes :=
  u8 msgUserauthPkOk ++ string pkAlg ++ string pkBlob

def pkSignedData (sessionId user service pkAlg pkBlob : Bytes) : Bytes :=
  string sessionId ++ (u8 msgUserauthRequest ++ (string user ++ (string service ++ (string (ascii "publickey") ++
    (boolean true ++ (string pkAlg ++ string pkBlob))))))

/-- The body of the `pcall` of `verify_ed25519`. -/
def verifyBlobs (ed25519Verify : Bytes → Bytes → Bytes → Bool) (sessionId : Bytes) (req : Request) : Except ReadError Bool :=
  match req.pkAlg, req.pkBlob, req.sig with
  | some pkAlg, some pkBlob, some sigBlob =>
    if pkAlg ≠ ascii "ssh-ed25519" then .ok false
    else do
      let (pkType, rb) ← readString pkBlob
      if pkType ≠ ascii "ssh-ed25519" then .ok false
      else do
        let (pubkey, _) ← readString rb
        if pubkey.length ≠ 32 then .ok false
        else do
          let (sigType, rs) ← readString sigBlob
          if sigType ≠ ascii "ssh-ed25519" then .ok false
          else do
            let (sig, _) ← readString rs
            if sig.length ≠ 64 then .ok false
            else .ok (ed25519Verify sig (pkSignedData sessionId req.user req.service pkAlg pkBlob) pubkey)
  -- `pk_alg` is not "ssh-ed25519" when it is `nil`, and there is no signature or no blob to read
  | _, _, _ => .ok false

/-- `verify_ed25519`; an error in the body is caught. -/
def verifyEd25519 (ed25519Verify : Bytes → Bytes → Bytes → Bool) (req : Request) (sessionId : Bytes) : Bool :=
  match verifyBlobs ed25519Verify sessionId req with
  | .ok result => result
  | .error _ => false

/-! ### What an accepted request is -/

theorem wire_eq_ok {α : Type} {x : Except ReadError α} {a : α} (h : wire x = .ok a) : x = .ok a := by
  cases x with
  | error e => cases h
  | ok a => exact congrArg _ (Except.ok.inj h)

/-- A request up to its signature flag. -/
def beforeFlag (user service : Bytes) : Bytes :=
  u8 msgUserauthRequest ++ (string user ++ (string service ++ string (ascii "publickey")))

/-- A request from its signature flag to the end of the key blob. -/
def keyPart (pkAlg pkBlob : Bytes) : Bytes := string pkAlg ++ string pkBlob

theorem parsePublickey_eq_ok {user service method r : Bytes} {req : Request}
    (h : parsePublickey user service method r = .ok req) :
    ∃ flag pkAlg pkBlob tail, r = flag :: (keyPart pkAlg pkBlob ++ tail) ∧ pkBlob.length < 2 ^ 32 ∧
      req.user = user ∧ req.service = service ∧ req.method = method ∧
      req.haveSig = some (decide (flag ≠ 0)) ∧ req.pkAlg = some pkAlg ∧ req.pkBlob = some pkBlob ∧
      ∀ sigBlob, req.sig = some sigBlob → ∃ rest, tail = string sigBlob ++ rest := by
  obtain ⟨⟨haveSig, r₁⟩, h₁, h'⟩ := exists_of_bind_eq_ok h
  obtain ⟨⟨pkAlg, r₂⟩, h₂, h''⟩ := exists_of_bind_eq_ok h'
  obtain ⟨⟨pkBlob, r₃⟩, h₃, hrest⟩ := exists_of_bind_eq_ok h''
  obtain ⟨flag, rfl, hflag⟩ := readBoolean_eq_ok (wire_eq_ok h₁)
  obtain ⟨rfl, -⟩ := readString_eq_ok (wire_eq_ok h₂)
  obtain ⟨rfl, hblob⟩ := readString_eq_ok (wire_eq_ok h₃)
  have hsig : haveSig = decide (flag ≠ 0) := by rw [Bool.eq_iff_iff, hflag, decide_eq_true_iff]
  have hr : flag :: (string pkAlg ++ (string pkBlob ++ r₃)) = flag :: (keyPart pkAlg pkBlob ++ r₃) := by
    rw [keyPart, List.append_assoc]
  refine ⟨flag, pkAlg, pkBlob, r₃, hr, hblob, ?_⟩
  rw [← hsig]
  cases haveSig with
  | false =>
    obtain rfl := Except.ok.inj hrest
    exact ⟨rfl, rfl, rfl, rfl, rfl, rfl, nofun⟩
  | true =>
    dsimp only at hrest
    rw [if_pos rfl] at hrest
    obtain ⟨⟨sig, r₄⟩, h₄, hreq⟩ := exists_of_bind_eq_ok hrest
    obtain rfl := Except.ok.inj hreq
    refine ⟨rfl, rfl, rfl, rfl, rfl, rfl, ?_⟩
    rintro _ ⟨⟩
    exact ⟨r₄, (readString_eq_ok (wire_eq_ok h₄)).1⟩

theorem parsePassword_method {user service method r : Bytes} {req : Request}
    (h : parsePassword user service method r = .ok req) : req.method = method := by
  obtain ⟨_, -, h'⟩ := exists_of_bind_eq_ok h
  obtain ⟨_, -, hreq⟩ := exists_of_bind_eq_ok h'
  obtain rfl := Except.ok.inj hreq
  rfl

theorem parseRequest_publickey {payload : Bytes} {req : Request} (h : parseRequest payload = .ok req)
    (hmethod : req.method = ascii "publickey") :
    ∃ flag pkAlg pkBlob tail,
      payload = beforeFlag req.user req.service ++ flag :: (keyPart pkAlg pkBlob ++ tail) ∧
      req.user.length < 2 ^ 32 ∧ req.service.length < 2 ^ 32 ∧ pkBlob.length < 2 ^ 32 ∧
      req.haveSig = some (decide (flag ≠ 0)) ∧ req.pkAlg = some pkAlg ∧ req.pkBlob = some pkBlob ∧
      ∀ sigBlob, req.sig = some sigBlob → ∃ rest, tail = string sigBlob ++ rest := by
  obtain ⟨⟨msg, r⟩, h₁, hfields⟩ := exists_of_bind_eq_ok h
  obtain ⟨rfl, -⟩ := readU8_eq_ok (wire_eq_ok h₁)
  dsimp only at hfields
  by_cases hmsg : msg ≠ msgUserauthRequest
  · rw [if_pos hmsg] at hfields
    cases hfields
  rw [if_neg hmsg] at hfields
  obtain ⟨⟨user, r₁⟩, h₂, hrest⟩ := exists_of_bind_eq_ok hfields
  obtain ⟨⟨service, r₂⟩, h₃, hrest'⟩ := exists_of_bind_eq_ok hrest
  obtain ⟨⟨method, r₃⟩, h₄, hbranch⟩ := exists_of_bind_eq_ok hrest'
  obtain ⟨rfl, huser⟩ := readString_eq_ok (wire_eq_ok h₂)
  obtain ⟨rfl, hservice⟩ := readString_eq_ok (wire_eq_ok h₃)
  obtain ⟨rfl, -⟩ := readString_eq_ok (wire_eq_ok h₄)
  dsimp only at hbranch
  by_cases hpublickey : method = ascii "publickey"
  · rw [if_pos hpublickey] at hbranch
    obtain ⟨flag, pkAlg, pkBlob, tail, rfl, hblob, hu, hs, -, hfields⟩ := parsePublickey_eq_ok hbranch
    refine ⟨flag, pkAlg, pkBlob, tail, ?_, hu ▸ huser, hs ▸ hservice, hblob, hfields⟩
    rw [hu, hs, beforeFlag, not_not.1 hmsg, hpublickey]
    simp only [List.append_assoc]
  · -- the other branches keep the method that was read
    have hkept : req.method = method := by
      rw [if_neg hpublickey] at hbranch
      split at hbranch
      · exact parsePassword_method hbranch
      · obtain rfl := Except.ok.inj hbranch
        rfl
    exact absurd (hkept.symm.trans hmethod) hpublickey

/-- **An accepted request.** `p` is the request of a user for a service with a key blob, its signature flag is set, and
its signature is one of `m` under the key in the blob, where `m` is the session identifier and `p` up to the end of the
key blob with the flag as 1. -/
structure Accepted (ed25519Verify : Bytes → Bytes → Bytes → Bool)
    (sessionId p user service pkBlob m : Bytes) : Prop where
  request : ∃ (flag : Byte) (sig pk more rest tail : Bytes), flag ≠ 0 ∧
    p = beforeFlag user service ++ flag :: (keyPart (ascii "ssh-ed25519") pkBlob ++
      (string (string (ascii "ssh-ed25519") ++ (string sig ++ rest)) ++ tail)) ∧
    pkBlob = string (ascii "ssh-ed25519") ++ (string pk ++ more) ∧ pk.length = 32 ∧ sig.length = 64 ∧ ed25519Verify sig m pk = true
  message : m = string sessionId ++ (beforeFlag user service ++ 1 :: keyPart (ascii "ssh-ed25519") pkBlob)
  sizes : user.length < 2 ^ 32 ∧ service.length < 2 ^ 32 ∧ pkBlob.length < 2 ^ 32

theorem pkSignedData_eq (sessionId user service pkAlg pkBlob : Bytes) :
    pkSignedData sessionId user service pkAlg pkBlob =
      string sessionId ++ (beforeFlag user service ++ 1 :: keyPart pkAlg pkBlob) := by
  simp [pkSignedData, beforeFlag, keyPart, boolean]

/-- A test on which the body returns `false` was not met. -/
theorem of_ite_eq_ok_true {c : Prop} [Decidable c] {x : Except ReadError Bool}
    (h : (if c then .ok false else x) = .ok true) : ¬ c ∧ x = .ok true := by
  split at h
  · cases h
  · exact ⟨‹¬ c›, h⟩

/-- What `verify_ed25519` says when it says yes. -/
theorem verifyBlobs_eq_true {ed25519Verify : Bytes → Bytes → Bytes → Bool} {sessionId pkBlob : Bytes}
    {req : Request} (hblob : req.pkBlob = some pkBlob)
    (h : verifyBlobs ed25519Verify sessionId req = .ok true) :
    req.pkAlg = some (ascii "ssh-ed25519") ∧ ∃ sig pk more rest,
      req.sig = some (string (ascii "ssh-ed25519") ++ (string sig ++ rest)) ∧
      pkBlob = string (ascii "ssh-ed25519") ++ (string pk ++ more) ∧ pk.length = 32 ∧ sig.length = 64 ∧
      ed25519Verify sig (pkSignedData sessionId req.user req.service (ascii "ssh-ed25519") pkBlob) pk = true := by
  unfold verifyBlobs at h
  rw [hblob] at h
  cases halg : req.pkAlg with
  | none => rw [halg] at h; cases h
  | some pkAlg =>
    cases hsig : req.sig with
    | none => rw [halg, hsig] at h; cases h
    | some sigBlob =>
      rw [halg, hsig] at h
      obtain ⟨hed25519, hpk⟩ := of_ite_eq_ok_true h
      obtain rfl := not_not.1 hed25519
      obtain ⟨⟨pkType, rb⟩, hread₁, hpk₁⟩ := exists_of_bind_eq_ok hpk
      obtain ⟨htype, hpk₂⟩ := of_ite_eq_ok_true hpk₁
      obtain ⟨⟨pubkey, more⟩, hread₂, hpk₃⟩ := exists_of_bind_eq_ok hpk₂
      obtain ⟨hlen, hs⟩ := of_ite_eq_ok_true hpk₃
      obtain ⟨⟨sigType, rs⟩, hread₃, hs₁⟩ := exists_of_bind_eq_ok hs
      obtain ⟨hsigType, hs₂⟩ := of_ite_eq_ok_true hs₁
      obtain ⟨⟨sig, rest⟩, hread₄, hs₃⟩ := exists_of_bind_eq_ok hs₂
      obtain ⟨hsiglen, hverify⟩ := of_ite_eq_ok_true hs₃
      obtain ⟨rfl, -⟩ := readString_eq_ok hread₁
      obtain ⟨rfl, -⟩ := readString_eq_ok hread₂
      obtain ⟨rfl, -⟩ := readString_eq_ok hread₃
      obtain ⟨rfl, -⟩ := readString_eq_ok hread₄
      obtain rfl := not_not.1 htype
      obtain rfl := not_not.1 hsigType
      exact ⟨rfl, sig, pubkey, more, rest, rfl, rfl, not_not.1 hlen, not_not.1 hsiglen, Except.ok.inj hverify⟩

theorem accepted_of_verifyEd25519 {ed25519Verify : Bytes → Bytes → Bytes → Bool} {sessionId payload : Bytes}
    {req : Request} (hparse : parseRequest payload = .ok req) (hmethod : req.method = ascii "publickey")
    (hsig : req.haveSig = some true) (hverify : verifyEd25519 ed25519Verify req sessionId = true) :
    ∃ pkBlob m, req.pkBlob = some pkBlob ∧
      Accepted ed25519Verify sessionId payload req.user req.service pkBlob m := by
  obtain ⟨flag, pkAlg, pkBlob, tail, hpayload, huser, hservice, hsize, hflag, halg, hblob, htail⟩ :=
    parseRequest_publickey hparse hmethod
  have hbody : verifyBlobs ed25519Verify sessionId req = .ok true := by
    unfold verifyEd25519 at hverify
    split at hverify
    · rename_i hok
      rw [hok, hverify]
    · cases hverify
  obtain ⟨halg', sig, pk, more, rest, hsigBlob, hpk, hlen, hsiglen, hok⟩ := verifyBlobs_eq_true hblob hbody
  obtain rfl := Option.some.inj (halg.symm.trans halg')
  obtain ⟨tail, rfl⟩ := htail _ hsigBlob
  refine ⟨pkBlob, _, hblob, ⟨⟨flag, sig, pk, more, rest, tail, ?_, hpayload, hpk, hlen, hsiglen, hok⟩, pkSignedData_eq ..,
    huser, hservice, hsize⟩⟩
  exact of_decide_eq_true (Option.some.inj (hflag.symm.trans hsig))

/-- Signed data that is accepted twice is that of one session, user, service and key. -/
theorem Accepted.inj {v v' : Bytes → Bytes → Bytes → Bool} {sid sid' p p' user user' service service' pkBlob pkBlob' m : Bytes}
    (h : Accepted v sid p user service pkBlob m) (h' : Accepted v' sid' p' user' service' pkBlob' m)
    (hsid : sid.length < 2 ^ 32) (hsid' : sid'.length < 2 ^ 32) :
    sid = sid' ∧ user = user' ∧ service = service' ∧ pkBlob = pkBlob' := by
  obtain ⟨rfl, hrequest⟩ := string_append_inj hsid hsid' (h.message.symm.trans h'.message)
  simp only [beforeFlag, keyPart, List.append_assoc] at hrequest
  obtain ⟨rfl, hservice⟩ := string_append_inj h.sizes.1 h'.sizes.1 (List.append_cancel_left hrequest)
  obtain ⟨rfl, hkey⟩ := string_append_inj h.sizes.2.1 h'.sizes.2.1 hservice
  have hblob := List.append_cancel_left (List.cons.inj (List.append_cancel_left hkey)).2
  rw [← List.append_nil (string pkBlob), ← List.append_nil (string pkBlob')] at hblob
  exact ⟨rfl, rfl, rfl, (string_append_inj h.sizes.2.2 h'.sizes.2.2 hblob).1⟩

end UserAuth

end Nt365.Ssh
