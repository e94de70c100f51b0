import Nt365.Library.History
import Nt365.Ssh.Handshake

/-!
# Authentication cannot be bypassed

Before the handshake tells a client that it is authenticated, before it confirms a channel and before it calls the
session, it has received an accepted request and asked for its user and key (`Proven`). The events of each step are
gone through in turn: those before the authentication tell nothing (`authenticate_sound`), and those after it come
after the proof (`openChannel_sound`).
-/

namespace Nt365.Ssh

open Nt365.Library List

namespace Handshake

open Wire UserAuth

variable {crypto : Crypto} {opts : Options} {before : List Event} {user : Bytes}

/-- A request of the user has been received and accepted under the session identifier, and `opts.authorize` has said
yes to its user, service and key blob. -/
def Proven (ed25519Verify : Bytes → Bytes → Bytes → Bool) (before : List Event) (user : Bytes) : Prop :=
  ∃ sessionId p service pkBlob m,
    .keyed sessionId ∈ before ∧ sessionId.length = 32 ∧ .received p ∈ before ∧
    Accepted ed25519Verify sessionId p user service pkBlob m ∧
    .authorized ⟨user, service, ascii "publickey", ascii "ssh-ed25519", pkBlob⟩ true ∈ before

theorem Proven.append {v : Bytes → Bytes → Bytes → Bool} (h : Proven v before user) (more : List Event) :
    Proven v (before ++ more) user := by
  obtain ⟨sid, p, service, pkBlob, m, hkeyed, hlen, hreceived, hacc, hauth⟩ := h
  exact ⟨sid, p, service, pkBlob, m, mem_append_left _ hkeyed, hlen, mem_append_left _ hreceived, hacc,
    mem_append_left _ hauth⟩

/-- The message tells a client that it is authenticated, or confirms a channel. -/
def Tells (payload : Bytes) : Prop :=
  payload.head? = some (BitVec.ofNat 8 msgUserauthSuccess) ∨
    payload.head? = some (BitVec.ofNat 8 msgChannelOpenConfirmation)

/-- What an event is to come after. -/
def Sound (ed25519Verify : Bytes → Bytes → Bytes → Bool) (before : List Event) : Event → Prop
  | .sent payload => Tells payload → ∃ user, Proven ed25519Verify before user
  | .session s => Proven ed25519Verify before s.user
  | _ => True

/-- The run is sound after what came before it. -/
abbrev Safe (crypto : Crypto) (before run : List Event) : Prop :=
  Throughout (Sound crypto.ed25519Verify) before run

/-! ### The parts of a run -/

theorem safe_attempt {α : Type} {x : Except Stop α} {k : α → List Event}
    (h : ∀ a, x = .ok a → Safe crypto before (k a)) : Safe crypto before (attempt x k) := by
  cases x with
  | error reason => exact throughout_cons.2 ⟨trivial, throughout_nil⟩
  | ok a => exact h a rfl

theorem safe_receive {packets : List Bytes} {k : Bytes → List Bytes → List Event}
    (h : ∀ payload packets, Safe crypto (before ++ [.received payload]) (k payload packets)) :
    Safe crypto before (receive packets k) := by
  cases packets with
  | nil => exact throughout_cons.2 ⟨trivial, throughout_nil⟩
  | cons payload packets => exact throughout_cons.2 ⟨trivial, h payload packets⟩

theorem safe_stopped (reason : Stop) : Safe crypto before [.stopped reason] :=
  throughout_cons.2 ⟨trivial, throughout_nil⟩

theorem safe_sent {payload : Bytes} {run : List Event} (hpayload : ¬ Tells payload)
    (h : Safe crypto (before ++ [.sent payload]) run) : Safe crypto before (.sent payload :: run) :=
  throughout_cons.2 ⟨fun htells => absurd htells hpayload, h⟩

theorem not_tells_u8 {msg : ℕ} (rest : Bytes)
    (h : BitVec.ofNat 8 msg ≠ BitVec.ofNat 8 msgUserauthSuccess ∧
      BitVec.ofNat 8 msg ≠ BitVec.ofNat 8 msgChannelOpenConfirmation) : ¬ Tells (u8 msg ++ rest) := by
  rintro (htells | htells)
  · exact h.1 (Option.some.inj htells)
  · exact h.2 (Option.some.inj htells)

/-! ### After the authentication -/

/-- After the proof for a user, a run that starts no session but that user's is sound. -/
theorem safe_of_proven {run : List Event} (h : Proven crypto.ed25519Verify before user)
    (hsession : ∀ s, .session s ∈ run → s.user = user) : Safe crypto before run := by
  refine throughout_of_forall_mem fun past event hevent => ?_
  cases event with
  | sent payload => exact fun _ => ⟨user, h.append past⟩
  | session s =>
    show Proven _ _ s.user
    rw [hsession s hevent]
    exact h.append past
  | received payload => trivial
  | keyed sessionId => trivial
  | authorized context answer => trivial
  | stopped reason => trivial

theorem session_mem_of_reply_append {wanted : Bool} {payload : Bytes} {s : Session} {run : List Event}
    (h : .session s ∈ reply wanted payload ++ run) : .session s ∈ run := by
  refine (mem_append.1 h).resolve_left ?_
  cases wanted <;> simp [reply]

/-- The session that the channel requests start is that of the user who opened the channel. -/
theorem channelRequests_user (packets : List Bytes) (s t : Session) (h : .session t ∈ channelRequests s packets) :
    t.user = s.user := by
  induction packets generalizing s with
  | nil => simp [channelRequests] at h
  | cons payload packets ih =>
    rw [channelRequests, mem_cons] at h
    rcases h with h | h
    · cases h
    cases hparse : parseChannelRequest payload with
    | error reason => simp [hparse, attempt] at h
    | ok parsed =>
      obtain ⟨kind, wantReply⟩ := parsed
      rw [hparse, attempt] at h
      cases kind with
      | shell =>
        obtain rfl := Event.session.inj (mem_singleton.1 (session_mem_of_reply_append h))
        rfl
      | exec command =>
        obtain rfl := Event.session.inj (mem_singleton.1 (session_mem_of_reply_append h))
        rfl
      | ptyReq => exact ih { s with pty := true } (session_mem_of_reply_append h)
      | env => exact ih s (session_mem_of_reply_append h)
      | other => exact ih s (session_mem_of_reply_append h)

theorem openChannel_sound (packets : List Bytes) (h : Proven crypto.ed25519Verify before user) :
    Safe crypto before (openChannel user packets) := by
  refine safe_receive fun payload packets => safe_attempt fun ⟨ctype, peerCh, peerWin, peerMaxpkt⟩ _ => ?_
  refine safe_of_proven (h.append _) fun s hs => ?_
  dsimp only at hs
  split at hs
  · simp at hs
  · rcases mem_cons.1 hs with hs | hs
    · cases hs
    · exact channelRequests_user _ _ _ hs

/-! ### Up to the authentication -/

theorem fromUserauth_eq_ok {α : Type} {x : Except ParseError α} {a : α} (h : fromUserauth x = .ok a) : x = .ok a := by
  cases x with
  | error e => cases h
  | ok a => exact congrArg _ (Except.ok.inj h)

theorem not_tells_failure : ¬ Tells (buildFailure [ascii "publickey"] false) := by
  rw [buildFailure, append_assoc]
  exact not_tells_u8 _ (by decide)

theorem authenticate_sound {sessionId : Bytes} (hlen : sessionId.length = 32) (n : ℕ) (packets : List Bytes)
    (hkeyed : .keyed sessionId ∈ before) : Safe crypto before (authenticate crypto opts sessionId n packets) := by
  induction n generalizing packets before with
  | zero => exact safe_stopped _
  | succ n ih =>
    refine safe_receive fun payload packets => ?_
    have hkeyed' : Event.keyed sessionId ∈ before ++ [.received payload] := mem_append_left _ hkeyed
    have hfailure (before' : List Event) (h : Event.keyed sessionId ∈ before') :
        Safe crypto before' (failure :: authenticate crypto opts sessionId n packets) :=
      safe_sent not_tells_failure (ih packets (mem_append_left _ h))
    split
    · exact safe_stopped _
    refine safe_attempt fun req hreq => ?_
    split
    · rename_i hmethod
      split
      · refine safe_sent ?_ (ih packets (mem_append_left _ hkeyed'))
        rw [buildPkOk, append_assoc]
        exact not_tells_u8 _ (by decide)
      · rename_i hsig
        split
        · rename_i hverify
          obtain ⟨pkBlob, m, hblob, hacc⟩ :=
            accepted_of_verifyEd25519 (fromUserauth_eq_ok hreq) hmethod.1 (not_not.1 hsig) hverify
          have hcontext : Request.context req = ⟨req.user, req.service, ascii "publickey", ascii "ssh-ed25519", pkBlob⟩ := by
            rw [Request.context, hmethod.1, hmethod.2, hblob]
            rfl
          cases opts.authorize n (Request.context req) with
          | none => exact safe_stopped _
          | some answer =>
            cases answer with
            | false =>
              exact throughout_cons.2 ⟨trivial, hfailure _ (mem_append_left _ hkeyed')⟩
            | true =>
              have hproven : Proven crypto.ed25519Verify
                  (before ++ [.received payload] ++ [.authorized (Request.context req) true]) req.user :=
                ⟨sessionId, payload, req.service, pkBlob, m, mem_append_left _ hkeyed', hlen, by simp, hacc,
                  by simp [hcontext]⟩
              refine throughout_cons.2 ⟨trivial, throughout_cons.2 ⟨fun _ => ⟨req.user, hproven⟩, ?_⟩⟩
              exact openChannel_sound packets (hproven.append _)
        · exact hfailure _ hkeyed'
    · exact hfailure _ hkeyed'

theorem requestService_sound {sessionId : Bytes} (hlen : sessionId.length = 32) (packets : List Bytes)
    (hkeyed : .keyed sessionId ∈ before) : Safe crypto before (requestService crypto opts sessionId packets) := by
  refine safe_receive fun payload packets => safe_attempt fun r _ => safe_attempt fun ⟨svc, _⟩ _ => ?_
  refine safe_sent (not_tells_u8 _ (by decide)) (authenticate_sound hlen 20 packets ?_)
  simp [hkeyed]

theorem exchangeKeys_sound (draws : Draws) (vc ic is : Bytes) (packets : List Bytes) :
    Safe crypto before (exchangeKeys crypto opts draws vc ic is packets) := by
  refine safe_receive fun payload packets => safe_attempt fun qc _ => safe_attempt fun ⟨qs, k⟩ _ => ?_
  refine safe_sent (not_tells_u8 _ (by decide)) (safe_sent (not_tells_u8 [] (by decide)) ?_)
  refine safe_receive fun payload packets => safe_attempt fun _ _ => throughout_cons.2 ⟨trivial, ?_⟩
  exact requestService_sound (exchangeHash ..).property packets (by simp)

/-- **Authentication cannot be bypassed or transplanted.** Whatever packets a client sends, the handshake tells it that it
is authenticated, confirms a channel or calls the session only after a request that was accepted and
authorized, and the session is that of its user. Signed data that is accepted twice is that of one session
identifier, user, service and key blob. -/
theorem handshake_authenticated (crypto : Crypto) (opts : Options) (draws : Draws) (vc : Bytes)
    (packets : List Bytes) :
    Throughout (Sound crypto.ed25519Verify) [] (handshake crypto opts draws vc packets) ∧
    ∀ {sid sid' p p' user user' service service' pkBlob pkBlob' m : Bytes}, sid.length = 32 → sid'.length = 32 →
      Accepted crypto.ed25519Verify sid p user service pkBlob m →
      Accepted crypto.ed25519Verify sid' p' user' service' pkBlob' m →
      sid = sid' ∧ user = user' ∧ service = service' ∧ pkBlob = pkBlob' := by
  constructor
  · refine safe_sent (not_tells_u8 _ (by decide)) (safe_receive fun ic packets => safe_attempt fun _ _ => ?_)
    exact exchangeKeys_sound draws vc ic _ packets
  · intro sid sid' p p' user user' service service' pkBlob pkBlob' m hsid hsid' h h'
    exact h.inj h' (by omega) (by omega)

/-- A crypto that accepts every signature. -/
def trusting : Crypto where
  sha256 _ := ⟨List.replicate 32 0, rfl⟩
  x25519 _ _ := some (List.replicate 32 0)
  ed25519Sign _ _ _ := []
  ed25519Verify _ _ _ := true

/-- A client that exchanges keys, authenticates as `root` and asks for a shell. -/
def rootClient : List Bytes :=
  [buildKexinit (List.replicate 16 0),
    u8 msgKexEcdhInit ++ string (List.replicate 32 7),
    u8 msgNewkeys,
    u8 msgServiceRequest ++ string (ascii "ssh-userauth"),
    beforeFlag (ascii "root") (ascii "ssh-connection") ++ 1 ::
      (keyPart (ascii "ssh-ed25519") (ed25519Blob (List.replicate 32 5)) ++ string (ed25519Blob (List.replicate 64 6))),
    u8 msgChannelOpen ++ string (ascii "session") ++ Wire.u32 0 ++ Wire.u32 100 ++ Wire.u32 100,
    u8 msgChannelRequest ++ Wire.u32 0 ++ string (ascii "shell") ++ boolean true]

/-- The client gets its shell, after what the theorem says. -/
theorem handshake_authenticated_root :
    let run := handshake trusting ⟨[], [], [], fun _ _ => some true⟩ ⟨List.replicate 16 0, []⟩ [] rootClient
    ∃ past future, run = past ++ .session ⟨ascii "root", none, false, 0, 100, 100⟩ :: future ∧
      Proven trusting.ed25519Verify past (ascii "root") := by
  intro run
  have hrun : Event.session ⟨ascii "root", none, false, 0, 100, 100⟩ ∈ run := by decide +kernel
  obtain ⟨past, future, hsplit⟩ := append_of_mem hrun
  exact ⟨past, future, hsplit, (handshake_authenticated _ _ _ _ _).1 past _ future hsplit⟩

end Handshake

end Nt365.Ssh
