import Mathlib.Data.BitVec
import Mathlib.Tactic.Abel

/-!
# The reassembly queue

`TCPRcv` (`TCP/TCPRCV.C`) clips a segment to the window, and `PutOnRAQ` queues it if it is out of order. The segment is merged
with the first entry that it touches; the entries behind are left as they are, also where the merged entry now covers them. And
the test against the right edge takes a segment that ends `2 ^ 31` behind the edge to be before it. So the queue holds no more
than the window if segments do neither (`total_le`).

An entry is where its data starts and how much it is.
-/

namespace Nt365.Tcp

abbrev SeqNum := BitVec 32

/-- The difference that `SEQ_LT` and the others compare with 0. -/
def seqDiff (a b : SeqNum) : ℤ := (a - b).toInt

def flag (b : Bool) : BitVec 32 := if b then 1 else 0

/-- `TCPRAHdr`. -/
structure TcpRaHdr where
  start : SeqNum
  size : BitVec 32
  fin : Bool
deriving DecidableEq

def TcpRaHdr.nextSeq (trh : TcpRaHdr) : SeqNum := trh.start + trh.size + flag trh.fin

/-- A segment, and whether there is memory for a new entry or the front of one, and for the back of one. -/
structure Segment where
  seq : SeqNum
  size : BitVec 32
  syn : Bool
  fin : Bool
  allocated : Bool
  allocatedBack : Bool
deriving DecidableEq

def Segment.nextSeq (s : Segment) : SeqNum := s.seq + s.size + flag s.fin

/-! ### The window -/

/-- What starts in front of the window is clipped off. -/
def clipFront (rcvNext : SeqNum) (s : Segment) : Option Segment :=
  if seqDiff s.seq rcvNext < 0 then
    let s := if s.syn then { s with syn := false, seq := s.seq + 1 } else s
    let amountToClip := rcvNext - s.seq
    if s.size.toInt + (flag s.fin).toInt ≤ amountToClip.toInt then none
    else some { s with size := s.size - amountToClip, seq := s.seq + amountToClip }
  else some s

/-- `StateSize`, from the first sequence number of a segment to its last. -/
def stateSize (s : Segment) : BitVec 32 :=
  if s.size + flag s.syn + flag s.fin = 0 then 0 else s.size + flag s.syn + flag s.fin - 1

/-- What is behind the right edge is chopped off, a FIN first. -/
def clipBack (lastValidSeq : SeqNum) (s : Segment) : Option Segment :=
  if 0 < seqDiff (s.seq + stateSize s) lastValidSeq then
    if 0 < seqDiff s.seq lastValidSeq then none
    else some { s with fin := false, size := s.size - (s.seq + (stateSize s - flag s.fin) - lastValidSeq) }
  else some s

/-- The window processing of `TCPRcv`. -/
def clip (rcvNext : SeqNum) (rcvWin : BitVec 32) (s : Segment) : Option Segment :=
  if rcvWin ≠ 0 then (clipFront rcvNext s).bind (clipBack (rcvNext + rcvWin - 1))
  else if s.seq ≠ rcvNext then none
  else some { s with size := 0, syn := false, fin := false }

/-! ### The queue -/

/-- `FrontOverlap`. -/
def frontOverlap (s : Segment) (trh : TcpRaHdr) : BitVec 32 := trh.start - s.seq

/-- `BackOverlap`. -/
def backOverlap (s : Segment) (trh : TcpRaHdr) : BitVec 32 := if trh.fin then 0 else s.seq + s.size - trh.nextSeq

def mergeFront (s : Segment) (trh : TcpRaHdr) : TcpRaHdr :=
  if 0 < (frontOverlap s trh).toInt then { trh with start := s.seq, size := trh.size + frontOverlap s trh } else trh

def mergeBack (trh : TcpRaHdr) (overlap : BitVec 32) : TcpRaHdr := { trh with size := trh.size + overlap }

/-- A segment that touches an entry is merged with it. -/
def merge (s : Segment) (trh : TcpRaHdr) : TcpRaHdr :=
  if s.size = 0 then { trh with fin := trh.fin || s.fin && trh.nextSeq == s.seq }
  else if s.fin = true ∧ seqDiff s.nextSeq trh.nextSeq ≤ 0 then trh
  else if 0 < (frontOverlap s trh).toInt ∧ s.allocated = false then trh
  else if 0 < (backOverlap s trh).toInt ∧ s.allocatedBack = true then mergeBack (mergeFront s trh) (backOverlap s trh)
  else mergeFront s trh

/-- `CreateTRH`, before the entries that are left. -/
def createTrh (s : Segment) (raq : List TcpRaHdr) : List TcpRaHdr := if s.allocated then ⟨s.seq, s.size, s.fin⟩ :: raq else raq

/-- `PutOnRAQ`. -/
def putOnRaq (s : Segment) : List TcpRaHdr → List TcpRaHdr
  | [] => createTrh s []
  | trh :: raq =>
    if seqDiff s.seq trh.nextSeq ≤ 0 then
      if seqDiff s.nextSeq trh.start < 0 then createTrh s (trh :: raq) else merge s trh :: raq
    else if trh.fin then trh :: raq
    else trh :: putOnRaq s raq

/-- The data on the queue. -/
def total (raq : List TcpRaHdr) : ℕ := (raq.map fun trh => trh.size.toNat).sum

/-- The segment has no SYN left, has something to queue and is out of order. -/
abbrev ToQueue (rcvNext : SeqNum) (s : Segment) : Prop := s.syn = false ∧ (s.size ≠ 0 ∨ s.fin = true) ∧ s.seq ≠ rcvNext

/-- The queues while `rcvNext` stays and windows are at most `room`; `ok` restricts the segments that are queued. -/
inductive Queued (ok : SeqNum → Segment → List TcpRaHdr → Prop) (rcvNext : SeqNum) (room : ℕ) : List TcpRaHdr → Prop
  | empty : Queued ok rcvNext room []
  | rcv {raq : List TcpRaHdr} {rcvWin : BitVec 32} {arrived s : Segment} : Queued ok rcvNext room raq → rcvWin.toNat ≤ room →
      clip rcvNext rcvWin arrived = some s → ToQueue rcvNext s → ok rcvNext s raq → Queued ok rcvNext room (putOnRaq s raq)

/-- The segment ends before the entry behind the first that it touches. -/
def TouchesOne (s : Segment) : List TcpRaHdr → Prop
  | trh :: next :: raq => if seqDiff s.seq trh.nextSeq ≤ 0 then seqDiff (s.seq + s.size) next.start ≤ 0
      else TouchesOne s (next :: raq)
  | _ => True

/-- How far a sequence number is behind what is expected next. -/
def off (rcvNext a : SeqNum) : ℕ := (a - rcvNext).toNat

/-- The segment ends less than `2 ^ 31` behind what is expected next, and touches one entry only. -/
def Plain (rcvNext : SeqNum) (s : Segment) (raq : List TcpRaHdr) : Prop :=
  off rcvNext s.seq + s.size.toNat + 1 < 2 ^ 31 ∧ TouchesOne s raq

/-! ### Offsets -/

variable {rcvNext a b : SeqNum} {n rcvWin : BitVec 32} {lo hi room : ℕ} {s t : Segment} {trh : TcpRaHdr} {raq : List TcpRaHdr}

variable (rcvNext) in
theorem seqDiff_eq (ha : off rcvNext a < 2 ^ 31) (hb : off rcvNext b < 2 ^ 31) : seqDiff a b = off rcvNext a - off rcvNext b := by
  unfold seqDiff off at *
  rw [BitVec.toInt_eq_toNat_cond]
  split <;> bv_omega

theorem off_add (h : off rcvNext a + n.toNat < 2 ^ 32) : off rcvNext (a + n) = off rcvNext a + n.toNat := by
  unfold off at *
  bv_omega

theorem toNat_flag_le (b : Bool) : (flag b).toNat ≤ 1 := by
  cases b <;> decide

theorem off_nextSeq {fin : Bool} (h : off rcvNext a + n.toNat + 1 < 2 ^ 31) :
    off rcvNext (a + n + flag fin) = off rcvNext a + n.toNat + (flag fin).toNat := by
  have hflag := toNat_flag_le fin
  unfold off at *
  bv_omega

/-- The bytes from a sequence number on are between two offsets. -/
structure Within (rcvNext : SeqNum) (lo hi : ℕ) (a : SeqNum) (n : BitVec 32) : Prop where
  le : lo ≤ off rcvNext a
  ends : off rcvNext a + n.toNat ≤ hi

/-- The entries lie one behind the other between two offsets. -/
def Laid (rcvNext : SeqNum) (room : ℕ) : ℕ → List TcpRaHdr → Prop
  | lo, [] => lo ≤ room
  | lo, trh :: raq => lo ≤ off rcvNext trh.start ∧ Laid rcvNext room (off rcvNext trh.start + trh.size.toNat) raq

theorem Laid.add_total_le (h : Laid rcvNext room lo raq) : lo + total raq ≤ room := by
  induction raq generalizing lo with
  | nil => exact h
  | cons trh raq ih =>
    have htail := ih h.2
    have hstart := h.1
    rw [total, List.map_cons, List.sum_cons]
    unfold total at htail
    omega

/-! ### Merging -/

section Merge

variable (hhi : hi + 1 < 2 ^ 31) (htrh : Within rcvNext lo hi trh.start trh.size) (hs : Within rcvNext lo hi s.seq s.size)

include hhi htrh hs

/-- The front of an entry moves, its end does not. -/
theorem mergeFront_laid : lo ≤ off rcvNext (mergeFront s trh).start ∧
    off rcvNext (mergeFront s trh).start + (mergeFront s trh).size.toNat = off rcvNext trh.start + trh.size.toNat := by
  have hend := htrh.ends
  have hsend := hs.ends
  have hfront : (frontOverlap s trh).toInt = _ := seqDiff_eq rcvNext (a := trh.start) (by omega) (by omega)
  unfold mergeFront
  split_ifs with hpos
  · rw [hfront] at hpos
    refine ⟨hs.le, ?_⟩
    unfold frontOverlap off at *
    bv_omega
  · exact ⟨htrh.le, rfl⟩

theorem toNat_backOverlap (hpos : 0 < (backOverlap s trh).toInt) :
    off rcvNext trh.start + trh.size.toNat + (backOverlap s trh).toNat = off rcvNext s.seq + s.size.toNat := by
  have hend := htrh.ends
  have hsend := hs.ends
  unfold backOverlap at *
  split_ifs at * with hfin
  · exact absurd hpos (by decide)
  · have hnext : trh.nextSeq = trh.start + trh.size := by simp [TcpRaHdr.nextSeq, flag, hfin]
    have hold : off rcvNext (trh.start + trh.size) = _ := off_add (by omega)
    have hnew : off rcvNext (s.seq + s.size) = _ := off_add (by omega)
    have hdiff : (s.seq + s.size - (trh.start + trh.size)).toInt = _ := seqDiff_eq rcvNext (by omega) (by omega)
    rw [hnext, hdiff, hold, hnew] at hpos
    rw [hnext]
    unfold off at *
    bv_omega

theorem merge_within : Within rcvNext lo hi (merge s trh).start (merge s trh).size := by
  obtain ⟨hfront, hsame⟩ := mergeFront_laid hhi htrh hs
  unfold merge
  split_ifs with _ _ _ hback
  · exact htrh
  · exact htrh
  · exact htrh
  · have hadd := toNat_backOverlap hhi htrh hs hback.1
    have hle : ((mergeFront s trh).size + backOverlap s trh).toNat ≤
      (mergeFront s trh).size.toNat + (backOverlap s trh).toNat := by
      rw [BitVec.toNat_add]
      exact Nat.mod_le _ _
    have hsend := hs.ends
    exact ⟨hfront, show off rcvNext (mergeFront s trh).start + BitVec.toNat (_ + _) ≤ _ by omega⟩
  · exact ⟨hfront, hsame.trans_le htrh.ends⟩

end Merge

theorem createTrh_laid (hs : Within rcvNext lo room s.seq s.size) (hold : Laid rcvNext room lo raq)
    (hnew : Laid rcvNext room (off rcvNext s.seq + s.size.toNat) raq) : Laid rcvNext room lo (createTrh s raq) := by
  unfold createTrh
  split_ifs
  · exact ⟨hs.le, hnew⟩
  · exact hold

/-- **A segment that touches one entry** leaves the entries one behind the other. -/
theorem putOnRaq_laid (hroom : room + 1 < 2 ^ 31) (h : Laid rcvNext room lo raq) (hs : Within rcvNext lo room s.seq s.size)
    (hone : TouchesOne s raq) : Laid rcvNext room lo (putOnRaq s raq) := by
  induction raq generalizing lo with
  | nil => exact createTrh_laid hs h hs.ends
  | cons trh raq ih =>
    have hend := h.2.add_total_le
    have hsend := hs.ends
    have hflag := toNat_flag_le trh.fin
    have hnext : off rcvNext trh.nextSeq = _ := off_nextSeq (by omega)
    have hdiff : seqDiff s.seq trh.nextSeq = _ := seqDiff_eq rcvNext (by omega) (by omega)
    rw [putOnRaq]
    split_ifs with htouch hbefore hfin
    · -- the segment ends before the entry
      have hflag := toNat_flag_le s.fin
      have hsnext : off rcvNext s.nextSeq = _ := off_nextSeq (by omega)
      have hdiff : seqDiff s.nextSeq trh.start = _ := seqDiff_eq rcvNext (by omega) (by omega)
      exact createTrh_laid hs h ⟨by omega, h.2⟩
    · -- the merged entry ends before the next
      cases raq with
      | nil =>
        obtain ⟨hle, hends⟩ := merge_within hroom ⟨h.1, h.2⟩ hs
        exact ⟨hle, hends⟩
      | cons next raq =>
        rw [TouchesOne, if_pos htouch] at hone
        have hbound := h.2.2.add_total_le
        have hadd : off rcvNext (s.seq + s.size) = _ := off_add (by omega)
        have hdiff : seqDiff (s.seq + s.size) next.start = _ := seqDiff_eq rcvNext (by omega) (by omega)
        obtain ⟨hle, hends⟩ := merge_within (by omega) ⟨h.1, h.2.1⟩ ⟨hs.le, by omega⟩
        exact ⟨hle, hends, h.2.2⟩
    · exact h
    · refine ⟨h.1, ih h.2 ⟨by omega, hsend⟩ ?_⟩
      cases raq with
      | nil => trivial
      | cons next raq => rwa [TouchesOne, if_neg htouch] at hone

/-! ### Clipping -/

theorem off_add_sub (h : off rcvNext a ≤ rcvWin.toNat) : off rcvNext a + (rcvNext + rcvWin - a).toNat = rcvWin.toNat := by
  unfold off at *
  bv_omega

theorem sub_chop {G : Type*} [AddCommGroup G] (size seq edge one fin : G) :
    size - (seq + (size + 0 + fin - one - fin) - (edge - one)) = edge - seq := by
  abel

theorem stateSize_bounds (hsyn : s.syn = false) (hsize : s.size.toNat + 1 < 2 ^ 31) :
    (stateSize s).toNat ≤ s.size.toNat ∧ s.size.toNat ≤ (stateSize s).toNat + 1 := by
  have hflag := toNat_flag_le s.fin
  rw [stateSize, hsyn, show flag false = 0 from rfl]
  split_ifs <;> bv_omega

theorem clipBack_within (h : clipBack (rcvNext + rcvWin - 1) s = some t) (hopen : rcvWin ≠ 0) (hwin : rcvWin.toNat < 2 ^ 31)
    (ht : ToQueue rcvNext t) (hnear : off rcvNext t.seq + t.size.toNat + 1 < 2 ^ 31) :
    off rcvNext t.seq + t.size.toNat ≤ rcvWin.toNat := by
  have hlast : off rcvNext (rcvNext + rcvWin - 1) + 1 = rcvWin.toNat := by
    unfold off
    bv_omega
  unfold clipBack at h
  split_ifs at h with hbehind houtside
  · obtain rfl := Option.some.inj h
    dsimp only at hnear ⊢
    have hseq : seqDiff s.seq (rcvNext + rcvWin - 1) = _ := seqDiff_eq rcvNext (by omega) (by omega)
    have hstate : stateSize s = s.size + flag s.syn + flag s.fin - 1 := by
      refine if_neg fun hzero => houtside ?_
      rwa [stateSize, if_pos hzero, show s.seq + 0 = s.seq by bv_omega] at hbehind
    have hleft : s.size - (s.seq + (stateSize s - flag s.fin) - (rcvNext + rcvWin - 1)) = rcvNext + rcvWin - s.seq := by
      rw [hstate, show s.syn = false from ht.1]
      exact sub_chop ..
    rw [hleft]
    exact (off_add_sub (by omega)).le
  · obtain rfl := Option.some.inj h
    have hstate := stateSize_bounds ht.1 (by omega)
    have hadd : off rcvNext (s.seq + stateSize s) = _ := off_add (by omega)
    have hseq : seqDiff (s.seq + stateSize s) (rcvNext + rcvWin - 1) = _ := seqDiff_eq rcvNext (by omega) (by omega)
    omega

/-- **A segment that is queued is in the window.** -/
theorem clip_within (h : clip rcvNext rcvWin s = some t) (ht : ToQueue rcvNext t)
    (hnear : off rcvNext t.seq + t.size.toNat + 1 < 2 ^ 31)
    (hwin : rcvWin.toNat < 2 ^ 31) : off rcvNext t.seq + t.size.toNat ≤ rcvWin.toNat := by
  unfold clip at h
  split_ifs at h with hopen hnext
  · obtain ⟨u, -, hback⟩ := Option.bind_eq_some_iff.mp h
    exact clipBack_within hback hopen hwin ht hnear
  · cases h
    exact absurd (not_not.mp hnext) ht.2.2

/-- **The queue holds no more than the window** if segments are near and touch one entry each. -/
theorem total_le (hroom : room + 1 < 2 ^ 31) (h : Queued Plain rcvNext room raq) : total raq ≤ room := by
  suffices hlaid : Laid rcvNext room 0 raq from by simpa using hlaid.add_total_le
  induction h with
  | empty => exact Nat.zero_le _
  | rcv _ hwin hclip hqueue hplain ih =>
    have hends := clip_within hclip hqueue hplain.1 (by omega)
    exact putOnRaq_laid hroom ih ⟨Nat.zero_le _, hends.trans hwin⟩ hplain.2

/-- Data for which there is memory. -/
def dataSegment (seq : SeqNum) (size : BitVec 32) : Segment := ⟨seq, size, false, false, true, true⟩

/-- Of a window of 20 there arrive 10 to 14, 2 to 4, then 3 to 7, which is merged with the entry in front, and from 13 on
more than the window, which is clipped and merged with the entry behind. -/
theorem total_le_merged : Queued Plain 0 20 [⟨2, 6, false⟩, ⟨10, 10, false⟩] ∧ total [⟨2, 6, false⟩, ⟨10, 10, false⟩] ≤ 20 := by
  have hstep {raq : List TcpRaHdr} (arrived s : Segment) (h : Queued Plain 0 20 raq) (hclip : clip 0 20 arrived = some s)
      (hqueue : ToQueue 0 s) (hend : off 0 s.seq + s.size.toNat + 1 < 2 ^ 31) (hone : TouchesOne s raq) :
        Queued Plain 0 20 (putOnRaq s raq) :=
    h.rcv (show (20#32).toNat ≤ 20 by decide) hclip hqueue ⟨hend, hone⟩
  have h₁ := hstep (dataSegment 10 5) _ .empty rfl (by decide) (by decide) trivial
  have h₂ := hstep (dataSegment 2 3) _ h₁ rfl (by decide) (by decide) trivial
  have h₃ := hstep (dataSegment 3 5) _ h₂ rfl (by decide) (by decide) (show seqDiff _ _ ≤ 0 by decide)
  have h₄ := hstep (dataSegment 13 10) (dataSegment 13 7) h₃ (by decide) (by decide) (by decide) trivial
  exact ⟨h₄, total_le (by decide) h₄⟩

/-- **More than the window.** Of a window of 5 the byte 1 arrives, then the bytes 3 and 4, then all from 1 to 4: 4 and 2
bytes are queued. And 100 bytes from `2 ^ 31 - 1` on are queued if the window is 1. -/
theorem total_exceeds :
    (∃ raq, Queued (fun _ _ _ => True) 0 5 raq ∧ total raq = 6) ∧ ∃ raq, Queued (fun _ _ _ => True) 0 1 raq ∧ total raq = 100 := by
  have hstep : ∀ {room raq} (rcvWin : BitVec 32) (s : Segment), Queued (fun _ _ _ => True) 0 room raq →
      rcvWin.toNat ≤ room ∧ clip 0 rcvWin s = some s ∧ ToQueue 0 s → Queued (fun _ _ _ => True) 0 room (putOnRaq s raq) :=
    fun _ _ h ⟨hwin, hclip, hqueue⟩ => h.rcv hwin hclip hqueue trivial
  refine ⟨⟨_, hstep 5 (dataSegment 1 4) (hstep 5 (dataSegment 3 2) (hstep 5 (dataSegment 1 1) .empty ?_) ?_) ?_, ?_⟩,
    _, hstep 1 (dataSegment 0x7fffffff 100) .empty ?_, ?_⟩
  all_goals decide

end Nt365.Tcp
