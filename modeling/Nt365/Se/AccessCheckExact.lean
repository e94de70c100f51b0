import Nt365.Library.FirstMatch
import Nt365.Se.AccessCheck

/-!
# An access check decides by the first entry that applies

A bit of an access mask is allowed by a DACL if the first entry that applies to it allows it: the first that is
not for inheritance only, allows or denies, has the bit in its mask, and names a SID that the token contains.
A token contains a SID if its first entry with that SID is the user or an enabled group (`InToken`). The two
loops over the DACL compute the allowed bits (`grantMaximum_bit`, `clearRemaining_eq_zero`), and the tests before them
only move bits from what remains to what is granted (`Carried`). `seAccessCheck_exact` puts this together.

A token that lists a group twice, first disabled and then enabled, has an enabled group that it does not
contain in this sense: `SepSidInToken` returns at the first entry. And `ACCESS_SYSTEM_SECURITY` is not to be had from an
entry that allows it (`seAccessCheck_group_twice`).
-/

namespace Nt365.Se

open Nt365.Library
open BitVec (getLsbD_and getLsbD_or)

namespace AccessCheck

/-! ### What a check is to decide -/

/-- The token's first entry with the SID is the user or an enabled group. -/
def InToken (token : Token) (sid : Sid) : Prop :=
  FirstMatch (fun entry => entry.1.sid = sid) (fun entry => entry.2 = 0 ∨ entry.1.enabled)
    token.userAndGroups.zipIdx

/-- The SID is the token's user or one of its enabled groups. -/
def Listed (token : Token) (sid : Sid) : Prop :=
  ∃ entry ∈ token.userAndGroups.zipIdx, entry.1.sid = sid ∧ (entry.2 = 0 ∨ entry.1.enabled)

variable (contains : Sid → Prop)

/-- The entry applies to bit `i`. -/
def Applies (i : ℕ) (ace : Ace) : Prop :=
  ace.inheritOnly = false ∧ (ace.aceType = .accessAllowed ∨ ace.aceType = .accessDenied) ∧
    contains ace.sid ∧ ace.mask.getLsbD i

/-- The first entry that applies to bit `i` allows it. -/
def Allowed (dacl : List Ace) (i : ℕ) : Prop :=
  FirstMatch (Applies contains i) (fun ace => ace.aceType = .accessAllowed) dacl

/-- The token has the privilege, enabled. -/
def Held (privilege : Luid) (token : Token) : Prop :=
  ∃ entry ∈ token.privileges, entry.luid = privilege ∧ entry.attributes &&& sePrivilegeEnabled ≠ 0

instance (privilege : Luid) (token : Token) : Decidable (Held privilege token) :=
  inferInstanceAs (Decidable (∃ entry ∈ token.privileges, _))

/-- What a check is given: the SIDs the subject's token contains and the privileges it holds, the descriptor's
owner and DACL, and the two masks. -/
structure Case where
  contains : Sid → Prop
  securityHeld : Prop
  takeOwnershipHeld : Prop
  owner : Sid
  dacl : List Ace
  desired : AccessMask
  previous : AccessMask

/-- Bit `i` is for the subject to have: by the DACL, as the owner, or by a privilege. -/
def Case.Permits (c : Case) (i : ℕ) : Prop :=
  (i ≠ 24 ∧ Allowed c.contains c.dacl i) ∨ ((i = 17 ∨ i = 18) ∧ c.contains c.owner) ∨
    (i = 24 ∧ c.securityHeld) ∨ (i = 19 ∧ c.takeOwnershipHeld)

/-- Bit `i` is one of those granted if all that is desired is permitted. -/
def Case.Grants (c : Case) (i : ℕ) : Prop :=
  c.previous.getLsbD i ∨ (c.desired.getLsbD i ∧ i ≠ 25) ∨
    (c.desired.getLsbD 25 ∧ (Allowed c.contains c.dacl i ∨ ((i = 17 ∨ i = 18) ∧ c.contains c.owner)))

/-- All that is desired, `MAXIMUM_ALLOWED` apart, is permitted, and something is granted. -/
def Case.Succeeds (c : Case) : Prop :=
  (∀ i, c.desired.getLsbD i → i ≠ 25 → c.Permits i) ∧ ∃ i, c.Grants i

/-! ### Bits -/

variable (i : ℕ)

theorem twoPow_bit (k : Fin 32) : (BitVec.twoPow 32 k).getLsbD i = decide (i = k) := by
  simp [BitVec.getLsbD_twoPow, eq_comm]

@[simp] theorem readControl_bit : readControl.getLsbD i = decide (i = 17) := twoPow_bit i ⟨17, by decide⟩

@[simp] theorem writeDac_bit : writeDac.getLsbD i = decide (i = 18) := twoPow_bit i ⟨18, by decide⟩

@[simp] theorem writeOwner_bit : writeOwner.getLsbD i = decide (i = 19) := twoPow_bit i ⟨19, by decide⟩

@[simp] theorem accessSystemSecurity_bit : accessSystemSecurity.getLsbD i = decide (i = 24) := twoPow_bit i ⟨24, by decide⟩

@[simp] theorem maximumAllowed_bit : maximumAllowed.getLsbD i = decide (i = 25) := twoPow_bit i ⟨25, by decide⟩

theorem lt_of_bit {x : AccessMask} {i : ℕ} (h : x.getLsbD i = true) : i < 32 := by
  by_contra hi
  rw [BitVec.getLsbD_of_ge x i (by omega)] at h
  exact Bool.false_ne_true h

theorem eq_zero_iff (x : AccessMask) : x = 0 ↔ ∀ i, x.getLsbD i = false := by
  refine ⟨fun h i => by simp [h], fun h => BitVec.eq_of_getLsbD_eq fun i _ => ?_⟩
  rw [h i, BitVec.ofNat_eq_ofNat, BitVec.getLsbD_zero]

theorem ne_zero_iff (x : AccessMask) : x ≠ 0 ↔ ∃ i, x.getLsbD i = true := by
  rw [ne_eq, eq_zero_iff]
  simp

/-- A bit of a difference; the bound of the complement is that of the first mask. -/
theorem and_not_bit (x y : AccessMask) (i : ℕ) : (x &&& ~~~y).getLsbD i = (x.getLsbD i && !y.getLsbD i) := by
  rw [getLsbD_and, BitVec.getLsbD_not]
  cases h : x.getLsbD i with
  | false => rfl
  | true => simp [lt_of_bit h]

variable {mask : AccessMask} {token : Token} {ace : Ace} {succeeds : Prop} {dacl : List Ace} {s : Progress} {p : Parameters}

theorem and_ne_zero_iff {k : ℕ} (hmask : ∀ i, mask.getLsbD i = decide (i = k)) (x : AccessMask) :
    x &&& mask ≠ 0 ↔ x.getLsbD k = true := by
  rw [ne_zero_iff]
  simp [hmask]

theorem and_not_bit_iff {k : ℕ} (hmask : ∀ i, mask.getLsbD i = decide (i = k)) (x : AccessMask) (i : ℕ) :
    (x &&& ~~~mask).getLsbD i = true ↔ x.getLsbD i = true ∧ i ≠ k := by
  rw [and_not_bit, hmask]
  simp

theorem eq_of_and_not_eq_zero {k i : ℕ} {x : AccessMask} (hmask : ∀ i, mask.getLsbD i = decide (i = k)) (hzero : x &&& ~~~mask = 0)
    (hi : x.getLsbD i = true) : i = k := by
  by_contra hne
  have hnone := (eq_zero_iff _).1 hzero i
  rw [(and_not_bit_iff hmask x i).2 ⟨hi, hne⟩] at hnone
  cases hnone

/-! ### The token -/

theorem sidInEntries_iff (sid : Sid) (entries : List SidAndAttributes) (n : ℕ) :
    sidInEntries sid (decide (n = 0)) entries = true ↔
      FirstMatch (fun entry => entry.1.sid = sid) (fun entry => entry.2 = 0 ∨ entry.1.enabled)
        (entries.zipIdx n) := by
  induction entries generalizing n with
  | nil => simp [sidInEntries]
  | cons entry rest ih =>
    rw [List.zipIdx_cons, sidInEntries]
    by_cases hsid : entry.sid = sid
    · rw [if_pos hsid, firstMatch_cons_of_pos (by exact hsid), Bool.or_eq_true, decide_eq_true_iff]
    · rw [if_neg hsid, firstMatch_cons_of_neg (by exact hsid), ← ih (n + 1)]
      simp

theorem sepSidInToken_iff (token : Token) (sid : Sid) : sepSidInToken token sid = true ↔ InToken token sid :=
  sidInEntries_iff sid token.userAndGroups 0

theorem sepSinglePrivilegeCheck_iff (hmode : p.previousMode = .userMode) (privilege : Luid) :
    sepSinglePrivilegeCheck privilege p.token p.previousMode = true ↔ Held privilege p.token := by
  simp [hmode, sepSinglePrivilegeCheck, Held, and_comm]

/-! ### The two loops -/

/-- Both loops pass over the entry. -/
def PassedOver (token : Token) (ace : Ace) : Prop :=
  ace.inheritOnly = true ∨ sepSidInToken token ace.sid = false ∨ ∃ t, ace.aceType = .other t

/-- Both loops look into the entry. -/
def LookedInto (token : Token) (ace : Ace) : Prop :=
  ace.inheritOnly = false ∧ sepSidInToken token ace.sid = true

theorem ace_cases (token : Token) (ace : Ace) :
    PassedOver token ace ∨ (LookedInto token ace ∧ ace.aceType = .accessAllowed) ∨
      (LookedInto token ace ∧ ace.aceType = .accessDenied) := by
  by_cases hinherit : ace.inheritOnly = true
  · exact .inl (.inl hinherit)
  by_cases hsid : sepSidInToken token ace.sid = true
  · have hlook : LookedInto token ace := ⟨Bool.eq_false_iff.2 hinherit, hsid⟩
    cases htype : ace.aceType with
    | accessAllowed => exact .inr (.inl ⟨hlook, rfl⟩)
    | accessDenied => exact .inr (.inr ⟨hlook, rfl⟩)
    | other t => exact .inl (.inr (.inr ⟨t, htype⟩))
  · exact .inl (.inr (.inl (Bool.eq_false_iff.2 hsid)))

theorem PassedOver.not_applies (h : PassedOver token ace) (i : ℕ) : ¬ Applies (InToken token) i ace := by
  rintro ⟨hinherit, htype, hsid, -⟩
  rcases h with h | h | ⟨t, h⟩
  · simp [hinherit] at h
  · rw [← sepSidInToken_iff, h] at hsid
    cases hsid
  · rw [h] at htype
    rcases htype with htype | htype <;> cases htype

theorem LookedInto.applies_iff (h : LookedInto token ace)
    (htype : ace.aceType = .accessAllowed ∨ ace.aceType = .accessDenied) (i : ℕ) :
    Applies (InToken token) i ace ↔ ace.mask.getLsbD i = true := by
  simp [Applies, h.1, htype, (sepSidInToken_iff _ _).1 h.2]

theorem PassedOver.grantMaximum (h : PassedOver token ace) (rest : List Ace)
    (g d : AccessMask) : grantMaximum token (ace :: rest) g d = grantMaximum token rest g d := by
  rcases h with h | h | ⟨t, h⟩ <;> cases htype : ace.aceType <;> simp_all [AccessCheck.grantMaximum]

theorem PassedOver.clearRemaining (h : PassedOver token ace) (rest : List Ace)
    {remaining : AccessMask} (hne : remaining ≠ 0) :
    clearRemaining token (ace :: rest) remaining = clearRemaining token rest remaining := by
  rcases h with h | h | ⟨t, h⟩ <;> cases htype : ace.aceType <;> simp_all [AccessCheck.clearRemaining]

/-- With `MAXIMUM_ALLOWED`: a bit is granted in the end if it is now, or if it is not denied now and the entries
to come allow it. -/
theorem grantMaximum_bit (token : Token) (dacl : List Ace) (g d : AccessMask) (i : ℕ) :
    (grantMaximum token dacl g d).getLsbD i = true ↔
      g.getLsbD i = true ∨ (d.getLsbD i = false ∧ Allowed (InToken token) dacl i) := by
  induction dacl generalizing g d with
  | nil => simp [grantMaximum, Allowed]
  | cons ace rest ih =>
    rcases ace_cases token ace with hpass | ⟨hlook, htype⟩ | ⟨hlook, htype⟩
    · rw [hpass.grantMaximum, ih, Allowed, Allowed, firstMatch_cons_of_neg (hpass.not_applies i)]
    · have hstep : grantMaximum token (ace :: rest) g d =
          grantMaximum token rest (g ||| (ace.mask &&& ~~~d)) d := by
        simp [grantMaximum, hlook.1, hlook.2, htype]
      rw [hstep, ih, Allowed, Allowed, firstMatch_cons, hlook.applies_iff (.inl htype), htype,
        getLsbD_or, and_not_bit]
      grind
    · have hstep : grantMaximum token (ace :: rest) g d =
          grantMaximum token rest g (d ||| (ace.mask &&& ~~~g)) := by
        simp [grantMaximum, hlook.1, hlook.2, htype]
      rw [hstep, ih, Allowed, Allowed, firstMatch_cons, hlook.applies_iff (.inr htype), htype,
        getLsbD_or, and_not_bit]
      grind

/-- Without it: nothing remains in the end if the entries allow every bit that remains now. -/
theorem clearRemaining_eq_zero (token : Token) (dacl : List Ace) (remaining : AccessMask) :
    clearRemaining token dacl remaining = 0 ↔
      ∀ i, remaining.getLsbD i = true → Allowed (InToken token) dacl i := by
  induction dacl generalizing remaining with
  | nil =>
    rw [clearRemaining, eq_zero_iff]
    simp [Allowed]
  | cons ace rest ih =>
    by_cases hzero : remaining = 0
    · simp [hzero, clearRemaining]
    rcases ace_cases token ace with hpass | ⟨hlook, htype⟩ | ⟨hlook, htype⟩
    · rw [hpass.clearRemaining rest hzero, ih]
      refine forall_congr' fun i => ?_
      rw [Allowed, Allowed, firstMatch_cons_of_neg (hpass.not_applies i)]
    · have hstep : clearRemaining token (ace :: rest) remaining =
          clearRemaining token rest (remaining &&& ~~~ace.mask) := by
        rw [clearRemaining, if_neg hzero]
        simp [hlook.1, hlook.2, htype]
      rw [hstep, ih]
      refine forall_congr' fun i => ?_
      rw [Allowed, Allowed, firstMatch_cons, hlook.applies_iff (.inl htype), htype, and_not_bit]
      grind
    · have hstep : clearRemaining token (ace :: rest) remaining =
          if remaining &&& ace.mask ≠ 0 then remaining else clearRemaining token rest remaining := by
        rw [clearRemaining, if_neg hzero]
        simp [hlook.1, hlook.2, htype]
      rw [hstep]
      by_cases hmask : remaining &&& ace.mask ≠ 0
      · -- the loop leaves with a denied bit in what remains
        rw [if_pos hmask]
        obtain ⟨i, hi⟩ := (ne_zero_iff _).1 hmask
        rw [getLsbD_and, Bool.and_eq_true] at hi
        refine ⟨fun h => absurd h hzero, fun h => ?_⟩
        have hallowed := h i hi.1
        rw [Allowed, firstMatch_cons_of_pos ((hlook.applies_iff (.inr htype) i).2 hi.2), htype] at hallowed
        cases hallowed
      · rw [if_neg hmask, ih]
        rw [not_not, eq_zero_iff] at hmask
        refine forall_congr' fun i => imp_congr_right fun hi => ?_
        have hbit : ¬ ace.mask.getLsbD i = true := by
          have hand := hmask i
          rw [getLsbD_and, hi, Bool.true_and] at hand
          simp [hand]
        rw [Allowed, Allowed, firstMatch_cons_of_neg ((hlook.applies_iff (.inr htype) i).not.2 hbit)]

/-! ### What the steps before the loops carry on -/

/-- What a step returns: whether it succeeds, the bits granted if it does and the status if not. -/
structure Settles (o : Outcome) (succeeds : Prop) (grants : ℕ → Prop) (status : Status) : Prop where
  success_iff : o.success = true ↔ succeeds
  granted : o.success = true →
    o.accessStatus = .success ∧ ∃ mask, o.grantedAccess = some mask ∧ ∀ i, mask.getLsbD i = true ↔ grants i
  refused : o.success = false → o.accessStatus = status

theorem Settles.congr {o : Outcome} {succeeds' : Prop} {grants grants' : ℕ → Prop} {status : Status}
    (h : Settles o succeeds grants status) (hs : succeeds ↔ succeeds') (hg : ∀ i, grants i ↔ grants' i) :
    Settles o succeeds' grants' status where
  success_iff := h.success_iff.trans hs
  granted hok := by
    obtain ⟨hstatus, mask, hmask, hbits⟩ := h.granted hok
    exact ⟨hstatus, mask, hmask, fun i => (hbits i).trans (hg i)⟩
  refused := h.refused

theorem settles_granted (p : Parameters) (s : Progress) {grants : ℕ → Prop}
    (status : Status) (hs : succeeds) (hg : ∀ i, mask.getLsbD i = true ↔ grants i) :
    Settles (granted p s mask) succeeds grants status where
  success_iff := iff_of_true rfl hs
  granted _ := ⟨rfl, mask, rfl, hg⟩
  refused h := by cases h

theorem settles_refused (grants : ℕ → Prop) (status : Status) (mask : Option AccessMask)
    (hs : ¬ succeeds) : Settles (refused status mask) succeeds grants status where
  success_iff := iff_of_false Bool.false_ne_true hs
  granted h := by cases h
  refused _ := rfl

/-- What remains is desired, `MAXIMUM_ALLOWED` with it, and what does not remain of it has been granted. -/
structure Carried (desired : AccessMask) (s : Progress) : Prop where
  desired_of_remaining : ∀ i, s.remaining.getLsbD i = true → desired.getLsbD i = true
  remaining_or_granted : ∀ i, desired.getLsbD i = true →
    s.remaining.getLsbD i = true ∨ (i ≠ 25 ∧ s.previouslyGrantedAccess.getLsbD i = true)

/-- The bits that a step grants from what is granted before it. -/
def StepGrants (token : Token) (dacl : List Ace) (desired previous : AccessMask) (i : ℕ) : Prop :=
  previous.getLsbD i = true ∨ (desired.getLsbD i = true ∧ i ≠ 25) ∨
    (desired.getLsbD 25 = true ∧ Allowed (InToken token) dacl i)

/-- When nothing remains, what has been granted is all there is to grant. -/
theorem Carried.stepGrants_of_remaining_zero {desired : AccessMask}
    (h : Carried desired s) (hzero : s.remaining = 0) (i : ℕ) :
    s.previouslyGrantedAccess.getLsbD i = true ↔
      StepGrants token dacl desired s.previouslyGrantedAccess i := by
  have hnone := (eq_zero_iff _).1 hzero
  have hall := h.remaining_or_granted
  unfold StepGrants
  grind

theorem not_allowed_nil (i : ℕ) : ¬ Allowed contains [] i :=
  not_firstMatch_nil

section Entries

variable {p : Parameters} {dacl : List Ace} {s : Progress}

/-- What the entries are to settle. -/
def EntriesSettle (p : Parameters) (dacl : List Ace) (s : Progress) (o : Outcome) : Prop :=
  Settles o
    ((∀ i, s.remaining.getLsbD i = true → i ≠ 25 → Allowed (InToken p.token) dacl i) ∧
      ∃ i, StepGrants p.token dacl p.desiredAccess s.previouslyGrantedAccess i)
    (StepGrants p.token dacl p.desiredAccess s.previouslyGrantedAccess) .accessDenied

theorem checkEntries_nil (h : Carried p.desiredAccess s) (hne : s.remaining ≠ 0) : EntriesSettle p [] s (checkEntries p [] s) := by
  have hall := h.remaining_or_granted
  have hnot := not_allowed_nil (InToken p.token)
  obtain ⟨k, hk⟩ := (ne_zero_iff _).1 hne
  rw [checkEntries, if_pos rfl]
  by_cases honly : s.remaining = maximumAllowed ∧ s.previouslyGrantedAccess ≠ 0
  · rw [if_pos honly]
    have hbit (i : ℕ) : s.remaining.getLsbD i = true ↔ i = 25 := by simp [honly.1]
    obtain ⟨j, hj⟩ := (ne_zero_iff _).1 honly.2
    refine settles_granted p s _ ⟨fun i hi hi' => absurd ((hbit i).1 hi) hi', j, .inl hj⟩ fun i => ?_
    unfold StepGrants
    grind
  · rw [if_neg honly]
    refine settles_refused _ _ _ fun ⟨hallowed, i, hi⟩ => honly ?_
    have hbit (i : ℕ) (hi : s.remaining.getLsbD i = true) : i = 25 := by
      by_contra hi'
      exact hnot i (hallowed i hi hi')
    refine ⟨BitVec.eq_of_getLsbD_eq fun i _ => ?_, (ne_zero_iff _).2 ⟨i, ?_⟩⟩
    · rw [maximumAllowed_bit]
      grind
    · unfold StepGrants at hi
      grind

theorem checkEntries_maximum (h : Carried p.desiredAccess s) (hdacl : dacl ≠ [])
    (h25 : p.desiredAccess.getLsbD 25 = true) : EntriesSettle p dacl s (checkEntries p dacl s) := by
  have hall := h.remaining_or_granted
  have hgranted (i : ℕ) : (grantMaximum p.token dacl 0 0).getLsbD i = true ↔ Allowed (InToken p.token) dacl i := by
    simp [grantMaximum_bit]
  have hremains (i : ℕ) :
      (s.remaining &&& ~~~(maximumAllowed ||| grantMaximum p.token dacl 0 0)).getLsbD i = true ↔
        s.remaining.getLsbD i = true ∧ i ≠ 25 ∧ ¬ Allowed (InToken p.token) dacl i := by
    rw [and_not_bit, getLsbD_or, ← hgranted]
    simp
  rw [checkEntries, if_neg hdacl, if_pos ((and_ne_zero_iff maximumAllowed_bit _).2 h25)]
  dsimp only
  by_cases hleft : s.remaining &&& ~~~(maximumAllowed ||| grantMaximum p.token dacl 0 0) ≠ 0
  · rw [if_pos hleft]
    obtain ⟨i, hi⟩ := (ne_zero_iff _).1 hleft
    obtain ⟨hi, hi', hnot⟩ := (hremains i).1 hi
    exact settles_refused _ _ _ fun hs => hnot (hs.1 i hi hi')
  · rw [if_neg hleft]
    have hnone : ∀ i, s.remaining.getLsbD i = true → i ≠ 25 → Allowed (InToken p.token) dacl i := by
      intro i hi hi'
      by_contra hnot
      exact hleft ((ne_zero_iff _).2 ⟨i, (hremains i).2 ⟨hi, hi', hnot⟩⟩)
    have hbits (i : ℕ) :
        (grantMaximum p.token dacl 0 0 ||| s.previouslyGrantedAccess).getLsbD i = true ↔
          StepGrants p.token dacl p.desiredAccess s.previouslyGrantedAccess i := by
      rw [getLsbD_or, Bool.or_eq_true, hgranted]
      unfold StepGrants
      grind
    by_cases hsome : grantMaximum p.token dacl 0 0 ||| s.previouslyGrantedAccess ≠ 0
    · rw [if_pos hsome]
      obtain ⟨i, hi⟩ := (ne_zero_iff _).1 hsome
      exact settles_granted p s _ ⟨hnone, i, (hbits i).1 hi⟩ hbits
    · rw [if_neg hsome]
      exact settles_refused _ _ _ fun ⟨_, i, hi⟩ => hsome ((ne_zero_iff _).2 ⟨i, (hbits i).2 hi⟩)

theorem checkEntries_required (h : Carried p.desiredAccess s) (hne : s.remaining ≠ 0) (hdacl : dacl ≠ [])
    (h25 : ¬ p.desiredAccess.getLsbD 25 = true) : EntriesSettle p dacl s (checkEntries p dacl s) := by
  have hsub := h.desired_of_remaining
  have hne25 (i : ℕ) (hi : p.desiredAccess.getLsbD i = true) : i ≠ 25 := by
    rintro rfl
    exact h25 hi
  obtain ⟨k, hk⟩ := (ne_zero_iff _).1 hne
  rw [checkEntries, if_neg hdacl, if_neg ((and_ne_zero_iff maximumAllowed_bit _).not.2 h25)]
  by_cases hleft : clearRemaining p.token dacl s.remaining ≠ 0
  · rw [if_pos hleft]
    exact settles_refused _ _ _ fun hs =>
      hleft ((clearRemaining_eq_zero ..).2 fun i hi => hs.1 i hi (hne25 i (hsub i hi)))
  · rw [if_neg hleft]
    rw [not_not, clearRemaining_eq_zero] at hleft
    have hsome : p.desiredAccess ||| s.previouslyGrantedAccess ≠ 0 :=
      (ne_zero_iff _).2 ⟨k, by rw [getLsbD_or, hsub k hk, Bool.true_or]⟩
    rw [if_neg hsome]
    refine settles_granted p s _ ⟨fun i hi _ => hleft i hi,
      k, .inr (.inl ⟨hsub k hk, hne25 k (hsub k hk)⟩)⟩ fun i => ?_
    rw [getLsbD_or]
    unfold StepGrants
    grind

theorem checkEntries_settles (dacl : List Ace) (h : Carried p.desiredAccess s) (hne : s.remaining ≠ 0) :
    EntriesSettle p dacl s (checkEntries p dacl s) := by
  by_cases hdacl : dacl = []
  · subst hdacl
    exact checkEntries_nil h hne
  by_cases h25 : p.desiredAccess.getLsbD 25 = true
  · exact checkEntries_maximum h hdacl h25
  · exact checkEntries_required h hne hdacl h25

end Entries

/-! ### The privileges -/

section Privileges

variable {k : ℕ} (hmask : ∀ i, mask.getLsbD i = decide (i = k)) (hk : k ≠ 25)
include hmask hk

/-- A desired bit is granted in the end, whether or not it has been granted before. -/
theorem stepGrants_or (token : Token) (dacl : List Ace) {desired : AccessMask} (hdesired : desired.getLsbD k = true)
    (previous : AccessMask) (i : ℕ) :
    StepGrants token dacl desired (previous ||| mask) i ↔ StepGrants token dacl desired previous i := by
  unfold StepGrants
  rw [getLsbD_or, hmask]
  grind

theorem Carried.move {desired : AccessMask} (h : Carried desired s) (sys own : Bool) :
    Carried desired ⟨s.remaining &&& ~~~mask, s.previouslyGrantedAccess ||| mask, sys, own⟩ := by
  have hsub := h.desired_of_remaining
  have hall := h.remaining_or_granted
  constructor
  · intro i hi
    rw [and_not_bit] at hi
    grind
  · intro i hi
    rw [and_not_bit, getLsbD_or, hmask]
    grind

end Privileges

section Settles

variable (hmode : p.previousMode = .userMode) (hpresent : p.privilegesPresent = true)
include hmode hpresent

/-- What `SepAccessCheck` settles from the test for `WRITE_OWNER` on. -/
theorem checkWriteOwner_settles (dacl : List Ace) (h : Carried p.desiredAccess s) (hne : s.remaining ≠ 0) :
    Settles (checkWriteOwner p dacl s)
      ((∀ i, s.remaining.getLsbD i = true → i ≠ 25 →
          Allowed (InToken p.token) dacl i ∨ (i = 19 ∧ Held seTakeOwnershipPrivilege p.token)) ∧
        ∃ i, StepGrants p.token dacl p.desiredAccess s.previouslyGrantedAccess i)
      (StepGrants p.token dacl p.desiredAccess s.previouslyGrantedAccess) .accessDenied := by
  have htest := and_ne_zero_iff writeOwner_bit s.remaining
  have hheld := sepSinglePrivilegeCheck_iff hmode seTakeOwnershipPrivilege
  rw [checkWriteOwner]
  by_cases hown : s.remaining.getLsbD 19 = true ∧ Held seTakeOwnershipPrivilege p.token
  · rw [if_pos ⟨htest.2 hown.1, hpresent, hheld.2 hown.2⟩]
    have hmove := h.move writeOwner_bit (by decide) s.systemSecurity true
    have h19 := h.desired_of_remaining 19 hown.1
    have hgrants := stepGrants_or writeOwner_bit (by decide) p.token dacl h19 s.previouslyGrantedAccess
    dsimp only
    by_cases hzero : s.remaining &&& ~~~writeOwner = 0
    · rw [if_pos hzero]
      refine settles_granted p _ _ ⟨fun i hi _ => .inr ⟨eq_of_and_not_eq_zero writeOwner_bit hzero hi, hown.2⟩, 19,
        .inr (.inl ⟨h19, by decide⟩)⟩ fun i => ?_
      exact (hmove.stepGrants_of_remaining_zero hzero i).trans (hgrants i)
    · rw [if_neg hzero]
      refine (checkEntries_settles dacl hmove hzero).congr ?_ hgrants
      simp only [and_not_bit_iff writeOwner_bit, hgrants]
      grind
  · rw [if_neg fun hif => hown ⟨htest.1 hif.1, hheld.1 hif.2.2⟩]
    refine (checkEntries_settles dacl h hne).congr ?_ fun i => Iff.rfl
    refine and_congr_left fun _ => forall_congr' fun i => ?_
    grind

variable {descriptor : SecurityDescriptor} (previous : AccessMask) (hdaclPresent : descriptor.daclPresent = true)
  (hdacl : descriptor.dacl = some dacl) (hne : p.desiredAccess ≠ 0)
include hdaclPresent hdacl hne

/-- What `SepAccessCheck` settles for a DACL. -/
theorem sepAccessCheck_settles :
    Settles (sepAccessCheck p descriptor previous)
      ((∀ i, p.desiredAccess.getLsbD i = true → i ≠ 25 →
          (i ≠ 24 ∧ Allowed (InToken p.token) dacl i) ∨ (i = 24 ∧ Held seSecurityPrivilege p.token) ∨
            (i = 19 ∧ Held seTakeOwnershipPrivilege p.token)) ∧
        ∃ i, StepGrants p.token dacl p.desiredAccess previous i)
      (StepGrants p.token dacl p.desiredAccess previous)
      (if p.desiredAccess.getLsbD 24 = true ∧ ¬ Held seSecurityPrivilege p.token then .privilegeNotHeld
       else .accessDenied) := by
  have hheld := sepSinglePrivilegeCheck_iff hmode seSecurityPrivilege
  have hstart : Carried p.desiredAccess ⟨p.desiredAccess, previous, false, false⟩ :=
    ⟨fun _ hi => hi, fun _ hi => .inl hi⟩
  have hcheck (s : Progress) : checkDacl p descriptor s = checkWriteOwner p dacl s := by
    rw [checkDacl, hdaclPresent, hdacl]
  rw [sepAccessCheck]
  by_cases h24 : p.desiredAccess.getLsbD 24 = true
  · rw [if_pos ((and_ne_zero_iff accessSystemSecurity_bit _).2 h24)]
    by_cases hsec : Held seSecurityPrivilege p.token
    · have hstatus : ¬ (p.desiredAccess.getLsbD 24 = true ∧ ¬ Held seSecurityPrivilege p.token) :=
        fun hif => hif.2 hsec
      rw [if_pos (hheld.2 hsec), if_neg hstatus]
      have hmove := hstart.move accessSystemSecurity_bit (by decide) true false
      have hgrants := stepGrants_or accessSystemSecurity_bit (by decide) p.token dacl h24 previous
      dsimp only
      by_cases hzero : p.desiredAccess &&& ~~~accessSystemSecurity = 0
      · rw [if_pos hzero]
        refine settles_granted p _ _ ⟨fun i hi _ =>
          .inr (.inl ⟨eq_of_and_not_eq_zero accessSystemSecurity_bit hzero hi, hsec⟩), 24,
          .inr (.inl ⟨h24, by decide⟩)⟩ fun i => ?_
        exact (hmove.stepGrants_of_remaining_zero hzero i).trans (hgrants i)
      · rw [if_neg hzero, hcheck]
        refine (checkWriteOwner_settles hmode hpresent dacl hmove hzero).congr ?_ hgrants
        simp only [and_not_bit_iff accessSystemSecurity_bit, hgrants]
        grind
    · rw [if_neg fun hif => hsec (hheld.1 hif), if_pos ⟨h24, hsec⟩]
      refine settles_refused _ _ _ fun hs => ?_
      have := hs.1 24 h24 (by decide)
      grind
  · rw [if_neg fun hif => h24 ((and_ne_zero_iff accessSystemSecurity_bit _).1 hif),
      if_neg fun hif => h24 hif.1, hcheck]
    refine (checkWriteOwner_settles hmode hpresent dacl hstart hne).congr ?_ fun i => Iff.rfl
    refine and_congr_left fun _ => forall_congr' fun i => ?_
    grind

/-! ### The owner -/

theorem checkOwner_settles :
    let c : Case := ⟨InToken p.token, Held seSecurityPrivilege p.token, Held seTakeOwnershipPrivilege p.token,
      descriptor.owner, dacl, p.desiredAccess, previous⟩
    Settles (checkOwner p descriptor previous) c.Succeeds c.Grants
      (if p.desiredAccess.getLsbD 24 = true ∧ ¬ Held seSecurityPrivilege p.token then .privilegeNotHeld
       else .accessDenied) := by
  intro c
  have howner : sepTokenIsOwner p.token descriptor = true ↔ c.contains c.owner := sepSidInToken_iff ..
  have htest : p.desiredAccess &&& (writeDac ||| readControl ||| maximumAllowed) ≠ 0 ↔
      p.desiredAccess.getLsbD 17 = true ∨ p.desiredAccess.getLsbD 18 = true ∨
        p.desiredAccess.getLsbD 25 = true := by
    rw [ne_zero_iff]
    simp only [getLsbD_and, getLsbD_or, readControl_bit, writeDac_bit, maximumAllowed_bit]
    grind
  rw [checkOwner]
  by_cases hif : p.desiredAccess &&& (writeDac ||| readControl ||| maximumAllowed) ≠ 0 ∧
      sepTokenIsOwner p.token descriptor = true
  · simp only [if_pos hif]
    set prev := if p.desiredAccess &&& maximumAllowed ≠ 0 then previous ||| (writeDac ||| readControl)
      else previous ||| (p.desiredAccess &&& (writeDac ||| readControl)) with hprev
    have hdesired (i : ℕ) : (p.desiredAccess &&& ~~~(writeDac ||| readControl)).getLsbD i = true ↔
        p.desiredAccess.getLsbD i = true ∧ i ≠ 17 ∧ i ≠ 18 := by
      rw [and_not_bit, getLsbD_or, readControl_bit, writeDac_bit]
      grind
    have hprevBit (i : ℕ) : prev.getLsbD i = true ↔ previous.getLsbD i = true ∨
        ((i = 17 ∨ i = 18) ∧ (p.desiredAccess.getLsbD 25 = true ∨ p.desiredAccess.getLsbD i = true)) := by
      rw [hprev]
      by_cases h25 : p.desiredAccess.getLsbD 25 = true
      · rw [if_pos ((and_ne_zero_iff maximumAllowed_bit _).2 h25), getLsbD_or, getLsbD_or,
          readControl_bit, writeDac_bit]
        grind
      · rw [if_neg ((and_ne_zero_iff maximumAllowed_bit _).not.2 h25), getLsbD_or, getLsbD_and,
          getLsbD_or, readControl_bit, writeDac_bit]
        grind
    have hgrants (i : ℕ) : StepGrants p.token dacl (p.desiredAccess &&& ~~~(writeDac ||| readControl)) prev i ↔ c.Grants i := by
      unfold StepGrants Case.Grants
      rw [hprevBit, hdesired, hdesired]
      grind
    have h24 : (p.desiredAccess &&& ~~~(writeDac ||| readControl)).getLsbD 24 = p.desiredAccess.getLsbD 24 := by
      rw [Bool.eq_iff_iff, hdesired]
      simp
    by_cases hzero : p.desiredAccess &&& ~~~(writeDac ||| readControl) = 0
    · rw [if_pos hzero]
      have hnone := (eq_zero_iff _).1 hzero
      have hbits (i : ℕ) : prev.getLsbD i = true ↔ c.Grants i := by
        rw [← hgrants, StepGrants, hnone i, hnone 25]
        simp
      have hsucceeds : c.Succeeds := by
        obtain ⟨k, hk⟩ := (ne_zero_iff _).1 hne
        unfold Case.Succeeds Case.Permits Case.Grants
        grind
      exact ⟨iff_of_true rfl hsucceeds, fun _ => ⟨rfl, prev, rfl, hbits⟩, fun h => by cases h⟩
    · rw [if_neg hzero]
      have hsettles := sepAccessCheck_settles (p := { p with
        desiredAccess := p.desiredAccess &&& ~~~(writeDac ||| readControl) }) hmode hpresent prev
        hdaclPresent hdacl hzero
      dsimp only at hsettles
      rw [h24] at hsettles
      refine hsettles.congr (and_congr ?_ (exists_congr hgrants)) hgrants
      refine forall_congr' fun i => ?_
      rw [hdesired]
      unfold Case.Permits
      grind
  · simp only [if_neg hif, if_neg hne]
    have hgrants (i : ℕ) : StepGrants p.token dacl p.desiredAccess previous i ↔ c.Grants i := by
      unfold Case.Grants StepGrants
      grind
    refine (sepAccessCheck_settles hmode hpresent previous hdaclPresent hdacl hne).congr
      (and_congr ?_ (exists_congr hgrants)) hgrants
    refine forall_congr' fun i => ?_
    unfold Case.Permits
    grind

end Settles

/-! ### The whole call -/

/-- **An access check is exact.** For a user mode call with a DACL and a desired access, `SeAccessCheck`
succeeds if all that is desired is permitted and something is granted; it then grants what is to be
granted, and otherwise says whether it was the security privilege that was not held. -/
theorem seAccessCheck_exact (descriptor : SecurityDescriptor) (dacl : List Ace) (context : SecuritySubjectContext)
    (desired previous genericAll : AccessMask) (poolAvailable : Bool)
    (hdaclPresent : descriptor.daclPresent = true) (hdacl : descriptor.dacl = some dacl)
    (hlevel : context.clientToken.isSome →
      SecurityImpersonationLevel.securityImpersonation.toNat ≤ context.impersonationLevel.toNat)
    (hdesired : desired ≠ 0) :
    let token := context.effectiveToken
    let c : Case := ⟨InToken token, Held seSecurityPrivilege token, Held seTakeOwnershipPrivilege token,
      descriptor.owner, dacl, desired, previous⟩
    ∃ o, seAccessCheck (some descriptor) context desired previous genericAll true .userMode poolAvailable = .ok o ∧
      (o.success = true ↔ c.Succeeds) ∧
      (o.success = true → o.accessStatus = .success ∧
        ∃ mask, o.grantedAccess = some mask ∧ ∀ i, mask.getLsbD i = true ↔ c.Grants i) ∧
      (o.success = false → o.accessStatus =
        if desired.getLsbD 24 = true ∧ ¬ Held seSecurityPrivilege token then .privilegeNotHeld
        else .accessDenied) := by
  intro token c
  have hsettles := checkOwner_settles (p := ⟨token, desired, genericAll, .userMode, true, poolAvailable⟩)
    rfl rfl previous hdaclPresent hdacl hdesired
  refine ⟨_, ?_, hsettles.success_iff, hsettles.granted, hsettles.refused⟩
  have himpersonates : ¬ (context.clientToken.isSome = true ∧ context.impersonationLevel.toNat <
      SecurityImpersonationLevel.securityImpersonation.toNat) :=
    fun h => absurd (hlevel h.1) (Nat.not_le.2 h.2)
  simp only [seAccessCheck, checkSubject, if_neg himpersonates, if_neg hdesired]
  rfl

/-- A user and a group. -/
def userSid : Sid := ⟨1, 5, [21, 1000]⟩
def groupSid : Sid := ⟨1, 5, [32, 544]⟩

/-- An object of another owner, which the group may have access `1` to. -/
def groupObject : SecurityDescriptor where
  owner := ⟨1, 5, [18]⟩
  daclPresent := true
  dacl := some [⟨.accessDenied, 0, 2, userSid⟩, ⟨.accessAllowed, 0, 3, groupSid⟩]

/-- A subject that lists the group in these entries. -/
def memberOf (attributes : List (BitVec 32)) : SecuritySubjectContext where
  clientToken := none
  impersonationLevel := .securityAnonymous
  primaryToken := ⟨⟨userSid, 7⟩ :: attributes.map (⟨groupSid, ·⟩), []⟩

/-- A member of the group asks for as much as is allowed, and gets the one access. -/
theorem seAccessCheck_exact_member :
    ∃ o, seAccessCheck (some groupObject) (memberOf [7]) maximumAllowed 0 0 true .userMode true = .ok o ∧
      o.success = true ∧ o.grantedAccess = some 1 := by
  obtain ⟨o, ho, -⟩ := seAccessCheck_exact groupObject _ (memberOf [7]) maximumAllowed 0 0 true rfl rfl
    (fun h => by cases h) (by decide)
  refine ⟨o, ho, ?_⟩
  have heval : seAccessCheck (some groupObject) (memberOf [7]) maximumAllowed 0 0 true .userMode true =
      .ok ⟨true, .success, some 1, none⟩ := by decide
  obtain rfl := Except.ok.inj (ho.symm.trans heval)
  exact ⟨rfl, rfl⟩

/-- An object whose DACL gives the user `ACCESS_SYSTEM_SECURITY`. -/
def auditedObject : SecurityDescriptor where
  owner := ⟨1, 5, [18]⟩
  daclPresent := true
  dacl := some [⟨.accessAllowed, 0, accessSystemSecurity, userSid⟩]

/-- **A group listed twice.** The token lists the group as disabled and then as enabled. The group is one of its
enabled groups and the DACL allows it the access, but the check stops at the disabled entry. **A bit that no entry
gives**: the user is allowed `ACCESS_SYSTEM_SECURITY`, and refused it for want of the privilege. -/
theorem seAccessCheck_group_twice :
    let context := memberOf [0, 7]
    let token := context.effectiveToken
    let c : Case := ⟨Listed token, Held seSecurityPrivilege token, Held seTakeOwnershipPrivilege token,
      groupObject.owner, groupObject.dacl.getD [], 1, 0⟩
    (c.Succeeds ∧
      seAccessCheck (some groupObject) context 1 0 0 true .userMode true = .ok (refused .accessDenied (some 0))) ∧
    Allowed (Listed token) (auditedObject.dacl.getD []) 24 ∧
      seAccessCheck (some auditedObject) context accessSystemSecurity 0 0 true .userMode true =
        .ok (refused .privilegeNotHeld none) := by
  intro context token c
  have hlisted : Listed token groupSid := ⟨(⟨groupSid, 7⟩, 2), by decide, rfl, .inr (by decide)⟩
  have huser : Listed token userSid := ⟨(⟨userSid, 7⟩, 0), by decide, rfl, .inl rfl⟩
  have hallowed : Allowed (Listed token) (groupObject.dacl.getD []) 0 := by
    have hdeny : ¬ Applies (Listed token) 0 ⟨.accessDenied, 0, 2, userSid⟩ := fun h => absurd h.2.2.2 (by decide)
    have hallow : Applies (Listed token) 0 ⟨.accessAllowed, 0, 3, groupSid⟩ :=
      ⟨by decide, .inl rfl, hlisted, by decide⟩
    exact (firstMatch_cons_of_neg hdeny).2 ((firstMatch_cons_of_pos hallow).2 rfl)
  refine ⟨⟨⟨fun i hi _ => ?_, 0, .inr (.inl ⟨by decide, by decide⟩)⟩, by decide⟩, ?_, by decide⟩
  · have hbit : (1 : AccessMask).getLsbD i = true := hi
    obtain rfl : i = 0 := by simpa using hbit
    exact .inl ⟨by decide, hallowed⟩
  · exact (firstMatch_cons_of_pos ⟨by decide, .inl rfl, huser, by decide⟩).2 rfl

end AccessCheck

end Nt365.Se
