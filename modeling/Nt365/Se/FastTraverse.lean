import Nt365.Se.AccessCheckExact

/-!
# The fast traverse check

`SeFastTraverseCheck` (`SE/ACCESSCK.C`) is to spare a full access check where everyone may traverse a directory. It looks
at the entries for the World SID only, and stops at the first that has any bit of the access. The full check goes by the
entries before that one, too, and needs every bit (`WorldEntry.allowed_iff`): an entry that denies the access to another SID of
the token, a bit that World's entry lacks and the like (`Refusal`) are not seen (`seFastTraverseCheck_sound_iff`).
-/

namespace Nt365.Se

open Nt365.Library

namespace AccessCheck

def seWorldSid : Sid := ⟨1, 1, [0]⟩

variable (traverseAccess : AccessMask)

/-- The loop of `SeFastTraverseCheck`. -/
def worldMayTraverse : List Ace → Bool
  | [] => false
  | ace :: rest =>
    if ace.inheritOnly then worldMayTraverse rest
    else match ace.aceType with
      | .accessAllowed => if traverseAccess &&& ace.mask ≠ 0 ∧ ace.sid = seWorldSid then true else worldMayTraverse rest
      | .accessDenied => if traverseAccess &&& ace.mask ≠ 0 ∧ ace.sid = seWorldSid then false else worldMayTraverse rest
      | .other _ => worldMayTraverse rest

def seFastTraverseCheck (descriptor : Option SecurityDescriptor) (accessMode : ProcessorMode) : Bool :=
  match accessMode, descriptor with
  | .kernelMode, _ => true
  | .userMode, none => false
  | .userMode, some descriptor =>
    match descriptor.daclPresent, descriptor.dacl with
    | true, some dacl => worldMayTraverse traverseAccess dacl
    | _, _ => true

/-- The entry is for World and has a bit of the access. -/
def ForWorld (ace : Ace) : Prop :=
  ace.inheritOnly = false ∧ (ace.aceType = .accessAllowed ∨ ace.aceType = .accessDenied) ∧ traverseAccess &&& ace.mask ≠ 0 ∧
    ace.sid = seWorldSid

theorem worldMayTraverse_iff (dacl : List Ace) :
    worldMayTraverse traverseAccess dacl = true ↔ FirstMatch (ForWorld traverseAccess)
    (fun ace => ace.aceType = .accessAllowed) dacl := by
  induction dacl with
  | nil => simp [worldMayTraverse]
  | cons ace rest ih =>
    rw [worldMayTraverse, firstMatch_cons, ← ih, ForWorld]
    cases hinherit : ace.inheritOnly with
    | true => simp
    | false => cases htype : ace.aceType <;> simp <;> grind

section NoDacl

variable {p : Parameters} {descriptor : SecurityDescriptor} (hmode : p.previousMode = .userMode)
  (hdacl : ¬(descriptor.daclPresent = true ∧ descriptor.dacl.isSome = true)) (previous : AccessMask)
include hmode hdacl

theorem sepAccessCheck_success_of_no_dacl :
    (sepAccessCheck p descriptor previous).success = true ↔
    (p.desiredAccess.getLsbD 24 = true → Held seSecurityPrivilege p.token) := by
  have hcheck (s : Progress) : (checkDacl p descriptor s).success = true := by
    unfold checkDacl
    split
    · simp_all
    · rfl
  have hheld := sepSinglePrivilegeCheck_iff hmode seSecurityPrivilege
  rw [sepAccessCheck]
  by_cases h24 : p.desiredAccess.getLsbD 24 = true
  · rw [if_pos ((and_ne_zero_iff accessSystemSecurity_bit _).2 h24)]
    by_cases hsec : Held seSecurityPrivilege p.token
    · rw [if_pos (hheld.2 hsec)]
      refine iff_of_true ?_ fun _ => hsec
      dsimp only
      split_ifs
      · rfl
      · exact hcheck _
    · rw [if_neg fun h => hsec (hheld.1 h)]
      exact iff_of_false Bool.false_ne_true fun h => hsec (h h24)
  · rw [if_neg fun h => h24 ((and_ne_zero_iff accessSystemSecurity_bit _).1 h)]
    exact iff_of_true (hcheck _) fun h => absurd h h24

/-- Where no DACL protects an object, an access is granted unless it wants a privilege that is not held. -/
theorem checkOwner_success_of_no_dacl :
    (checkOwner p descriptor previous).success = true ↔
    (p.desiredAccess.getLsbD 24 = true → Held seSecurityPrivilege p.token) := by
  rw [checkOwner]
  set desired := if p.desiredAccess &&& (writeDac ||| readControl ||| maximumAllowed) ≠ 0 ∧
    sepTokenIsOwner p.token descriptor = true
    then p.desiredAccess &&& ~~~(writeDac ||| readControl) else p.desiredAccess with hdesired
  have hbit : desired.getLsbD 24 = p.desiredAccess.getLsbD 24 := by
    rw [hdesired]
    split_ifs
    · rw [and_not_bit, BitVec.getLsbD_or, writeDac_bit, readControl_bit]
      simp
    · rfl
  by_cases hzero : desired = 0
  · rw [if_pos hzero, ← hbit, hzero]
    simp
  · rw [if_neg hzero, sepAccessCheck_success_of_no_dacl (by exact hmode) hdacl, hbit]

end NoDacl

/-- The subject impersonates a client, at a level at which it may not act for it. -/
def SecuritySubjectContext.Powerless (context : SecuritySubjectContext) : Prop :=
  context.clientToken.isSome = true ∧ context.impersonationLevel.toNat < SecurityImpersonationLevel.securityImpersonation.toNat

/-- World, or everyone for want of a DACL, is given a bit of the access before it is denied one. -/
def OpenToWorld (descriptor : SecurityDescriptor) : Prop :=
  ∀ dacl, descriptor.daclPresent = true → descriptor.dacl = some dacl →
    FirstMatch (ForWorld traverseAccess) (fun ace => ace.aceType = .accessAllowed) dacl

theorem seFastTraverseCheck_iff (descriptor : SecurityDescriptor) :
    seFastTraverseCheck traverseAccess (some descriptor) .userMode = true ↔ OpenToWorld traverseAccess descriptor := by
  rw [seFastTraverseCheck, OpenToWorld]
  split
  · simp_all [worldMayTraverse_iff]
  · simp_all

/-- The DACL allows World a bit of the access by `ace`, and does not deny it one before. -/
structure WorldEntry (descriptor : SecurityDescriptor) (before : List Ace) (ace : Ace) (after : List Ace) : Prop where
  present : descriptor.daclPresent = true
  dacl : descriptor.dacl = some (before ++ ace :: after)
  before : ∀ r ∈ before, ¬ForWorld traverseAccess r
  forWorld : ForWorld traverseAccess ace
  allows : ace.aceType = .accessAllowed

theorem OpenToWorld.cases {descriptor : SecurityDescriptor} (h : OpenToWorld traverseAccess descriptor) :
    (∃ before ace after, WorldEntry traverseAccess descriptor before ace after) ∨
      ¬(descriptor.daclPresent = true ∧ descriptor.dacl.isSome = true) := by
  by_cases hdacl : descriptor.daclPresent = true ∧ descriptor.dacl.isSome = true
  · obtain ⟨dacl, hsome⟩ := Option.isSome_iff_exists.1 hdacl.2
    obtain ⟨before, ace, after, rfl, hbefore, hworld, hallows⟩ := h dacl hdacl.1 hsome
    exact .inl ⟨before, ace, after, hdacl.1, hsome, hbefore, hworld, hallows⟩
  · exact .inr hdacl

/-- The bit is one that the subject has as the owner or by a privilege. -/
def Exempt (descriptor : SecurityDescriptor) (token : Token) (i : ℕ) : Prop :=
  ((i = 17 ∨ i = 18) ∧ InToken token descriptor.owner) ∨ (i = 19 ∧ Held seTakeOwnershipPrivilege token)

/-- The bit is asked for, and it is for the DACL to give. -/
def Sought (descriptor : SecurityDescriptor) (token : Token) (i : ℕ) : Prop :=
  traverseAccess.getLsbD i = true ∧ i ≠ 24 ∧ i ≠ 25 ∧ ¬Exempt descriptor token i

/-- **Why** an access that is open to World is refused all the same. -/
inductive Refusal (descriptor : SecurityDescriptor) (context : SecuritySubjectContext) : Prop
  /-- No access is asked for. -/
  | nothing (h : traverseAccess = 0)
  | powerless (h : context.Powerless)
  /-- `ACCESS_SYSTEM_SECURITY` is not for the DACL to give. -/
  | privilege (h : traverseAccess.getLsbD 24 = true) (hheld : ¬Held seSecurityPrivilege context.effectiveToken)
  /-- An earlier entry denies another SID of the token a bit that World is allowed. -/
  | denied {before after : List Ace} {ace : Ace} (h : WorldEntry traverseAccess descriptor before ace after) {i : ℕ}
      (hsought : Sought traverseAccess descriptor context.effectiveToken i) (hmask : ace.mask.getLsbD i = true)
      (hdenied : FirstMatch (Applies (InToken context.effectiveToken) i) (fun r => r.aceType ≠ .accessAllowed) before)
  /-- World's entry lacks a bit, which the other entries do not allow. -/
  | lacking {before after : List Ace} {ace : Ace} (h : WorldEntry traverseAccess descriptor before ace after) {i : ℕ}
      (hsought : Sought traverseAccess descriptor context.effectiveToken i) (hmask : ace.mask.getLsbD i = false)
      (hnot : ¬Allowed (InToken context.effectiveToken) (before ++ after) i)
  /-- As much as is allowed is asked for, and that is nothing. -/
  | maximum {before after : List Ace} {ace : Ace} (h : WorldEntry traverseAccess descriptor before ace after)
      (honly : traverseAccess = maximumAllowed) (howner : ¬InToken context.effectiveToken descriptor.owner)
      (hnone : ∀ i, ¬Allowed (InToken context.effectiveToken) (before ++ ace :: after) i)

section Walks

variable {traverseAccess} {descriptor : SecurityDescriptor} {before after : List Ace} {ace : Ace} {token : Token} {i : ℕ}
  (h : WorldEntry traverseAccess descriptor before ace after)
include h

theorem WorldEntry.applies_iff (hworld : InToken token seWorldSid) :
    Applies (InToken token) i ace ↔ ace.mask.getLsbD i = true := by
  simp [Applies, h.forWorld.1, h.forWorld.2.1, h.forWorld.2.2.2, hworld]

/-- **The two walks**: at a bit of World's entry the full check goes by the entries before it, and at another by all the others. -/
theorem WorldEntry.allowed_iff (hworld : InToken token seWorldSid) : Allowed (InToken token) (before ++ ace :: after) i ↔
    (ace.mask.getLsbD i = true → ¬FirstMatch (Applies (InToken token) i) (fun r => r.aceType ≠ .accessAllowed) before) ∧
      (ace.mask.getLsbD i = false → Allowed (InToken token) (before ++ after) i) := by
  unfold Allowed
  cases hmask : ace.mask.getLsbD i with
  | true =>
    rw [firstMatch_append_cons_of_pos ((h.applies_iff hworld).2 hmask) h.allows]
    simp
  | false =>
    rw [firstMatch_append_cons_of_neg fun happ => Bool.false_ne_true (hmask.symm.trans ((h.applies_iff hworld).1 happ))]
    simp

/-- What the full check comes to, with the bits sorted. -/
theorem WorldEntry.success_iff (hne : traverseAccess ≠ 0) (genericAll : AccessMask) (poolAvailable : Bool) :
    (checkOwner ⟨token, traverseAccess, genericAll, .userMode, true, poolAvailable⟩ descriptor 0).success = true ↔
      (traverseAccess.getLsbD 24 = true → Held seSecurityPrivilege token) ∧
      (∀ i, Sought traverseAccess descriptor token i → Allowed (InToken token) (before ++ ace :: after) i) ∧
      (traverseAccess = maximumAllowed → InToken token descriptor.owner ∨
        ∃ i, Allowed (InToken token) (before ++ ace :: after) i) := by
  refine (checkOwner_settles rfl rfl 0 h.present h.dacl hne).success_iff.trans ⟨?_, ?_⟩
  · rintro ⟨hpermits, i, hgrants⟩
    refine ⟨fun h24 => ?_, fun i ⟨hi, h24, h25, hexempt⟩ => ?_, ?_⟩
    · have := hpermits 24 h24 (by decide)
      simpa [Case.Permits] using this
    · rcases hpermits i hi h25 with hallowed | howner | hheld | hheld
      · exact hallowed.2
      · exact absurd (.inl howner) hexempt
      · exact absurd hheld.1 h24
      · exact absurd (.inr hheld) hexempt
    · rintro rfl
      rcases hgrants with hprevious | hdesired | ⟨-, hallowed | howner⟩
      · simp at hprevious
      · rw [maximumAllowed_bit, decide_eq_true_iff] at hdesired
        exact absurd hdesired.1 hdesired.2
      · exact .inr ⟨i, hallowed⟩
      · exact .inl howner.2
  · rintro ⟨h24, hsought, hmaximum⟩
    refine ⟨fun i hi h25 => ?_, ?_⟩
    · by_cases heq : i = 24
      · subst heq
        exact .inr (.inr (.inl ⟨rfl, h24 hi⟩))
      · by_cases hexempt : Exempt descriptor token i
        · exact hexempt.elim (fun h => .inr (.inl h)) fun h => .inr (.inr (.inr h))
        · exact .inl ⟨heq, hsought i ⟨hi, heq, h25, hexempt⟩⟩
    · by_cases hother : ∃ i, traverseAccess.getLsbD i = true ∧ i ≠ 25
      · obtain ⟨i, hi⟩ := hother
        exact ⟨i, .inr (.inl hi)⟩
      · push Not at hother
        obtain ⟨k, hk⟩ := (ne_zero_iff _).1 hne
        obtain rfl := hother k hk
        have honly : traverseAccess = maximumAllowed := by
          refine BitVec.eq_of_getLsbD_eq fun i _ => ?_
          rw [maximumAllowed_bit, Bool.eq_iff_iff, decide_eq_true_iff]
          exact ⟨hother i, fun h => h ▸ hk⟩
        rcases hmaximum honly with howner | ⟨i, hallowed⟩
        · exact ⟨17, .inr (.inr ⟨hk, .inr ⟨.inl rfl, howner⟩⟩)⟩
        · exact ⟨i, .inr (.inr ⟨hk, .inl hallowed⟩)⟩

end Walks

/-- **The shortcut is sound** exactly where none of the reasons to refuse the access is there. -/
theorem seFastTraverseCheck_sound_iff (descriptor : SecurityDescriptor) (context : SecuritySubjectContext)
    (hworld : sepSidInToken context.effectiveToken seWorldSid = true) (genericAll : AccessMask) (poolAvailable : Bool) :
    (seFastTraverseCheck traverseAccess (some descriptor) .userMode = true →
      ∃ o, seAccessCheck (some descriptor) context traverseAccess 0 genericAll true .userMode poolAvailable = .ok o ∧
        o.success = true) ↔
    (OpenToWorld traverseAccess descriptor → ¬Refusal traverseAccess descriptor context) := by
  rw [seFastTraverseCheck_iff]
  rw [sepSidInToken_iff] at hworld
  refine imp_congr_right fun hopen => ?_
  have hrun : seAccessCheck (some descriptor) context traverseAccess 0 genericAll true .userMode poolAvailable =
      checkSubject (some descriptor) context ⟨context.effectiveToken, traverseAccess, genericAll, .userMode, true,
        poolAvailable⟩ 0 := rfl
  rw [hrun, checkSubject]
  dsimp only
  rw [if_pos (rfl : (0 : AccessMask) = 0)]
  split_ifs with hpowerless hzero
  · simpa [refused] using Refusal.powerless hpowerless
  · simpa [refused] using Refusal.nothing hzero
  simp only [Except.ok.injEq, exists_eq_left']
  constructor
  · intro hsuccess hrefusal
    cases hrefusal with
    | nothing h => exact hzero h
    | powerless h => exact hpowerless h
    | privilege h hheld =>
      rcases hopen.cases with ⟨_, _, _, hentry⟩ | hno
      · exact hheld (((hentry.success_iff hzero genericAll poolAvailable).1 hsuccess).1 h)
      · exact hheld ((checkOwner_success_of_no_dacl rfl hno 0).1 hsuccess h)
    | denied h hsought hmask hdenied =>
      have hallowed := ((h.success_iff hzero genericAll poolAvailable).1 hsuccess).2.1 _ hsought
      exact ((h.allowed_iff hworld).1 hallowed).1 hmask hdenied
    | lacking h hsought hmask hnot =>
      have hallowed := ((h.success_iff hzero genericAll poolAvailable).1 hsuccess).2.1 _ hsought
      exact hnot (((h.allowed_iff hworld).1 hallowed).2 hmask)
    | maximum h honly howner hnone =>
      rcases ((h.success_iff hzero genericAll poolAvailable).1 hsuccess).2.2 honly with h | ⟨i, h⟩
      · exact howner h
      · exact hnone i h
  · intro hrefusal
    have h24 : traverseAccess.getLsbD 24 = true → Held seSecurityPrivilege context.effectiveToken :=
      fun h => by_contra fun hheld => hrefusal (.privilege h hheld)
    rcases hopen.cases with ⟨before, ace, after, hentry⟩ | hno
    · refine (hentry.success_iff hzero genericAll poolAvailable).2
        ⟨h24, fun i hsought => (hentry.allowed_iff hworld).2 ⟨?_, ?_⟩, fun honly => ?_⟩
      · exact fun hmask hdenied => hrefusal (.denied hentry hsought hmask hdenied)
      · exact fun hmask => by_contra fun hnot => hrefusal (.lacking hentry hsought hmask hnot)
      · by_contra hnone
        push Not at hnone
        exact hrefusal (.maximum hentry honly hnone.1 hnone.2)
    · exact (checkOwner_success_of_no_dacl rfl hno 0).2 h24

/-- A directory that World may traverse; `mask` is what the user is denied. -/
def directory (mask : AccessMask) : SecurityDescriptor where
  owner := ⟨1, 5, [18]⟩
  daclPresent := true
  dacl := some [⟨.accessDenied, 0, mask, userSid⟩, ⟨.accessAllowed, 0, 0x20, seWorldSid⟩]

/-- The user, with World as an enabled group. -/
def everyman : SecuritySubjectContext where
  clientToken := none
  impersonationLevel := .securityAnonymous
  primaryToken := ⟨[⟨userSid, 7⟩, ⟨seWorldSid, 7⟩], []⟩

/-- A user who may not write to the directory traverses it. -/
theorem seFastTraverseCheck_sound_reader :
    seFastTraverseCheck 0x20 (some (directory 2)) .userMode = true ∧
      ∃ o, seAccessCheck (some (directory 2)) everyman 0x20 0 0 true .userMode true = .ok o ∧ o.success = true := by
  have hfast : seFastTraverseCheck 0x20 (some (directory 2)) .userMode = true := by decide
  refine ⟨hfast, (seFastTraverseCheck_sound_iff 0x20 (directory 2) everyman (by decide) 0 true).2 (fun _ hrefusal => ?_) hfast⟩
  have hbit : ∀ i < 32, (0x20 : AccessMask).getLsbD i = true → i = 5 := by decide
  have hmasks : ∀ r ∈ (directory 2).dacl.getD [],
      (r.aceType ≠ .accessAllowed → r.mask.getLsbD 5 = false) ∧ (r.sid = seWorldSid → r.mask.getLsbD 5 = true) := by decide
  cases hrefusal with
  | nothing h => exact absurd h (by decide)
  | powerless h => exact absurd h.1 (by decide)
  | privilege h => exact absurd h (by decide)
  | denied h hsought _ hdenied =>
    obtain ⟨b, r, a, rfl, -, happlies, hnot⟩ := hdenied
    obtain rfl := hbit _ (lt_of_bit hsought.1) hsought.1
    rw [h.dacl] at hmasks
    exact Bool.false_ne_true (((hmasks r (by simp)).1 hnot).symm.trans happlies.2.2.2)
  | lacking h hsought hmask =>
    obtain rfl := hbit _ (lt_of_bit hsought.1) hsought.1
    rw [h.dacl] at hmasks
    exact Bool.false_ne_true (hmask.symm.trans ((hmasks _ (by simp)).2 h.forWorld.2.2.2))
  | maximum _ honly => exact absurd honly (by decide)

/-- **A denial passed over.** The user is denied the access before World is allowed it, and the shortcut lets them through. -/
theorem seFastTraverseCheck_barred :
    sepSidInToken everyman.effectiveToken seWorldSid = true ∧
      seFastTraverseCheck 0x20 (some (directory 0x20)) .userMode = true ∧
      seAccessCheck (some (directory 0x20)) everyman 0x20 0 0 true .userMode true = .ok (refused .accessDenied (some 0)) := by
  decide

end AccessCheck

end Nt365.Se
