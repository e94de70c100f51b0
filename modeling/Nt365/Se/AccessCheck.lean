import Mathlib.Data.BitVec

/-!
# Access checks

`SeAccessCheck` (`SE/ACCESSCK.C`) decides whether a subject may have the accesses it desires to an object
with a security descriptor. The owner of the object gets `READ_CONTROL` and `WRITE_DAC` first. What remains
is left to `SepAccessCheck`, which asks for `SeSecurityPrivilege` when `ACCESS_SYSTEM_SECURITY` is desired,
tries `SeTakeOwnershipPrivilege` for `WRITE_OWNER`, and then goes through the entries of the DACL. It does so
with one of two loops: with `MAXIMUM_ALLOWED` the granted and the denied accesses are collected, without
it the accesses that remain are cleared until none does or one is denied.

## The model

An access mask is a `BitVec 32`. A SID is compared byte by byte in `SepSidInToken`, after its revision and its
length, so two SIDs are equal there when all their fields are. An output of a call that the call does not
write is `none`. The locks of the token and of the subject context are taken and released in pairs and are
left out, and so are the debug prints and the assertions of a checked build.
-/

namespace Nt365.Se

namespace AccessCheck

abbrev AccessMask := BitVec 32

abbrev Luid := BitVec 64

/-- `SID`. -/
structure Sid where
  revision : BitVec 8
  identifierAuthority : BitVec 48
  subAuthority : List (BitVec 32)
deriving DecidableEq

/-- `SID_AND_ATTRIBUTES`. -/
structure SidAndAttributes where
  sid : Sid
  attributes : BitVec 32
deriving DecidableEq

/-- `LUID_AND_ATTRIBUTES`. -/
structure LuidAndAttributes where
  luid : Luid
  attributes : BitVec 32
deriving DecidableEq

/-- The fields of `TOKEN` that an access check reads. The first of `userAndGroups` is the user. -/
structure Token where
  userAndGroups : List SidAndAttributes
  privileges : List LuidAndAttributes
deriving DecidableEq

inductive AceType where
  | accessAllowed
  | accessDenied
  -- `SYSTEM_AUDIT_ACE_TYPE` and every other value of the byte
  | other (aceType : BitVec 8)
deriving DecidableEq

/-- `ACCESS_ALLOWED_ACE`, `ACCESS_DENIED_ACE` and the others, with their header. -/
structure Ace where
  aceType : AceType
  aceFlags : BitVec 8
  mask : AccessMask
  sid : Sid
deriving DecidableEq

/-- The fields of `SECURITY_DESCRIPTOR` that an access check reads. -/
structure SecurityDescriptor where
  owner : Sid
  -- `SE_DACL_PRESENT`
  daclPresent : Bool
  -- `none` for a `NULL` pointer
  dacl : Option (List Ace)
deriving DecidableEq

inductive SecurityImpersonationLevel where
  | securityAnonymous
  | securityIdentification
  | securityImpersonation
  | securityDelegation
deriving DecidableEq

/-- `SECURITY_SUBJECT_CONTEXT`. -/
structure SecuritySubjectContext where
  clientToken : Option Token
  impersonationLevel : SecurityImpersonationLevel
  primaryToken : Token

inductive ProcessorMode where
  | kernelMode
  | userMode
deriving DecidableEq

inductive Status where
  | success
  | accessDenied
  | privilegeNotHeld
  | badImpersonationLevel
deriving DecidableEq

/-- A store through a null pointer. -/
inductive Fault where
  | nullPrivileges
deriving DecidableEq

/-- What a call returns and writes. In `privileges`, `none` stands for no store and `some none` for a stored
`NULL`. -/
structure Outcome where
  success : Bool
  accessStatus : Status
  grantedAccess : Option AccessMask
  privileges : Option (Option (List Luid))
deriving DecidableEq

def readControl : AccessMask := 0x00020000
def writeDac : AccessMask := 0x00040000
def writeOwner : AccessMask := 0x00080000
def accessSystemSecurity : AccessMask := 0x01000000
def maximumAllowed : AccessMask := 0x02000000

def seGroupEnabled : BitVec 32 := 0x00000004
def sePrivilegeEnabled : BitVec 32 := 0x00000002
def inheritOnlyAce : BitVec 8 := 0x08

def seSecurityPrivilege : Luid := 8
def seTakeOwnershipPrivilege : Luid := 9

def SecurityImpersonationLevel.toNat : SecurityImpersonationLevel → ℕ
  | .securityAnonymous => 0
  | .securityIdentification => 1
  | .securityImpersonation => 2
  | .securityDelegation => 3

def SidAndAttributes.enabled (entry : SidAndAttributes) : Bool :=
  entry.attributes &&& seGroupEnabled ≠ 0

def Ace.inheritOnly (ace : Ace) : Bool :=
  ace.aceFlags &&& inheritOnlyAce ≠ 0

def SecuritySubjectContext.effectiveToken (context : SecuritySubjectContext) : Token :=
  context.clientToken.getD context.primaryToken

/-! ### The token -/

/-- The loop of `SepSidInToken` from an entry on; `first` says that the entry is the first of the token. -/
def sidInEntries (sid : Sid) : Bool → List SidAndAttributes → Bool
  | _, [] => false
  | first, entry :: rest =>
    if entry.sid = sid then first || entry.enabled
    else sidInEntries sid false rest

def sepSidInToken (token : Token) (sid : Sid) : Bool :=
  sidInEntries sid true token.userAndGroups

/-- `SepSinglePrivilegeCheck`, with the call of `SepPrivilegeCheck` for one required privilege. -/
def sepSinglePrivilegeCheck (desiredPrivilege : Luid) (token : Token) (previousMode : ProcessorMode) : Bool :=
  match previousMode with
  | .kernelMode => true
  | .userMode => token.privileges.any fun privilege =>
      privilege.attributes &&& sePrivilegeEnabled ≠ 0 && privilege.luid = desiredPrivilege

def sepTokenIsOwner (token : Token) (descriptor : SecurityDescriptor) : Bool :=
  sepSidInToken token descriptor.owner

/-! ### The entries of the DACL -/

/-- The loop with `MAXIMUM_ALLOWED`: the final `CurrentGranted`. -/
def grantMaximum (token : Token) : List Ace → AccessMask → AccessMask → AccessMask
  | [], currentGranted, _ => currentGranted
  | ace :: rest, currentGranted, currentDenied =>
    if ace.inheritOnly then grantMaximum token rest currentGranted currentDenied
    else match ace.aceType with
      | .accessAllowed =>
        if sepSidInToken token ace.sid then
          grantMaximum token rest (currentGranted ||| (ace.mask &&& ~~~currentDenied)) currentDenied
        else grantMaximum token rest currentGranted currentDenied
      | .accessDenied =>
        if sepSidInToken token ace.sid then
          grantMaximum token rest currentGranted (currentDenied ||| (ace.mask &&& ~~~currentGranted))
        else grantMaximum token rest currentGranted currentDenied
      | .other _ => grantMaximum token rest currentGranted currentDenied

/-- The loop without `MAXIMUM_ALLOWED`: the final `Remaining`. -/
def clearRemaining (token : Token) : List Ace → AccessMask → AccessMask
  | [], remaining => remaining
  | ace :: rest, remaining =>
    if remaining = 0 then remaining
    else if ace.inheritOnly then clearRemaining token rest remaining
    else match ace.aceType with
      | .accessAllowed =>
        if sepSidInToken token ace.sid then clearRemaining token rest (remaining &&& ~~~ace.mask)
        else clearRemaining token rest remaining
      | .accessDenied =>
        if sepSidInToken token ace.sid ∧ remaining &&& ace.mask ≠ 0 then remaining
        else clearRemaining token rest remaining
      | .other _ => clearRemaining token rest remaining

/-! ### The privileges that were used -/

/-- The variables of `SepAccessCheck` that its steps before the DACL change. -/
structure Progress where
  remaining : AccessMask
  previouslyGrantedAccess : AccessMask
  systemSecurity : Bool
  writeOwner : Bool

/-- The parameters of a check that do not change. `poolAvailable` says whether `ExAllocatePoolWithTag` finds
memory for the privilege set. -/
structure Parameters where
  token : Token
  desiredAccess : AccessMask
  genericAll : AccessMask
  previousMode : ProcessorMode
  privilegesPresent : Bool
  poolAvailable : Bool

variable (p : Parameters)

/-- `SepAssemblePrivileges` for the privileges that were used, if any. -/
def sepAssemblePrivileges (systemSecurity writeOwner : Bool) : Option (Option (List Luid)) :=
  if p.privilegesPresent ∧ (systemSecurity ∨ writeOwner) then
    if p.poolAvailable then
      some (some ((if systemSecurity then [seSecurityPrivilege] else []) ++
        if writeOwner then [seTakeOwnershipPrivilege] else []))
    else some none
  else none

/-- Return `TRUE` with a granted mask. -/
def granted (s : Progress) (grantedAccess : AccessMask) : Outcome where
  success := true
  accessStatus := .success
  grantedAccess := some grantedAccess
  privileges := sepAssemblePrivileges p s.systemSecurity s.writeOwner

/-- Return `FALSE` with a status. -/
def refused (status : Status) (grantedAccess : Option AccessMask) : Outcome where
  success := false
  accessStatus := status
  grantedAccess := grantedAccess
  privileges := none

/-! ### `SepAccessCheck` -/

/-- `SepAccessCheck` from the test for an empty DACL on. -/
def checkEntries (dacl : List Ace) (s : Progress) : Outcome :=
  if dacl = [] then
    if s.remaining = maximumAllowed ∧ s.previouslyGrantedAccess ≠ 0 then
      granted p s s.previouslyGrantedAccess
    else refused .accessDenied (some 0)
  else if p.desiredAccess &&& maximumAllowed ≠ 0 then
    let currentGranted := grantMaximum p.token dacl 0 0
    if s.remaining &&& ~~~(maximumAllowed ||| currentGranted) ≠ 0 then refused .accessDenied (some 0)
    else if currentGranted ||| s.previouslyGrantedAccess ≠ 0 then
      granted p s (currentGranted ||| s.previouslyGrantedAccess)
    else refused .accessDenied (some (currentGranted ||| s.previouslyGrantedAccess))
  else if clearRemaining p.token dacl s.remaining ≠ 0 then refused .accessDenied (some 0)
  else if p.desiredAccess ||| s.previouslyGrantedAccess = 0 then
    refused .accessDenied (some (p.desiredAccess ||| s.previouslyGrantedAccess))
  else granted p s (p.desiredAccess ||| s.previouslyGrantedAccess)

/-- `SepAccessCheck` from the test for `WRITE_OWNER` on. -/
def checkWriteOwner (dacl : List Ace) (s : Progress) : Outcome :=
  if s.remaining &&& writeOwner ≠ 0 ∧ p.privilegesPresent ∧
      sepSinglePrivilegeCheck seTakeOwnershipPrivilege p.token p.previousMode then
    let s' : Progress :=
      { s with
        remaining := s.remaining &&& ~~~writeOwner
        previouslyGrantedAccess := s.previouslyGrantedAccess ||| writeOwner
        writeOwner := true }
    if s'.remaining = 0 then granted p s' s'.previouslyGrantedAccess
    else checkEntries p dacl s'
  else checkEntries p dacl s

/-- `SepAccessCheck` from the test for a DACL on. Without one every access is granted, and with
`MAXIMUM_ALLOWED` those granted before are not added. -/
def checkDacl (descriptor : SecurityDescriptor) (s : Progress) : Outcome :=
  match descriptor.daclPresent, descriptor.dacl with
  | true, some dacl => checkWriteOwner p dacl s
  | _, _ =>
    granted p s
      (if p.desiredAccess &&& maximumAllowed ≠ 0 then p.genericAll ||| (p.desiredAccess &&& ~~~maximumAllowed)
       else p.desiredAccess ||| s.previouslyGrantedAccess)

def sepAccessCheck (descriptor : SecurityDescriptor) (previouslyGrantedAccess : AccessMask) :
    Outcome :=
  if p.desiredAccess &&& accessSystemSecurity ≠ 0 then
    if sepSinglePrivilegeCheck seSecurityPrivilege p.token p.previousMode then
      let s : Progress :=
        { remaining := p.desiredAccess &&& ~~~accessSystemSecurity
          previouslyGrantedAccess := previouslyGrantedAccess ||| accessSystemSecurity
          systemSecurity := true
          writeOwner := false }
      if s.remaining = 0 then granted p s s.previouslyGrantedAccess
      else checkDacl p descriptor s
    else refused .privilegeNotHeld none
  else checkDacl p descriptor ⟨p.desiredAccess, previouslyGrantedAccess, false, false⟩

/-! ### `SeAccessCheck` -/

/-- `SeAccessCheck` from the owner's accesses on. -/
def checkOwner (descriptor : SecurityDescriptor) (previouslyGrantedAccess : AccessMask) :
    Outcome :=
  let isOwner := p.desiredAccess &&& (writeDac ||| readControl ||| maximumAllowed) ≠ 0 ∧
    sepTokenIsOwner p.token descriptor
  let previouslyGrantedAccess' :=
    if isOwner then
      if p.desiredAccess &&& maximumAllowed ≠ 0 then previouslyGrantedAccess ||| (writeDac ||| readControl)
      else previouslyGrantedAccess ||| (p.desiredAccess &&& (writeDac ||| readControl))
    else previouslyGrantedAccess
  let desiredAccess' :=
    if isOwner then p.desiredAccess &&& ~~~(writeDac ||| readControl) else p.desiredAccess
  if desiredAccess' = 0 then ⟨true, .success, some previouslyGrantedAccess', none⟩
  else sepAccessCheck { p with desiredAccess := desiredAccess' } descriptor previouslyGrantedAccess'

/-- `SeAccessCheck` after its test for kernel mode. -/
def checkSubject (descriptor : Option SecurityDescriptor) (context : SecuritySubjectContext)
    (p : Parameters) (previouslyGrantedAccess : AccessMask) : Except Fault Outcome :=
  match descriptor with
  | none => .ok (refused .accessDenied none)
  | some descriptor =>
    if context.clientToken.isSome ∧
        context.impersonationLevel.toNat < SecurityImpersonationLevel.securityImpersonation.toNat then
      .ok (refused .badImpersonationLevel none)
    else if p.desiredAccess = 0 then
      if previouslyGrantedAccess = 0 then .ok (refused .accessDenied none)
      else if p.privilegesPresent then .ok ⟨true, .success, some previouslyGrantedAccess, some none⟩
      else .error .nullPrivileges
    else .ok (checkOwner p descriptor previouslyGrantedAccess)

/-- A kernel mode call returns at once unless it asks for `MAXIMUM_ALLOWED`; then it has stored a granted
mask and goes on as a user mode call does. -/
def seAccessCheck (descriptor : Option SecurityDescriptor) (context : SecuritySubjectContext)
    (desiredAccess previouslyGrantedAccess genericAll : AccessMask) (privilegesPresent : Bool)
    (accessMode : ProcessorMode) (poolAvailable : Bool) : Except Fault Outcome :=
  let p : Parameters :=
    ⟨context.effectiveToken, desiredAccess, genericAll, accessMode, privilegesPresent, poolAvailable⟩
  match accessMode with
  | .userMode => checkSubject descriptor context p previouslyGrantedAccess
  | .kernelMode =>
    if desiredAccess &&& maximumAllowed ≠ 0 then do
      let outcome ← checkSubject descriptor context p previouslyGrantedAccess
      let stored := genericAll ||| (desiredAccess &&& ~~~maximumAllowed) ||| previouslyGrantedAccess
      .ok { outcome with grantedAccess := some (outcome.grantedAccess.getD stored) }
    else .ok ⟨true, .success, some (desiredAccess ||| previouslyGrantedAccess), none⟩

end AccessCheck

end Nt365.Se
