import Nt365.Library.Word
import Mathlib.Data.List.Basic

/-!
# Matching names against wild cards

`FsRtlIsNameInExpression` (`FSRTL/NAME.C`) tells whether a name is in the language of an
expression with the wild cards `*`, `?` and their DOS versions. It keeps the list of the
places of the expression that match the name so far, and makes a new list with each
character of the name, and with one more round at its end.

## The model

A place is a `USHORT` state: four times an offset in characters, or three more for the place
after a star that is reached through it. Lists of states are lists of numbers. The scan of
the states is over a list: what the code reads past the end of its array changes nothing.
The two arrays always have room, and pool allocation succeeds.
-/

namespace Nt365.FsRtl

open Nt365.Library

namespace Name

abbrev WCHAR := UInt16

def dot : WCHAR := 0x2e

/-- `*`. -/
def anyStar : WCHAR := 0x2a

/-- `?`. -/
def questionMark : WCHAR := 0x3f

/-- `DOS_STAR`, `<`. -/
def dosStar : WCHAR := 0x3c

/-- `DOS_QM`, `>`. -/
def dosQm : WCHAR := 0x3e

/-- `DOS_DOT`, a double quote. -/
def dosDot : WCHAR := 0x22

/-- `FsRtlIsUnicodeCharacterWild`. -/
def fsRtlIsUnicodeCharacterWild (c : WCHAR) : Bool :=
  c = dosDot ∨ c = anyStar ∨ c = dosStar ∨ c = dosQm ∨ c = questionMark

def fsRtlDoesNameContainWildCards (name : List WCHAR) : Bool := name.any fsRtlIsUnicodeCharacterWild

/-- The name character in hand, `none` once the name is finished, and the rest of the name. -/
structure NameChar where
  char : Option WCHAR
  rest : List WCHAR

/-- `NameFinished || (NameChar != '.') || ICanEatADot`. -/
def NameChar.dosStarEats (nc : NameChar) : Bool := nc.char ≠ some dot ∨ dot ∈ nc.rest

/-- "We loop here until the expression stops matching": the states reached from an offset of
the expression, in bytes, with what is left of the expression there. -/
def carryOn (upcase : WCHAR → WCHAR) (nc : NameChar) (maxState : ℕ) : List WCHAR → ℕ → List ℕ
  | [], _ => [maxState]
  | c :: expression, offset =>
    let currentState := u16 (offset * 2)
    let nextState := u16 (currentState + 4)
    if c = anyStar then
      currentState :: u16 (currentState + 3) :: carryOn upcase nc maxState expression (offset + 2)
    else if c = dosStar then
      if nc.dosStarEats then
        currentState :: u16 (currentState + 3) :: carryOn upcase nc maxState expression (offset + 2)
      else u16 (currentState + 3) :: carryOn upcase nc maxState expression (offset + 2)
    else if c = dosQm ∧ (nc.char = none ∨ nc.char = some dot) then carryOn upcase nc maxState expression (offset + 2)
    else if c = dosQm then [nextState]
    else if c = dosDot ∧ nc.char = none then carryOn upcase nc maxState expression (offset + 2)
    else if c = dosDot ∧ nc.char = some dot then [nextState]
    else
      match nc.char with
      | none => []
      | some char => if c = questionMark ∨ c = upcase char then [nextState] else []

/-- `MaxState`. -/
def maxState (expression : List WCHAR) : ℕ := u16 (expression.length * 4)

/-- The states that one previous match leads to. -/
def fromState (upcase : WCHAR → WCHAR) (expression : List WCHAR) (nc : NameChar) (state : ℕ) : List ℕ :=
  let offset := (state + 1) / 2
  if offset = expression.length * 2 then []
  else carryOn upcase nc (maxState expression) (expression.drop (offset / 2)) offset

/-- "Prevent duplication in the destination array": each new state may skip one previous
match, if that is below it. -/
def skipSources : List ℕ → List ℕ → List ℕ
  | [], sources => sources
  | _ :: _, [] => []
  | dest :: dests, source :: sources =>
    if source < dest then skipSources dests sources else skipSources dests (source :: sources)

theorem skipSources_length_le (dests sources : List ℕ) : (skipSources dests sources).length ≤ sources.length := by
  induction dests generalizing sources with
  | nil => exact Nat.le_refl _
  | cons dest dests ih =>
    cases sources with
    | nil => exact Nat.le_refl _
    | cons source sources =>
      rw [skipSources]
      split_ifs
      · exact Nat.le_succ_of_le (ih sources)
      · exact ih (source :: sources)

/-- One round over the previous matches. -/
def currentMatches (upcase : WCHAR → WCHAR) (expression : List WCHAR) (nc : NameChar) : List ℕ → List ℕ
  | [] => []
  | source :: sources =>
    let dests := fromState upcase expression nc source
    dests ++ currentMatches upcase expression nc (skipSources dests sources)
termination_by sources => sources.length
decreasing_by exact Nat.lt_succ_of_le (skipSources_length_le _ _)

/-- The rounds over the name, from the matches so far. -/
def matchName (upcase : WCHAR → WCHAR) (expression : List WCHAR) : List WCHAR → List ℕ → Bool
  | [], previousMatches =>
    if previousMatches.getLast? = some (maxState expression) then true
    else (currentMatches upcase expression ⟨none, []⟩ previousMatches).getLast? = some (maxState expression)
  | char :: name, previousMatches =>
    let matched := currentMatches upcase expression ⟨some char, name⟩ previousMatches
    if matched = [] then false else matchName upcase expression name matched

/-- `FsRtlIsNameInExpressionPrivate`; `upcase` does nothing unless case is ignored. -/
def fsRtlIsNameInExpressionPrivate (expression name : List WCHAR) (upcase : WCHAR → WCHAR) : Bool :=
  if name = [] ∨ expression = [] then name = [] ∧ expression = []
  else if expression = [anyStar] then true
  else if expression.head? = some anyStar ∧ fsRtlDoesNameContainWildCards expression.tail = false then
    if name.length < expression.tail.length then false
    else (name.drop (name.length - expression.tail.length)).map upcase = expression.tail
  else matchName upcase expression name [0]

/-- `FsRtlIsNameInExpression`, with the system's `RtlUpcaseUnicodeString` as a parameter. -/
def fsRtlIsNameInExpression (rtlUpcase : List WCHAR → List WCHAR) (expression name : List WCHAR) (ignoreCase : Bool)
    (upcaseTable : Option (WCHAR → WCHAR)) : Bool :=
  match ignoreCase, upcaseTable with
  | false, _ => fsRtlIsNameInExpressionPrivate expression name id
  | true, some table => fsRtlIsNameInExpressionPrivate expression name table
  | true, none => fsRtlIsNameInExpressionPrivate expression (rtlUpcase name) id

end Name

end Nt365.FsRtl
