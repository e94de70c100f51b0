import Nt365.FsRtl.Name
import Nt365.Library.Loop

/-!
# The arrays of matches

`FsRtlIsNameInExpressionPrivate` lists the places that match in two arrays with room for 16 states each, and moves them to
pool with room for two states for each character of the expression, and two more, when one of them is nearly full.
Nothing else stops the writes.

## The model

The functions of `Nt365.FsRtl.Name` again, with the arrays: a write outside an array, or a copy outside the buffer, stops the code.
-/

namespace Nt365.FsRtl.Name

open Nt365.Library List

/-- What goes wrong in the arrays. -/
inductive ArrayStop where
  /-- A state is written after the end of an array. -/
  | writeOutside
  /-- An array is copied past the end of `AuxBuffer`. -/
  | copyOutside
deriving DecidableEq

def matchesArraySize : ℕ := 16

/-- `AuxBuffer != NULL`, and what `CurrentMatches` has so far. -/
structure MatchArrays where
  auxBuffer : Bool
  current : List ℕ
deriving DecidableEq

namespace MatchArrays

variable (expressionChars : ℕ)

/-- The states that each of the two arrays has room for. -/
def capacity (auxBuffer : Bool) : ℕ := if auxBuffer then 2 * (expressionChars + 1) else matchesArraySize

/-- `CurrentMatches[DestCount++] = State`. -/
def put (a : MatchArrays) (state : ℕ) : Except ArrayStop MatchArrays :=
  if a.current.length < capacity expressionChars a.auxBuffer then .ok { a with current := a.current ++ [state] }
  else .error .writeOutside

/-- "We may be about to exhaust the local space": both arrays are copied to one buffer. -/
def makeRoom (a : MatchArrays) : Except ArrayStop MatchArrays :=
  if a.current.length ≥ matchesArraySize - 2 ∧ a.auxBuffer = false then
    if matchesArraySize ≤ 4 * (expressionChars + 1) ∧ (expressionChars + 1) * 2 + matchesArraySize ≤ 4 * (expressionChars + 1) then
      .ok { a with auxBuffer := true }
    else .error .copyOutside
  else .ok a

end MatchArrays

open MatchArrays

/-- `carryOn`, into the arrays. -/
def carryOnIn (upcase : WCHAR → WCHAR) (nc : NameChar) (expressionChars maxState : ℕ) :
    List WCHAR → ℕ → MatchArrays → Except ArrayStop MatchArrays
  | [], _, a => a.put expressionChars maxState
  | c :: expression, offset, a => do
    let a ← a.makeRoom expressionChars
    let currentState := u16 (offset * 2)
    let nextState := u16 (currentState + 4)
    if c = anyStar then
      let a ← a.put expressionChars currentState
      let a ← a.put expressionChars (u16 (currentState + 3))
      carryOnIn upcase nc expressionChars maxState expression (offset + 2) a
    else if c = dosStar then
      if nc.dosStarEats then
        let a ← a.put expressionChars currentState
        let a ← a.put expressionChars (u16 (currentState + 3))
        carryOnIn upcase nc expressionChars maxState expression (offset + 2) a
      else
        let a ← a.put expressionChars (u16 (currentState + 3))
        carryOnIn upcase nc expressionChars maxState expression (offset + 2) a
    else if c = dosQm ∧ (nc.char = none ∨ nc.char = some dot) then
      carryOnIn upcase nc expressionChars maxState expression (offset + 2) a
    else if c = dosQm then a.put expressionChars nextState
    else if c = dosDot ∧ nc.char = none then carryOnIn upcase nc expressionChars maxState expression (offset + 2) a
    else if c = dosDot ∧ nc.char = some dot then a.put expressionChars nextState
    else
      match nc.char with
      | none => .ok a
      | some char => if c = questionMark ∨ c = upcase char then a.put expressionChars nextState else .ok a

def fromStateIn (upcase : WCHAR → WCHAR) (expression : List WCHAR) (nc : NameChar) (state : ℕ) (a : MatchArrays) :
    Except ArrayStop MatchArrays :=
  let offset := (state + 1) / 2
  if offset = expression.length * 2 then .ok a
  else carryOnIn upcase nc expression.length (maxState expression) (expression.drop (offset / 2)) offset a

/-- One round over the previous matches. Each new state is looked at once for a match to skip. -/
def currentMatchesIn (upcase : WCHAR → WCHAR) (expression : List WCHAR) (nc : NameChar) :
    List ℕ → MatchArrays → Except ArrayStop MatchArrays
  | [], a => .ok a
  | source :: sources, a =>
    match fromStateIn upcase expression nc source a with
    | .error e => .error e
    | .ok b => currentMatchesIn upcase expression nc (skipSources (b.current.drop a.current.length) sources) b
termination_by sources => sources.length
decreasing_by exact Nat.lt_succ_of_le (skipSources_length_le _ _)

/-- The rounds over the name. -/
def matchNameIn (upcase : WCHAR → WCHAR) (expression : List WCHAR) : List WCHAR → Bool → List ℕ → Except ArrayStop Bool
  | [], auxBuffer, previousMatches =>
    if previousMatches.getLast? = some (maxState expression) then .ok true
    else do
      let a ← currentMatchesIn upcase expression ⟨none, []⟩ previousMatches ⟨auxBuffer, []⟩
      return a.current.getLast? = some (maxState expression)
  | char :: name, auxBuffer, previousMatches => do
    let a ← currentMatchesIn upcase expression ⟨some char, name⟩ previousMatches ⟨auxBuffer, []⟩
    if a.current = [] then return false else matchNameIn upcase expression name a.auxBuffer a.current

/-- `FsRtlIsNameInExpressionPrivate`, with its arrays. -/
def fsRtlIsNameInExpressionPrivateIn (expression name : List WCHAR) (upcase : WCHAR → WCHAR) : Except ArrayStop Bool :=
  if name = [] ∨ expression = [] then .ok (name = [] ∧ expression = [])
  else if expression = [anyStar] then .ok true
  else if expression.head? = some anyStar ∧ fsRtlDoesNameContainWildCards expression.tail = false then
    if name.length < expression.tail.length then .ok false
    else .ok ((name.drop (name.length - expression.tail.length)).map upcase = expression.tail)
  else matchNameIn upcase expression name false [0]

/-! ### What is written -/

variable {upcase : WCHAR → WCHAR} {nc : NameChar} {expr e : List WCHAR} {n m offset : ℕ} {a b : MatchArrays}

/-- What a character of the expression does: the states it lists, and whether the scan goes on. -/
def reach (upcase : WCHAR → WCHAR) (nc : NameChar) (c : WCHAR) (currentState : ℕ) : List ℕ × Bool :=
  if c = anyStar ∨ c = dosStar ∧ nc.dosStarEats then ([currentState, u16 (currentState + 3)], true)
  else if c = dosStar then ([u16 (currentState + 3)], true)
  else if c = dosQm then if nc.char = none ∨ nc.char = some dot then ([], true) else ([u16 (currentState + 4)], false)
  else if c = dosDot ∧ nc.char = none then ([], true)
  else if c = dosDot ∧ nc.char = some dot then ([u16 (currentState + 4)], false)
  else
    match nc.char with
    | none => ([], false)
    | some char => if c = questionMark ∨ c = upcase char then ([u16 (currentState + 4)], false) else ([], false)

theorem carryOn_cons (c : WCHAR) : carryOn upcase nc m (c :: e) offset =
    (reach upcase nc c (u16 (offset * 2))).1 ++
      if (reach upcase nc c (u16 (offset * 2))).2 then carryOn upcase nc m e (offset + 2) else [] := by
  unfold reach
  rw [carryOn]
  grind

def putAll (n : ℕ) (states : List ℕ) (a : MatchArrays) : Except ArrayStop MatchArrays :=
  states.foldlM (fun a state => a.put n state) a

theorem carryOnIn_cons (c : WCHAR) : carryOnIn upcase nc n m (c :: e) offset a = (do
    let a ← a.makeRoom n
    let a ← putAll n (reach upcase nc c (u16 (offset * 2))).1 a
    if (reach upcase nc c (u16 (offset * 2))).2 then carryOnIn upcase nc n m e (offset + 2) a else .ok a) := by
  unfold reach
  rw [carryOnIn]
  congr 1
  funext a
  have hput : ∀ (state : ℕ), putAll n [state] a = a.put n state := fun state => by simp [putAll]
  have hput2 : ∀ (x y : ℕ) (k : MatchArrays → Except ArrayStop MatchArrays),
      (putAll n [x, y] a >>= k) = (a.put n x >>= fun b => b.put n y >>= k) := fun x y k => by
    simp only [putAll, foldlM_cons, foldlM_nil, bind_assoc, pure_bind]
  have hnil : ∀ k : MatchArrays → Except ArrayStop MatchArrays, (putAll n [] a >>= k) = k a := fun k => rfl
  have hok : ∀ x : Except ArrayStop MatchArrays, (x >>= fun b => .ok b) = x := fun x => bind_pure x
  by_cases h₁ : c = anyStar ∨ c = dosStar ∧ nc.dosStarEats
  · rw [if_pos h₁]
    simp only [hput2, if_true]
    rcases h₁ with h | ⟨h, heats⟩
    · rw [if_pos h]
    · rw [if_neg (by rw [h]; decide), if_pos h, if_pos heats]
  · rw [not_or, not_and] at h₁
    rw [if_neg h₁.1, if_neg (not_or.mpr ⟨h₁.1, not_and.mpr h₁.2⟩)]
    by_cases h₂ : c = dosStar
    · rw [if_pos h₂, if_neg (h₁.2 h₂), if_pos h₂]
      simp only [hput, if_true]
    · rw [if_neg h₂, if_neg h₂]
      by_cases h₃ : c = dosQm
      · by_cases h₄ : nc.char = none ∨ nc.char = some dot
        · rw [if_pos ⟨h₃, h₄⟩, if_pos h₃, if_pos h₄]
          simp only [hnil, if_true]
        · rw [if_neg (fun h => h₄ h.2), if_pos h₃, if_pos h₃, if_neg h₄]
          simp only [hput, hok, Bool.false_eq_true, if_false]
      · rw [if_neg (fun h => h₃ h.1), if_neg h₃, if_neg h₃]
        by_cases h₅ : c = dosDot ∧ nc.char = none
        · rw [if_pos h₅, if_pos h₅]
          simp only [hnil, if_true]
        · rw [if_neg h₅, if_neg h₅]
          by_cases h₆ : c = dosDot ∧ nc.char = some dot
          · rw [if_pos h₆, if_pos h₆]
            simp only [hput, hok, Bool.false_eq_true, if_false]
          · rw [if_neg h₆, if_neg h₆]
            cases nc.char with
            | none => rfl
            | some char =>
              dsimp only
              split
              · simp only [hput, hok, Bool.false_eq_true, if_false]
              · rfl

theorem put_ok {state : ℕ} (h : a.put n state = .ok b) : b.current = a.current ++ [state] := by
  unfold put at h
  split at h <;> cases h
  rfl

theorem makeRoom_ok (h : a.makeRoom n = .ok b) : b.current = a.current := by
  unfold makeRoom at h
  split_ifs at h <;> cases h <;> rfl

theorem putAll_ok {states : List ℕ} (h : putAll n states a = .ok b) : b.current = a.current ++ states := by
  induction states generalizing a with
  | nil =>
    cases h
    exact (append_nil _).symm
  | cons state states ih =>
    rw [putAll, foldlM_cons] at h
    obtain ⟨c, hput, hputs⟩ := exists_of_bind_eq_ok h
    rw [ih hputs, put_ok hput, append_assoc, singleton_append]

theorem carryOnIn_ok (h : carryOnIn upcase nc n m e offset a = .ok b) : b.current = a.current ++ carryOn upcase nc m e offset := by
  induction e generalizing a offset with
  | nil => exact put_ok h
  | cons c e ih =>
    rw [carryOnIn_cons] at h
    obtain ⟨a₁, hroom, h⟩ := exists_of_bind_eq_ok h
    obtain ⟨a₂, hputs, h⟩ := exists_of_bind_eq_ok h
    rw [carryOn_cons, ← append_assoc, ← makeRoom_ok hroom, ← putAll_ok hputs]
    split at h
    · rw [if_pos ‹_›, ih h]
    · cases h
      rw [if_neg ‹_›, append_nil]

theorem fromStateIn_ok {source : ℕ} (h : fromStateIn upcase expr nc source a = .ok b) :
    b.current = a.current ++ fromState upcase expr nc source := by
  unfold fromStateIn at h
  unfold fromState
  dsimp only at h ⊢
  split_ifs at h ⊢
  · cases h
    rw [append_nil]
  · exact carryOnIn_ok h

theorem currentMatchesIn_ok {sources : List ℕ} (h : currentMatchesIn upcase expr nc sources a = .ok b) :
    b.current = a.current ++ currentMatches upcase expr nc sources := by
  induction hk : sources.length using Nat.strongRecOn generalizing sources a with
  | _ k ih =>
    cases sources with
    | nil =>
      rw [currentMatchesIn] at h
      cases h
      rw [currentMatches, append_nil]
    | cons source sources =>
      rw [currentMatchesIn] at h
      split at h
      · cases h
      · rename_i d hfrom
        have hd := fromStateIn_ok hfrom
        rw [hd, drop_left] at h
        rw [ih _ (by rw [← hk]; exact Nat.lt_succ_of_le (skipSources_length_le _ _)) h rfl, hd, append_assoc, currentMatches]

/-- **The answer**, where the arrays hold, is that of the lists. -/
theorem matchNameIn_ok {name : List WCHAR} {aux answer : Bool} {sources : List ℕ}
    (h : matchNameIn upcase expr name aux sources = .ok answer) : matchName upcase expr name sources = answer := by
  induction name generalizing aux sources with
  | nil =>
    rw [matchNameIn] at h
    rw [matchName]
    split_ifs at h ⊢
    · cases h
      rfl
    · obtain ⟨b, hb, h⟩ := exists_of_bind_eq_ok h
      rw [currentMatchesIn_ok hb] at h
      exact Except.ok.inj h
  | cons char name ih =>
    rw [matchNameIn] at h
    obtain ⟨b, hb, h⟩ := exists_of_bind_eq_ok h
    rw [currentMatchesIn_ok hb, nil_append] at h
    rw [matchName]
    split_ifs at h ⊢
    · exact Except.ok.inj h
    · exact ih h

theorem fsRtlIsNameInExpressionPrivateIn_ok {name : List WCHAR} {answer : Bool}
    (h : fsRtlIsNameInExpressionPrivateIn expr name upcase = .ok answer) :
    fsRtlIsNameInExpressionPrivate expr name upcase = answer := by
  unfold fsRtlIsNameInExpressionPrivateIn at h
  unfold fsRtlIsNameInExpressionPrivate
  split_ifs at h ⊢
  iterate 4 exact Except.ok.inj h
  exact matchNameIn_ok h

/-! ### Room -/

/-- Until the arrays are in pool, they have room for what is written before the next check. -/
def HasRoom (slack : ℕ) (a : MatchArrays) : Prop := a.auxBuffer = false → a.current.length + slack ≤ matchesArraySize

theorem exists_put {slack : ℕ} (state : ℕ) (hroom : HasRoom (slack + 1) a) (hlen : a.current.length + 1 ≤ 2 * n + 1) :
    ∃ b, a.put n state = .ok b ∧ HasRoom slack b := by
  have hlt : a.current.length < capacity n a.auxBuffer := by
    unfold capacity
    split
    · omega
    · have := hroom (by simpa using ‹¬a.auxBuffer = true›)
      omega
  refine ⟨{ a with current := a.current ++ [state] }, if_pos hlt, fun haux => ?_⟩
  have := hroom haux
  simp only [length_append, length_singleton]
  omega

/-- The check leaves room for three states, if not too many are written. -/
theorem exists_makeRoom (hlen : a.current.length ≤ 2 * n + 1) : ∃ b, a.makeRoom n = .ok b ∧ HasRoom 3 b := by
  unfold makeRoom
  split
  · rename_i h
    unfold matchesArraySize at h ⊢
    rw [if_pos (by omega)]
    exact ⟨_, rfl, fun haux => by cases haux⟩
  · rename_i h
    refine ⟨a, rfl, fun haux => ?_⟩
    unfold matchesArraySize at h ⊢
    have : ¬a.current.length ≥ 16 - 2 := fun hge => h ⟨hge, haux⟩
    omega

theorem HasRoom.mono {slack slack' : ℕ} (h : HasRoom slack a) (hle : slack' ≤ slack) : HasRoom slack' a := fun haux => by
  have := h haux
  omega

variable (upcase nc) in
theorem length_reach_le (c : WCHAR) (state : ℕ) : (reach upcase nc c state).1.length ≤ 2 := by
  unfold reach
  split_ifs <;> try simp
  split
  · simp
  · split_ifs <;> simp

theorem exists_putAll {slack : ℕ} {states : List ℕ} (hroom : HasRoom (slack + states.length) a)
    (hlen : a.current.length + states.length ≤ 2 * n + 1) : ∃ b, putAll n states a = .ok b ∧ HasRoom slack b := by
  induction states generalizing a with
  | nil => exact ⟨a, rfl, hroom⟩
  | cons state states ih =>
    rw [length_cons] at hroom hlen
    obtain ⟨b, hput, hroom'⟩ := exists_put state (n := n)
      (show HasRoom (slack + states.length + 1) a from hroom.mono (by omega)) (by omega)
    obtain ⟨c, hputs, hroom''⟩ := ih hroom' (by rw [put_ok hput, length_append, length_singleton]; omega)
    exact ⟨c, by rw [putAll, foldlM_cons, hput, ok_bind]; exact hputs, hroom''⟩

/-- **The states are written to the arrays** while they are at most two for each character of the expression, and one more. -/
theorem exists_carryOnIn (hroom : HasRoom (if e = [] then 1 else 0) a)
    (hlen : a.current.length + (carryOn upcase nc m e offset).length ≤ 2 * n + 1) :
    ∃ b, carryOnIn upcase nc n m e offset a = .ok b ∧ HasRoom 0 b := by
  induction e generalizing a offset with
  | nil =>
    rw [carryOn] at hlen
    exact exists_put _ hroom hlen
  | cons c e ih =>
    rw [carryOn_cons] at hlen
    rw [carryOnIn_cons]
    have hreach := length_reach_le upcase nc c (u16 (offset * 2))
    generalize reach upcase nc c (u16 (offset * 2)) = r at hlen hreach
    rw [length_append] at hlen
    obtain ⟨b, hmake, hroom₁⟩ := exists_makeRoom (a := a) (n := n) (by omega)
    have hb := makeRoom_ok hmake
    obtain ⟨d, hputs, hroom₂⟩ := exists_putAll (n := n) (show HasRoom (1 + r.1.length) b from hroom₁.mono (by omega))
      (by rw [hb]; omega)
    rw [hmake, ok_bind, hputs, ok_bind]
    split
    · rename_i hgo
      rw [if_pos hgo] at hlen
      exact ih (hroom₂.mono (by split <;> omega)) (by rw [putAll_ok hputs, hb, length_append]; omega)
    · exact ⟨d, rfl, hroom₂.mono (by omega)⟩

/-- The states are of places in the expression. -/
def Within (expr : List WCHAR) (sources : List ℕ) : Prop := ∀ source ∈ sources, (source + 1) / 2 ≤ expr.length * 2

theorem skipSources_suffix (dests sources : List ℕ) : skipSources dests sources <:+ sources := by
  induction dests generalizing sources with
  | nil => exact suffix_rfl
  | cons dest dests ih =>
    cases sources with
    | nil => exact suffix_rfl
    | cons source sources =>
      rw [skipSources]
      split
      · exact (ih sources).trans (suffix_cons _ _)
      · exact ih _

variable (upcase nc) in
theorem exists_fromStateIn {source : ℕ} (hwithin : (source + 1) / 2 ≤ expr.length * 2) (hroom : HasRoom 0 a)
    (hlen : a.current.length + (fromState upcase expr nc source).length ≤ 2 * expr.length + 1) :
    ∃ b, fromStateIn upcase expr nc source a = .ok b ∧ HasRoom 0 b := by
  rw [fromStateIn]
  rw [fromState] at hlen
  by_cases hend : (source + 1) / 2 = expr.length * 2
  · rw [if_pos hend]
    exact ⟨a, rfl, hroom⟩
  · rw [if_neg hend] at hlen
    rw [if_neg hend]
    refine exists_carryOnIn ?_ hlen
    rw [if_neg]
    · exact hroom
    · rw [drop_eq_nil_iff]
      omega

/-- **A round fits** in the arrays if its list is not too long. -/
theorem exists_currentMatchesIn {sources : List ℕ} (hwithin : Within expr sources) (hroom : HasRoom 0 a)
    (hlen : a.current.length + (currentMatches upcase expr nc sources).length ≤ 2 * expr.length + 1) :
    ∃ b, currentMatchesIn upcase expr nc sources a = .ok b := by
  induction hk : sources.length using Nat.strongRecOn generalizing sources a with
  | _ k ih =>
    cases sources with
    | nil => exact ⟨a, by rw [currentMatchesIn]⟩
    | cons source sources =>
      rw [currentMatches, length_append] at hlen
      obtain ⟨b, hfrom, hroom'⟩ := exists_fromStateIn upcase nc (hwithin source (mem_cons_self ..)) hroom (by omega)
      have hb := fromStateIn_ok hfrom
      have hskip := skipSources_suffix (fromState upcase expr nc source) sources
      rw [currentMatchesIn, hfrom]
      dsimp only
      rw [hb, drop_left]
      refine ih _ ?_ (fun x hx => hwithin x (mem_cons_of_mem _ (hskip.subset hx))) hroom' (by rw [hb, length_append]; omega) rfl
      rw [← hk]
      exact Nat.lt_succ_of_le hskip.length_le

/-- **All rounds fit** if an invariant of the lists keeps them short. -/
theorem exists_matchNameIn {inv : List ℕ → Prop} (hwithin : ∀ sources, inv sources → Within expr sources)
    (hnext : ∀ nc sources, inv sources → inv (currentMatches upcase expr nc sources) ∧
      (currentMatches upcase expr nc sources).length ≤ 2 * expr.length + 1)
    {name : List WCHAR} {aux : Bool} {sources : List ℕ} (hs : inv sources) :
    ∃ answer, matchNameIn upcase expr name aux sources = .ok answer := by
  have hround (nc : NameChar) {aux : Bool} {sources : List ℕ} (hs : inv sources) :
      ∃ b, currentMatchesIn upcase expr nc sources ⟨aux, []⟩ = .ok b :=
    exists_currentMatchesIn (hwithin _ hs) (fun _ => by simp [matchesArraySize]) (by simpa using (hnext nc _ hs).2)
  induction name generalizing aux sources with
  | nil =>
    rw [matchNameIn]
    split
    · exact ⟨_, rfl⟩
    · obtain ⟨b, hb⟩ := hround ⟨none, []⟩ hs
      exact ⟨_, by rw [hb]; rfl⟩
  | cons char name ih =>
    obtain ⟨b, hb⟩ := hround ⟨some char, name⟩ hs
    rw [matchNameIn, hb, ok_bind, currentMatchesIn_ok hb, nil_append]
    split
    · exact ⟨_, rfl⟩
    · exact ih (hnext _ _ hs).1

/-! ### An array that is too small -/

-- with seven `DOS_STAR`s, places are listed twice after the last dot of the name, and a seventeenth state is written to
-- an array of sixteen
example : fsRtlIsNameInExpressionPrivateIn (List.replicate 7 dosStar) [0x61, dot, 0x61] id = .error .writeOutside := by
  decide +kernel

end Nt365.FsRtl.Name
