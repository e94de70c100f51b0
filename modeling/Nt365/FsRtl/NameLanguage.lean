import Nt365.FsRtl.NameRounds
import Nt365.Library.Glob

/-!
# The language of an expression

`matchName_iff_leadsTo` says that the lists stand for sets: a name matches if single states lead on, one for each of its
characters, to the end of the expression. The fast paths answer so too, and the arrays change no answer that they allow
(`answer_iff_leadsTo`).

With the wild cards `*` and `?` only, a state leads to the end with exactly the words of what is left of the pattern. So a name
matches if and only if it is in the language of the expression (`isNameInExpression_iff`). The lists are then in order, though not
free of duplicates as a comment in the code says, and short enough for the arrays (`matchArrays_fit`).
-/

namespace Nt365.FsRtl

open Nt365.Library List

namespace Name

/-- What an expression character stands for. -/
def toGlob (c : WCHAR) : Glob WCHAR :=
  if c = anyStar then .star else if c = questionMark then .any else .lit c

/-- No DOS wild cards. -/
def General (expr : List WCHAR) : Prop := ∀ c ∈ expr, c ≠ dosStar ∧ c ≠ dosQm ∧ c ≠ dosDot

/-- The patterns that take the character in hand. -/
def hits (upcase : WCHAR → WCHAR) : Option WCHAR → Glob WCHAR → Bool
  | some c, .lit a => a = upcase c
  | some _, .any => true
  | _, _ => false

variable {upcase : WCHAR → WCHAR} {expr name w : List WCHAR} {nc : NameChar} {a c : WCHAR} {k s d x : ℕ}

theorem toGlob_ne_star (hc : c ≠ anyStar) : toGlob c ≠ .star := by
  unfold toGlob
  rw [if_neg hc]
  split_ifs <;> simp

theorem hits_iff {x : Glob WCHAR} (hx : x ≠ .star) : hits upcase (some a) x = true ↔ x.Takes (upcase a) := by
  cases x with
  | star => exact absurd rfl hx
  | any => simp [hits, Glob.Takes]
  | lit a => simp [hits, Glob.Takes]

theorem drop_pattern (hk : k < expr.length) :
    (expr.map toGlob).drop k = toGlob expr[k] :: (expr.map toGlob).drop (k + 1) := by
  rw [drop_eq_getElem_cons (by simpa using hk), getElem_map]

section General

variable (hgen : General expr) (hlen : expr.length ≤ 16383)
include hlen

theorem carried_star (hk : k < expr.length) (hc : expr[k] = anyStar) :
    carried upcase nc expr k = 4 * k :: (4 * k + 3) :: carried upcase nc expr (k + 1) := by
  have hreach (state : ℕ) : reach upcase nc expr[k] state = ([state, u16 (state + 3)], true) := if_pos (.inl hc)
  rw [carried_eq hlen (getElem?_eq_getElem hk), hreach, hreach, u16_of_lt (by omega)]
  rfl

include hgen

theorem carried_char (hk : k < expr.length) (hc : expr[k] ≠ anyStar) :
    carried upcase nc expr k = if hits upcase nc.char (toGlob expr[k]) then [4 * (k + 1)] else [] := by
  obtain ⟨hstar, hqm, hdot⟩ := hgen _ (getElem_mem hk)
  have hreach (state : ℕ) : reach upcase nc expr[k] state =
      (if hits upcase nc.char (toGlob expr[k]) then [u16 (state + 4)] else [], false) := by
    rw [reach, if_neg (not_or.mpr ⟨hc, fun h => hstar h.1⟩), if_neg hstar, if_neg hqm, if_neg fun h => hdot h.1,
      if_neg fun h => hdot h.1, toGlob, if_neg hc]
    cases nc.char with
    | none => simp [hits]
    | some a =>
      by_cases hq : expr[k] = questionMark
      · simp [hits, hq]
      · rw [if_neg hq]
        simp only [hits, hq, false_or, decide_eq_true_iff]
        split_ifs <;> rfl
  rw [carried_eq hlen (getElem?_eq_getElem hk), hreach, hreach, u16_of_lt (by omega)]
  exact append_nil _

variable (upcase) in
/-- With the name finished, the end is reached through stars only. -/
theorem end_mem_carried_iff (hk : k ≤ expr.length) :
    4 * expr.length ∈ carried upcase ⟨none, []⟩ expr k ↔ Glob.Accepts ((expr.map toGlob).drop k) [] := by
  refine offset_induction (P := fun k => 4 * expr.length ∈ carried upcase ⟨none, []⟩ expr k ↔
    Glob.Accepts ((expr.map toGlob).drop k) []) ?_ ?_ hk
  · rw [carried_end hlen, drop_eq_nil_of_le (by simp)]
    exact iff_of_true (mem_singleton_self _) rfl
  · intro k hlt ih
    rw [drop_pattern hlt, Glob.accepts_nil, forall_mem_cons, ← Glob.accepts_nil, ← ih]
    by_cases hc : expr[k] = anyStar
    · rw [carried_star hlen hlt hc, mem_cons, mem_cons, or_iff_right (by omega), or_iff_right (by omega), hc]
      exact (and_iff_right rfl).symm
    · rw [carried_char hgen hlen hlt hc]
      exact iff_of_false (by simp [hits]) fun h => toGlob_ne_star hc h.1

variable (upcase) in
/-- **A character** leads on to the words of the pattern that start with it. -/
theorem exists_mem_carried_iff {v : List WCHAR} (hk : k ≤ expr.length) :
    (∃ d ∈ carried upcase ⟨some a, v⟩ expr k, Glob.Accepts ((expr.map toGlob).drop (placeOf d)) w) ↔
      Glob.Accepts ((expr.map toGlob).drop k) (upcase a :: w) ∨ k = expr.length ∧ w = [] := by
  have hplace (k : ℕ) : placeOf (4 * k) = k := by
    unfold placeOf
    omega
  have hafter (k : ℕ) : placeOf (4 * k + 3) = k + 1 := by
    unfold placeOf
    omega
  refine offset_induction (P := fun k => (∃ d ∈ carried upcase ⟨some a, v⟩ expr k,
    Glob.Accepts ((expr.map toGlob).drop (placeOf d)) w) ↔
      Glob.Accepts ((expr.map toGlob).drop k) (upcase a :: w) ∨ k = expr.length ∧ w = []) ?_ ?_ hk
  · simp [carried_end hlen, hplace, drop_eq_nil_of_le, Glob.Accepts]
  · intro k hlt ih
    rw [drop_pattern hlt, or_iff_left (fun h => absurd h.1 (by omega))]
    by_cases hc : expr[k] = anyStar
    · rw [carried_star hlen hlt hc, exists_mem_cons_iff, exists_mem_cons_iff, hplace, hafter, ih, drop_pattern hlt, hc,
        show toGlob anyStar = .star from rfl, Glob.accepts_star_cons]
      constructor
      · rintro (h | h | h | ⟨hend, rfl⟩)
        · exact .inl h
        · exact .inl h.star
        · exact .inr h
        · rw [hend, drop_eq_nil_of_le (by simp)]
          exact .inl (Glob.Accepts.star rfl)
      · rintro (h | h)
        · exact .inl h
        · exact .inr (.inr (.inl h))
    · rw [carried_char hgen hlen hlt hc, Glob.accepts_cons (toGlob_ne_star hc), ← hits_iff (toGlob_ne_star hc)]
      split_ifs with hhit
      · simp [hplace, hhit]
      · simp [hhit]

omit hgen in
/-- The place after a last star comes with the end. -/
theorem end_mem_of_last (hk : k ≤ expr.length) (hd : 4 * expr.length - 1 ∈ carried upcase nc expr k) :
    4 * expr.length ∈ carried upcase nc expr k := by
  revert hd
  refine offset_induction (P := fun k => 4 * expr.length - 1 ∈ carried upcase nc expr k →
    4 * expr.length ∈ carried upcase nc expr k) ?_ ?_ hk
  · intro _
    rw [carried_end hlen]
    exact mem_singleton_self _
  · intro k hlt ih hd
    have hc := getElem?_eq_getElem hlt
    by_cases hgo : GoesOn upcase nc expr[k]
    · rw [carried_goesOn hlen hc hgo, mem_append] at hd ⊢
      refine .inr (hd.elim (fun hd => ?_) ih)
      rw [show k + 1 = expr.length by have := (reach_of_goesOn (by omega) hgo).2 _ hd; omega, carried_end hlen]
      exact mem_singleton_self _
    · rw [carried_stops hlen hc hgo] at hd
      have := (reach_of_stops (k := k) (by omega) hgo).2 _ hd
      omega

/-- **The words of a state** are those of what is left of the pattern. The state after a last star leads nowhere; the
end is listed with it. -/
theorem leadsTo_iff_accepts (hs : IsState expr s) (hne : s + 1 ≠ 4 * expr.length) :
    LeadsTo upcase expr name s ↔ Glob.Accepts ((expr.map toGlob).drop (placeOf s)) (name.map upcase) := by
  induction name generalizing s with
  | nil =>
    rw [LeadsTo, map_nil, maxState_eq hlen, fromState_eq_carried hs, ← end_mem_carried_iff upcase hgen hlen hs.placeOf_le]
    split_ifs with hend
    · rw [hend, carried_end hlen]
      refine iff_of_true (.inl ?_) (mem_singleton_self _)
      unfold placeOf at hend
      rcases hs with hs | hs <;> omega
    · refine or_iff_right ?_
      rintro rfl
      exact hend (by unfold placeOf; omega)
  | cons a name ih =>
    rw [LeadsTo, map_cons, fromState_eq_carried hs]
    split_ifs with hend
    · rw [hend, drop_eq_nil_of_le (by simp)]
      simp [Glob.Accepts]
    · have hiff := exists_mem_carried_iff (a := a) (v := name) (w := name.map upcase) upcase hgen hlen hs.placeOf_le
      rw [or_iff_left fun h => hend h.1] at hiff
      rw [← hiff]
      have hstate {d : ℕ} (hd : d ∈ carried upcase ⟨some a, name⟩ expr (placeOf s)) : IsState expr d :=
        (le_of_mem_carried hlen hs.placeOf_le hd).2.2
      constructor
      · rintro ⟨d, hd, hleads⟩
        refine ⟨d, hd, (ih (hstate hd) fun hlast => ?_).mp hleads⟩
        have hplace : placeOf d = expr.length := by unfold placeOf; omega
        cases name with
        | nil =>
          rw [LeadsTo, fromState_eq_carried (hstate hd), if_pos hplace, maxState_eq hlen] at hleads
          rcases hleads with h | h
          · omega
          · cases h
        | cons b name =>
          rw [LeadsTo, fromState_eq_carried (hstate hd), if_pos hplace] at hleads
          obtain ⟨_, h, -⟩ := hleads
          cases h
      · rintro ⟨d, hd, haccepts⟩
        by_cases hlast : d + 1 = 4 * expr.length
        · have hmem := end_mem_of_last hlen hs.placeOf_le (show 4 * expr.length - 1 ∈ _ by rwa [← hlast])
          refine ⟨_, hmem, (ih (hstate hmem) (by omega)).mpr ?_⟩
          rwa [show placeOf (4 * expr.length) = placeOf d by unfold placeOf; omega]
        · exact ⟨d, hd, (ih (hstate hd) hlast).mpr haccepts⟩

theorem leadsTo_start_iff (hne : expr ≠ []) :
    LeadsTo upcase expr name 0 ↔ Glob.Accepts (expr.map toGlob) (name.map upcase) :=
  leadsTo_iff_accepts hgen hlen (.inl ⟨rfl, Nat.zero_le _⟩) (by have := length_pos_iff.mpr hne; omega)

end General

/-! ### The whole call -/

/-- An expression of the second fast path, a star and characters that are not wild. -/
theorem map_toGlob_of_tail (hhead : expr.head? = some anyStar) (htail : fsRtlDoesNameContainWildCards expr.tail = false) :
    General expr ∧ expr.map toGlob = .star :: expr.tail.map Glob.lit := by
  obtain ⟨e, rfl⟩ := head?_eq_some_iff.mp hhead
  have hwild : ∀ x ∈ e, ¬fsRtlIsUnicodeCharacterWild x = true := any_eq_false.mp htail
  simp only [fsRtlIsUnicodeCharacterWild, decide_eq_true_iff, not_or] at hwild
  refine ⟨forall_mem_cons.mpr ⟨by decide, fun x hx => ?_⟩, ?_⟩
  · have := hwild x hx
    tauto
  · rw [map_cons, toGlob, if_pos rfl, tail_cons]
    congr 1
    refine map_congr_left fun x hx => ?_
    rw [toGlob, if_neg (hwild x hx).2.1, if_neg (hwild x hx).2.2.2.2]

/-- **The fast paths** answer as the rounds do. -/
theorem fsRtlIsNameInExpressionPrivate_iff (hlen : expr.length ≤ 16383) (hname : name ≠ []) (hexpression : expr ≠ []) :
    fsRtlIsNameInExpressionPrivate expr name upcase = true ↔ LeadsTo upcase expr name 0 := by
  rw [fsRtlIsNameInExpressionPrivate, if_neg (not_or.mpr ⟨hname, hexpression⟩)]
  split_ifs with hany htail hshort
  · subst hany
    rw [leadsTo_start_iff (by simp [General, anyStar, dosStar, dosQm, dosDot]) hlen hexpression]
    exact iff_of_true rfl ⟨_, [], (append_nil _).symm, rfl⟩
  · obtain ⟨hgen, hmap⟩ := map_toGlob_of_tail htail.1 htail.2
    rw [leadsTo_start_iff hgen hlen hexpression, hmap, Glob.accepts_star_literals]
    refine iff_of_false not_false fun hsuffix => ?_
    have := hsuffix.length_le
    rw [length_map] at this
    omega
  · obtain ⟨hgen, hmap⟩ := map_toGlob_of_tail htail.1 htail.2
    rw [leadsTo_start_iff hgen hlen hexpression, hmap, Glob.accepts_star_literals, decide_eq_true_iff, map_drop,
      suffix_iff_eq_drop, length_map]
    exact eq_comm
  · rw [matchName_iff_leadsTo hlen isList_start]
    simp

/-- **The states lead the way.** Where the arrays hold, a name matches if and only if single states lead from the start to
the end of the expression: neither the states that "Prevent duplication" skips nor those listed twice change the answer, nor
does it matter that only the last state is compared with the end. -/
theorem answer_iff_leadsTo {answer : Bool} (hlen : expr.length ≤ 16383) (hname : name ≠ []) (hexpression : expr ≠ [])
    (h : fsRtlIsNameInExpressionPrivateIn expr name upcase = .ok answer) : answer = true ↔ LeadsTo upcase expr name 0 := by
  rw [← fsRtlIsNameInExpressionPrivateIn_ok h, fsRtlIsNameInExpressionPrivate_iff hlen hname hexpression]

/-- `<.b` and `a.a.b`. -/
theorem answer_iff_leadsTo_extension : LeadsTo id [dosStar, dot, 0x62] [0x61, dot, 0x61, dot, 0x62] 0 := by
  have hanswer : fsRtlIsNameInExpressionPrivateIn [dosStar, dot, 0x62] [0x61, dot, 0x61, dot, 0x62] id =
    .ok true := by decide +kernel
  exact (answer_iff_leadsTo (by decide) (by decide) (by decide) hanswer).mp rfl

/-- **Names in expressions**: with the case as it is or with an upcase table, a name is found to
be in an expression if and only if it is in its language. The fast paths answer as the rounds
over the name would. -/
theorem isNameInExpression_iff (expr name : List WCHAR) (hexpression : expr ≠ []) (hname : name ≠ [])
    (hgen : General expr) (hmax : expr.length ≤ 16383) (rtlUpcase : List WCHAR → List WCHAR) :
    (∀ upcaseTable, fsRtlIsNameInExpression rtlUpcase expr name false upcaseTable = true ↔
      Glob.Accepts (expr.map toGlob) name) ∧
    (∀ table : WCHAR → WCHAR, fsRtlIsNameInExpression rtlUpcase expr name true (some table) = true ↔
      Glob.Accepts (expr.map toGlob) (name.map table)) ∧
    ∀ upcase, fsRtlIsNameInExpressionPrivate expr name upcase = matchName upcase expr name [0] := by
  have hprivate (upcase : WCHAR → WCHAR) : fsRtlIsNameInExpressionPrivate expr name upcase = true ↔
      Glob.Accepts (expr.map toGlob) (name.map upcase) :=
    (fsRtlIsNameInExpressionPrivate_iff hmax hname hexpression).trans (leadsTo_start_iff hgen hmax hexpression)
  refine ⟨?_, ?_, ?_⟩
  · intro upcaseTable
    simpa [fsRtlIsNameInExpression] using hprivate id
  · intro table
    simpa [fsRtlIsNameInExpression] using hprivate table
  · intro upcase
    rw [Bool.eq_iff_iff, fsRtlIsNameInExpressionPrivate_iff hmax hname hexpression, matchName_iff_leadsTo hmax isList_start]
    simp

/-- The name `AXB` is in the expression `A*B`. -/
theorem isNameInExpression_star_between :
    fsRtlIsNameInExpression id [0x41, anyStar, 0x42] [0x41, 0x58, 0x42] false none = true ∧
      Glob.Accepts ([0x41, anyStar, 0x42].map toGlob) [0x41, 0x58, 0x42] := by
  have hacc : Glob.Accepts ([0x41, anyStar, 0x42].map toGlob) [0x41, 0x58, 0x42] := by
    simp only [map_cons, map_nil, show toGlob 0x41 = .lit 0x41 from rfl, show toGlob 0x42 = .lit 0x42 from rfl,
      show toGlob anyStar = .star from rfl]
    exact ⟨_, rfl, [0x58], [0x42], rfl, [], rfl, rfl⟩
  have hiff := isNameInExpression_iff [0x41, anyStar, 0x42] [0x41, 0x58, 0x42] (by simp) (by simp)
    (by simp [General, anyStar, dosStar, dosQm, dosDot]) (by simp) id
  exact ⟨(hiff.1 none).mpr hacc, hacc⟩

/-! ### Where the lists are short -/

/-- The states that can be listed from an offset on, each as often as it can be: a star behind another character is reached by
matching that character, and by staying at the star. -/
def listable : List WCHAR → ℕ → List ℕ
  | [], k => [4 * k]
  | c :: e, k => if c = anyStar then 4 * k :: (4 * k + 3) :: listable e (k + 1) else 4 * (k + 1) :: listable e (k + 1)

theorem length_listable_le (e : List WCHAR) (k : ℕ) : (listable e k).length ≤ 2 * e.length + 1 := by
  induction e generalizing k with
  | nil => exact le_rfl
  | cons c e ih =>
    have hle := ih (k + 1)
    rw [listable]
    split_ifs <;> simp only [length_cons] <;> omega

theorem bounds_of_mem_listable {e : List WCHAR} (h : x ∈ listable e k) : 4 * k ≤ x ∧ x ≤ 4 * (k + e.length) := by
  induction e generalizing k with
  | nil =>
    rw [mem_singleton.mp h]
    exact ⟨le_rfl, le_rfl⟩
  | cons c e ih =>
    rw [listable] at h
    rw [length_cons]
    split_ifs at h <;> simp only [mem_cons] at h
    · obtain rfl | rfl | h := h
      · omega
      · omega
      · have := ih h
        omega
    · obtain rfl | h := h
      · omega
      · have := ih h
        omega

theorem skipSources_of_le {dests sources : List ℕ} (h : ∀ x ∈ sources, d ≤ x) :
    skipSources (d :: dests) sources = skipSources dests sources := by
  cases sources with
  | nil => cases dests <;> rfl
  | cons x sources => rw [skipSources, if_neg (h x mem_cons_self).not_gt]

/-- A source below the new state is skipped, if there is one. -/
theorem skipSources_of_sublist {x : Option ℕ} {sources m : List ℕ} (dests : List ℕ) (h : sources <+ x.toList ++ m)
    (hx : ∀ y ∈ x, y < d) (hm : ∀ y ∈ m, d ≤ y) : ∃ t, t <+ m ∧ skipSources (d :: dests) sources = skipSources dests t := by
  have hle (h : sources <+ m) : ∃ t, t <+ m ∧ skipSources (d :: dests) sources = skipSources dests t :=
    ⟨sources, h, skipSources_of_le fun y hy => hm y (h.subset hy)⟩
  cases x with
  | none => exact hle h
  | some x =>
    rcases sublist_cons_iff.mp h with h | ⟨t, rfl, ht⟩
    · exact hle h
    · exact ⟨t, ht, by rw [skipSources, if_pos (hx x rfl)]⟩

/-- What a round lists from an offset on is listable, for what was listed from there; also behind a state at the offset, whose new
states skip those that would be listed again. -/
structure Fits (upcase : WCHAR → WCHAR) (expr : List WCHAR) (nc : NameChar) (k : ℕ) : Prop where
  round : ∀ sources, sources <+ listable (expr.drop k) k →
    currentMatches upcase expr nc sources <+ listable (expr.drop k) k
  behind : ∀ (x : Option ℕ) sources, (∀ y ∈ x, y + 1 = 4 * k) → sources <+ x.toList ++ listable (expr.drop k) k →
    carried upcase nc expr k ++ currentMatches upcase expr nc (skipSources (carried upcase nc expr k) sources) <+
      listable (expr.drop k) k

/-- A state at an offset leads to what is listable from there on. -/
theorem Fits.cons (h : Fits upcase expr nc k) (hs : (s + 1) / 2 = 2 * k) {sources : List ℕ}
    (hsources : sources <+ listable (expr.drop k) k) :
    currentMatches upcase expr nc (s :: sources) <+ listable (expr.drop k) k := by
  rw [currentMatches, fromState_at hs]
  split_ifs with hend
  · exact h.round sources hsources
  · exact h.behind none sources (by simp) hsources

section Short

variable (hgen : General expr) (hlen : expr.length ≤ 16383)
include hlen

theorem fits_end : Fits upcase expr nc expr.length := by
  have hlist : listable (expr.drop expr.length) expr.length = [4 * expr.length] := by rw [drop_length, listable]
  have hround (sources : List ℕ) (hs : sources <+ [4 * expr.length]) : currentMatches upcase expr nc sources = [] := by
    rcases sublist_singleton.mp hs with rfl | rfl
    · rw [currentMatches]
    · rw [currentMatches, fromState_at (k := expr.length) (by omega), if_pos rfl, skipSources, currentMatches]
      rfl
  constructor
  · intro sources hs
    rw [hlist] at hs
    rw [hround sources hs]
    exact nil_sublist _
  · intro x sources hx hs
    rw [hlist] at hs ⊢
    obtain ⟨t, ht, hskip⟩ := skipSources_of_sublist [] hs (fun y hy => Nat.lt_of_succ_le (hx y hy).le) (by simp)
    rw [carried_end hlen, hskip, skipSources, hround t ht]
    exact Sublist.refl _

theorem Fits.star (hk : k < expr.length) (hc : expr[k] = anyStar) (h : Fits upcase expr nc (k + 1)) :
    Fits upcase expr nc k := by
  have hlist : listable (expr.drop k) k = 4 * k :: (4 * k + 3) :: listable (expr.drop (k + 1)) (k + 1) := by
    rw [drop_eq_getElem_cons hk, listable, if_pos hc]
  have hcarried : carried upcase nc expr k = _ := carried_star hlen hk hc
  have hle : ∀ y ∈ (4 * k + 3) :: listable (expr.drop (k + 1)) (k + 1), 4 * k + 3 ≤ y := by
    refine forall_mem_cons.mpr ⟨le_rfl, fun y hy => ?_⟩
    have := (bounds_of_mem_listable hy).1
    omega
  constructor
  · intro sources hs
    rw [hlist] at hs ⊢
    rcases sublist_cons_iff.mp hs with hs | ⟨t, rfl, ht⟩
    · rcases sublist_cons_iff.mp hs with hs | ⟨t, rfl, ht⟩
      · exact ((h.round sources hs).cons _).cons _
      · exact ((h.cons (by omega) ht).cons _).cons _
    · have hle' (y : ℕ) (hy : y ∈ t) := hle y (ht.subset hy)
      rw [currentMatches, fromState_at (k := k) (by omega), if_neg hk.ne, hcarried,
        skipSources_of_le fun y hy => (Nat.le_add_right _ 3).trans (hle' y hy), skipSources_of_le hle']
      exact ((h.behind (some _) t (by rintro _ ⟨⟩; omega) ht).cons_cons _).cons_cons _
  · intro x sources hx hs
    rw [hlist] at hs ⊢
    -- the two states of the star skip what comes before the state after it
    obtain ⟨t, ht, hskip⟩ := skipSources_of_sublist ((4 * k + 3) :: carried upcase nc expr (k + 1)) hs
      (fun y hy => Nat.lt_of_succ_le (hx y hy).le)
      (forall_mem_cons.mpr ⟨le_rfl, fun y hy => (Nat.le_add_right _ 3).trans (hle y hy)⟩)
    obtain ⟨t', ht', hskip'⟩ := skipSources_of_sublist (x := some (4 * k)) (carried upcase nc expr (k + 1)) ht
      (by rintro _ ⟨⟩; omega) hle
    rw [hcarried, hskip, hskip']
    exact ((h.behind (some _) t' (by rintro _ ⟨⟩; omega) ht').cons_cons _).cons_cons _

include hgen in
theorem Fits.char (hk : k < expr.length) (hc : expr[k] ≠ anyStar) (h : Fits upcase expr nc (k + 1)) :
    Fits upcase expr nc k := by
  have hlist : listable (expr.drop k) k = 4 * (k + 1) :: listable (expr.drop (k + 1)) (k + 1) := by
    rw [drop_eq_getElem_cons hk, listable, if_neg hc]
  have hround (sources : List ℕ) (hs : sources <+ listable (expr.drop k) k) :
      currentMatches upcase expr nc sources <+ listable (expr.drop (k + 1)) (k + 1) := by
    rw [hlist] at hs
    rcases sublist_cons_iff.mp hs with hs | ⟨t, rfl, ht⟩
    · exact h.round sources hs
    · exact h.cons (by omega) ht
  have hcarried : carried upcase nc expr k = _ := carried_char hgen hlen hk hc
  refine ⟨fun sources hs => hlist ▸ (hround sources hs).cons _, fun x sources hx hs => ?_⟩
  by_cases hhit : hits upcase nc.char (toGlob expr[k])
  · rw [if_pos hhit] at hcarried
    obtain ⟨t, ht, hskip⟩ := skipSources_of_sublist [] hs (fun y hy =>
      show y < 4 * (k + 1) by have := hx y hy; omega) fun y hy => by
      rw [hlist] at hy
      rcases mem_cons.mp hy with rfl | hy
      · exact le_rfl
      · exact (bounds_of_mem_listable hy).1
    rw [hcarried, hskip, skipSources, hlist]
    exact (hround t ht).cons_cons _
  · rw [if_neg hhit] at hcarried
    rw [hcarried, skipSources, nil_append, hlist]
    refine Sublist.cons _ ?_
    cases x with
    | none => exact hround sources hs
    | some x =>
      have := hx x rfl
      rcases sublist_cons_iff.mp hs with hs | ⟨t, rfl, ht⟩
      · exact hround sources hs
      · rw [currentMatches, fromState_at (k := k) (by omega), if_neg hk.ne, hcarried, skipSources]
        exact hround t ht

include hgen in
theorem fits (hk : k ≤ expr.length) : Fits upcase expr nc k := by
  refine offset_induction (fits_end hlen) (fun k hlt ih => ?_) hk
  by_cases hc : expr[k] = anyStar
  · exact ih.star hlen hlt hc
  · exact ih.char hgen hlen hlt hc

/-- The matches are in order, and none is listed more often than it can be. -/
def InOrder (expr : List WCHAR) (sources : List ℕ) : Prop := sources = [0] ∨ sources <+ listable expr 0

omit hlen in
theorem InOrder.within {sources : List ℕ} (h : InOrder expr sources) : Within expr sources := by
  intro source hs
  rcases h with rfl | h
  · rw [mem_singleton.mp hs]
    omega
  · have := (bounds_of_mem_listable (h.subset hs)).2
    omega

include hgen in
theorem InOrder.round {sources : List ℕ} (h : InOrder expr sources) (nc : NameChar) :
    InOrder expr (currentMatches upcase expr nc sources) ∧
      (currentMatches upcase expr nc sources).length ≤ 2 * expr.length + 1 := by
  have hfits : Fits upcase expr nc 0 := fits hgen hlen (Nat.zero_le _)
  have hsub : currentMatches upcase expr nc sources <+ listable expr 0 := by
    rcases h with rfl | h
    · exact hfits.cons rfl (nil_sublist _)
    · exact hfits.round sources h
  exact ⟨.inr hsub, hsub.length_le.trans (length_listable_le expr 0)⟩

end Short

/-- **The arrays are large enough** for expressions without DOS wild cards, and the answer is that of the lists. -/
theorem matchArrays_fit {name : List WCHAR} (hlen : expr.length ≤ 16383) (hgen : General expr) :
    fsRtlIsNameInExpressionPrivateIn expr name upcase = .ok (fsRtlIsNameInExpressionPrivate expr name upcase) := by
  have hstart : InOrder expr [0] := .inl rfl
  obtain ⟨answer, hanswer⟩ : ∃ answer, fsRtlIsNameInExpressionPrivateIn expr name upcase = .ok answer := by
    unfold fsRtlIsNameInExpressionPrivateIn
    split_ifs
    iterate 4 exact ⟨_, rfl⟩
    exact exists_matchNameIn (fun _ h => h.within) (fun nc _ h => h.round hgen hlen nc) hstart
  rw [hanswer, fsRtlIsNameInExpressionPrivateIn_ok hanswer]

/-- A name of many parts against many stars, which moves the arrays to pool. -/
theorem matchArrays_fit_stars :
    fsRtlIsNameInExpressionPrivateIn (List.replicate 8 anyStar ++ [questionMark]) [0x61, 0x2e, 0x62] id = .ok true := by
  rw [matchArrays_fit (by decide) (by simp [General, anyStar, questionMark, dosStar, dosQm, dosDot])]
  decide +kernel

end Name

end Nt365.FsRtl
