import Mathlib.Data.Nat.Notation
import Mathlib.Logic.Relation

/-!
# Loops

A loop whose body goes on with a new state, leaves with a result or stops with an error. It is
given a number of iterations; the rule says that a loop with a bound on the iterations it has
left ends as it should once it is given more than that.
-/

namespace Nt365.Library

theorem ok_bind {ε α β : Type} (a : α) (f : α → Except ε β) : (Except.ok a >>= f) = f a := rfl

theorem exists_of_bind_eq_ok {ε α β : Type} {x : Except ε α} {f : α → Except ε β} {b : β}
    (h : (x >>= f) = .ok b) : ∃ a, x = .ok a ∧ f a = .ok b := by
  cases x with
  | error e => cases h
  | ok a => exact ⟨a, rfl, h⟩

theorem exists_eq_ok_iff {ε α : Type} {x : Except ε α} : (∃ a, x = .ok a) ↔ ¬∃ e, x = .error e := by
  cases x <;> simp

theorem exists_map_eq_error_iff {ε α β : Type} {x : Except ε α} {f : α → β} : (∃ e, x.map f = .error e) ↔ ∃ e, x = .error e := by
  cases x <;> simp [Except.map]

variable {ε σ β : Type*}

/-- The loop, with `out` as its error when the iterations run out. -/
def loop (out : ε) (body : σ → Except ε (σ ⊕ β)) : ℕ → σ → Except ε β
  | 0, _ => .error out
  | n + 1, s =>
    match body s with
    | .error e => .error e
    | .ok (.inr b) => .ok b
    | .ok (.inl s) => loop out body n s

section Step

variable {o : ε} {body : σ → Except ε (σ ⊕ β)} {n : ℕ} {s t : σ}

theorem loop_go (h : body s = .ok (.inl t)) : loop o body (n + 1) s = loop o body n t := by
  rw [loop, h]

theorem loop_leave {b : β} (h : body s = .ok (.inr b)) : loop o body (n + 1) s = .ok b := by
  rw [loop, h]

end Step

/-- What an iteration owes: it keeps the invariant with fewer iterations left, or it ends as
required. -/
def Iterates (I : ℕ → σ → Prop) (Q : Except ε β → Prop) (k : ℕ) : Except ε (σ ⊕ β) → Prop
  | .error e => Q (.error e)
  | .ok (.inr b) => Q (.ok b)
  | .ok (.inl s) => ∃ j < k, I j s

theorem iterates_ite {I : ℕ → σ → Prop} {Q : Except ε β → Prop} {k : ℕ} {c : Prop} [Decidable c]
    {a b : Except ε (σ ⊕ β)} (ha : c → Iterates I Q k a) (hb : ¬c → Iterates I Q k b) :
    Iterates I Q k (if c then a else b) := by
  split
  · exact ha ‹_›
  · exact hb ‹_›

/-- **The loop rule**: `I k s` is the invariant, with at most `k` iterations after this one. -/
theorem loop_rule {out : ε} {body : σ → Except ε (σ ⊕ β)} {I : ℕ → σ → Prop} {Q : Except ε β → Prop}
    (hbody : ∀ k s, I k s → Iterates I Q k (body s)) {k n : ℕ} {s : σ} (hs : I k s) (hn : k < n) :
    Q (loop out body n s) := by
  induction n generalizing k s with
  | zero => omega
  | succ n ih =>
    have h := hbody k s hs
    rw [loop]
    cases hb : body s with
    | error e =>
      rw [hb] at h
      exact h
    | ok r =>
      rw [hb] at h
      cases r with
      | inr b => exact h
      | inl s' =>
        obtain ⟨j, hj, hs'⟩ := h
        exact ih hs' (by omega)

/-! ### More results -/

section Extends

variable {ε α β : Type}

/-- What the first computation ends with, the second ends with. -/
structure Extends (x y : Except ε α) : Prop where
  eq_ok : ∀ a, x = .ok a → y = .ok a

theorem Extends.refl (x : Except ε α) : Extends x x := ⟨fun _ h => h⟩

theorem Extends.bind {x y : Except ε α} {f g : α → Except ε β} (hx : Extends x y) (hf : ∀ a, Extends (f a) (g a)) :
    Extends (x >>= f) (y >>= g) := by
  refine ⟨fun b h => ?_⟩
  obtain ⟨a, ha, hb⟩ := exists_of_bind_eq_ok h
  rw [hx.eq_ok a ha]
  exact (hf a).eq_ok b hb

theorem Extends.ite {p : Prop} [Decidable p] {a a' b b' : Except ε α} (ha : Extends a a') (hb : Extends b b') :
    Extends (if p then a else b) (if p then a' else b') := by
  split
  · exact ha
  · exact hb

theorem Extends.loop {σ : Type} {o : ε} {body body' : σ → Except ε (σ ⊕ β)} (hbody : ∀ s, Extends (body s) (body' s))
    (n : ℕ) (s : σ) : Extends (loop o body n s) (loop o body' n s) := by
  induction n generalizing s with
  | zero => exact .refl _
  | succ n ih =>
    refine ⟨fun b h => ?_⟩
    rw [Library.loop] at h
    cases hr : body s with
    | error e => simp [hr] at h
    | ok r =>
      have hr' := (hbody s).eq_ok r hr
      cases r with
      | inl t =>
        rw [loop_go hr']
        exact (ih t).eq_ok b (by simpa [hr] using h)
      | inr b' =>
        rw [loop_leave hr']
        simpa [hr] using h

end Extends

/-! ### The states that a loop reaches -/

variable (body : σ → Except ε (σ ⊕ β))

/-- From this state the loop goes on with that one. -/
def Goes (s t : σ) : Prop := body s = .ok (.inl t)

/-- The states that a loop reaches. -/
abbrev Reaches : σ → σ → Prop := Relation.ReflTransGen (Goes body)

/-- The invariant is kept and the measure gets smaller. -/
def Descends (I : σ → Prop) (μ : σ → ℕ) : Prop :=
  ∀ s t, I s → Goes body s t → I t ∧ μ t < μ s

/-- A loop ends with a result, once it is given enough iterations, if and only if it reaches a state that leaves with it. -/
theorem exists_loop_eq_ok_iff {o : ε} {body : σ → Except ε (σ ⊕ β)} {s : σ} {b : β} :
    (∃ n, loop o body n s = .ok b) ↔ ∃ t, Reaches body s t ∧ body t = .ok (.inr b) := by
  constructor
  · rintro ⟨n, hn⟩
    induction n generalizing s with
    | zero => cases hn
    | succ n ih =>
      rw [loop] at hn
      cases hb : body s with
      | error e => simp only [hb, reduceCtorEq] at hn
      | ok r =>
        cases r with
        | inr c =>
          simp only [hb] at hn
          cases hn
          exact ⟨s, .refl, hb⟩
        | inl u =>
          simp only [hb] at hn
          obtain ⟨t, ht, hleave⟩ := ih hn
          exact ⟨t, .head hb ht, hleave⟩
  · rintro ⟨t, ht, hleave⟩
    induction ht using Relation.ReflTransGen.head_induction_on with
    | refl => exact ⟨1, loop_leave hleave⟩
    | head hgo _ ih =>
      obtain ⟨n, hn⟩ := ih
      exact ⟨n + 1, (loop_go hgo).trans hn⟩

section Reaches

variable {o : ε} {body : σ → Except ε (σ ⊕ β)} {I : σ → Prop} {μ : σ → ℕ} {n : ℕ} {s t : σ} {b : β}

/-- A loop that descends, with enough iterations from this state on. -/
structure Bounded (body : σ → Except ε (σ ⊕ β)) (I : σ → Prop) (μ : σ → ℕ) (n : ℕ) (s : σ) : Prop where
  descends : Descends body I μ
  start : I s
  fuel : μ s < n

theorem loop_fuel (hd : Descends body I μ) {m : ℕ} (hs : I s) (hm : μ s < m) (hn : μ s < n) :
    loop o body m s = loop o body n s := by
  induction m generalizing n s with
  | zero => omega
  | succ m ih =>
    obtain ⟨n, rfl⟩ : ∃ k, n = k + 1 := ⟨n - 1, by omega⟩
    rw [loop, loop]
    cases hb : body s with
    | error e => rfl
    | ok r =>
      cases r with
      | inr b => rfl
      | inl t =>
        obtain ⟨ht, hlt⟩ := hd s t hs hb
        exact ih ht (by omega) (by omega)

namespace Bounded

section

variable (h : Bounded body I μ n s)

include h

theorem keeps (ht : Reaches body s t) : Bounded body I μ n t := by
  induction ht with
  | refl => exact h
  | tail _ hgo ih =>
    obtain ⟨hu, hdec⟩ := h.descends _ _ ih.start hgo
    exact ⟨h.descends, hu, Nat.lt_trans hdec ih.fuel⟩

theorem loop_eq (ht : Reaches body s t) : loop o body n s = loop o body n t := by
  induction ht with
  | refl => rfl
  | @tail t u ht hgo ih =>
    obtain ⟨-, hstart, hfuel⟩ := h.keeps ht
    obtain ⟨hu, hdec⟩ := h.descends t u hstart hgo
    obtain ⟨n, rfl⟩ : ∃ k, n = k + 1 := ⟨n - 1, by omega⟩
    rw [ih, loop_go hgo]
    exact loop_fuel h.descends hu (by omega) (by omega)

/-- In a loop that ends with a result, a state goes on or leaves with it. -/
theorem of_ok (hok : loop o body n s = .ok b) (ht : Reaches body s t) : (∃ u, Goes body t u) ∨ body t = .ok (.inr b) := by
  have hfuel := (h.keeps ht).fuel
  obtain ⟨n, rfl⟩ : ∃ k, n = k + 1 := ⟨n - 1, by omega⟩
  rw [h.loop_eq ht, loop] at hok
  cases hbody : body t with
  | error e => simp [hbody] at hok
  | ok r =>
    cases r with
    | inl u => exact .inl ⟨u, hbody⟩
    | inr c =>
      simp only [hbody] at hok
      exact .inr (by rw [Except.ok.inj hok])

/-- **A loop that descends ends** in a state that it reaches. -/
theorem ends : ∃ t, Reaches body s t ∧
    ((∃ e, body t = .error e ∧ loop o body n s = .error e) ∨ ∃ b, body t = .ok (.inr b) ∧ loop o body n s = .ok b) := by
  obtain ⟨hd, hs, hn⟩ := h
  induction n generalizing s with
  | zero => omega
  | succ n ih =>
    cases hb : body s with
    | error e => exact ⟨s, .refl, .inl ⟨e, hb, by rw [loop, hb]⟩⟩
    | ok r =>
      cases r with
      | inr b => exact ⟨s, .refl, .inr ⟨b, hb, by rw [loop, hb]⟩⟩
      | inl t =>
        obtain ⟨ht, hlt⟩ := hd s t hs hb
        obtain ⟨u, hu, hend⟩ := ih ht (by omega)
        exact ⟨u, .head hb hu, by rwa [loop, hb]⟩

theorem ok_iff : loop o body n s = .ok b ↔ ∃ t, Reaches body s t ∧ body t = .ok (.inr b) := by
  refine ⟨fun hok => exists_loop_eq_ok_iff.mp ⟨n, hok⟩, fun ⟨t, ht, hb⟩ => ?_⟩
  have hfuel := (h.keeps ht).fuel
  obtain ⟨n, rfl⟩ : ∃ k, n = k + 1 := ⟨n - 1, by omega⟩
  rw [h.loop_eq ht, loop_leave hb]

theorem error_iff : (∃ e, loop o body n s = .error e) ↔ ∃ t, Reaches body s t ∧ ∃ e, body t = .error e := by
  obtain ⟨t, ht, ⟨e, he, hloop⟩ | ⟨b, -, hloop⟩⟩ := h.ends (o := o)
  · exact iff_of_true ⟨e, hloop⟩ ⟨t, ht, e, he⟩
  · refine iff_of_false (by simp [hloop]) ?_
    rintro ⟨u, hu, e, he⟩
    obtain ⟨v, hv⟩ | hleave := h.of_ok hloop hu
    · cases he.symm.trans hv
    · cases he.symm.trans hleave

/-- What a loop reaches, by any relation that says where it goes. -/
theorem reaches_iff {R : σ → σ → Prop} (hR : ∀ t u, I t → (Goes body t u ↔ R t u)) :
    Reaches body s t ↔ Relation.ReflTransGen R s t := by
  constructor
  · intro ht
    induction ht with
    | refl => exact .refl
    | tail ht hgo ih => exact ih.tail ((hR _ _ (h.keeps ht).start).mp hgo)
  · intro ht
    induction ht with
    | refl => exact .refl
    | tail _ hgo ih => exact ih.tail ((hR _ _ (h.keeps ih).start).mpr hgo)

end

end Bounded

end Reaches

end Nt365.Library
