import Mathlib.Data.Fintype.Card
import Mathlib.Data.Set.Finite.Basic
import Mathlib.Logic.Relation
import Mathlib.Order.WellFounded

/-!
# Walks and cycles

A loop that goes from state to state until it has a result, run on a bounded
number of steps.  Over finitely many states it ends exactly when no cycle is
reachable from where it starts.
-/

namespace Walks

variable {σ α : Type*}

/-! ## Cycles -/

theorem exists_cycle_of_finite {r : σ → σ → Prop} {s : Set σ}
    (hfinite : s.Finite) (hnonempty : s.Nonempty)
    (hserial : ∀ x ∈ s, ∃ y ∈ s, r x y) :
    ∃ x ∈ s, Relation.TransGen r x x := by
  by_contra hacyclic
  push Not at hacyclic
  let onward : s → s → Prop := fun x y => Relation.TransGen r y x
  have : IsTrans s onward := ⟨fun _ _ _ hxy hyz => hyz.trans hxy⟩
  have : Std.Irrefl onward := ⟨fun x => hacyclic x x.2⟩
  have : Finite s := hfinite
  have hwf : WellFounded onward := Finite.wellFounded_of_trans_of_irrefl _
  obtain ⟨x, hx⟩ := hnonempty
  -- a last state would have a successor all the same
  obtain ⟨last, -, hlast⟩ := hwf.has_min Set.univ ⟨⟨x, hx⟩, trivial⟩
  obtain ⟨y, hy, hstep⟩ := hserial last last.2
  exact hlast ⟨y, hy⟩ trivial (.single hstep)

/-! ## Bounds -/

theorem exists_common_bound {P : ℕ → α → Prop}
    (hmono : ∀ m n a, m ≤ n → P m a → P n a) {l : List α}
    (h : ∀ a ∈ l, ∃ n, P n a) : ∃ n, ∀ a ∈ l, P n a := by
  induction l with
  | nil => exact ⟨0, nofun⟩
  | cons a l ih =>
      obtain ⟨m, hm⟩ := h a List.mem_cons_self
      obtain ⟨n, hn⟩ := ih fun b hb => h b (List.mem_cons_of_mem a hb)
      refine ⟨max m n, fun b hb => ?_⟩
      rcases List.mem_cons.mp hb with rfl | hb
      · exact hmono _ _ _ (le_max_left m n) hm
      · exact hmono _ _ _ (le_max_right m n) (hn b hb)

/-! ## Walks -/

section Walk

variable (step : σ → α ⊕ σ)

/-- Go on until a step has a result; `none` if the fuel is used up first. -/
def walk : ℕ → σ → Option α
  | 0, _ => none
  | fuel + 1, s =>
      match step s with
      | .inl a => some a
      | .inr s' => walk fuel s'

def Goes (s s' : σ) : Prop :=
  step s = .inr s'

variable {step}

theorem walk_of_inl {s : σ} {a : α} (h : step s = .inl a) (fuel : ℕ) :
    walk step (fuel + 1) s = some a := by
  rw [walk, h]

theorem walk_of_goes {s s' : σ} (h : Goes step s s') (fuel : ℕ) :
    walk step (fuel + 1) s = walk step fuel s' := by
  rw [walk, h]

theorem walk_mono {s : σ} {a : α} {fuel : ℕ} (h : walk step fuel s = some a)
    {fuel' : ℕ} (hle : fuel ≤ fuel') : walk step fuel' s = some a := by
  induction fuel generalizing s fuel' with
  | zero => exact absurd h (by simp [walk])
  | succ fuel ih =>
      obtain ⟨fuel', rfl⟩ : ∃ n, fuel' = n + 1 := ⟨fuel' - 1, by omega⟩
      cases hstep : step s with
      | inl b => rwa [walk_of_inl hstep] at h ⊢
      | inr s' =>
          rw [walk_of_goes hstep] at h ⊢
          exact ih h (by omega)

theorem exists_inl_of_walk {s : σ} {a : α} {fuel : ℕ}
    (h : walk step fuel s = some a) : ∃ s', step s' = .inl a := by
  induction fuel generalizing s with
  | zero => exact absurd h (by simp [walk])
  | succ fuel ih =>
      cases hstep : step s with
      | inl b =>
          rw [walk_of_inl hstep, Option.some.injEq] at h
          exact ⟨s, h ▸ hstep⟩
      | inr s' =>
          rw [walk_of_goes hstep] at h
          exact ih h

/-- From a set that no step leaves, and where no step has a result, a walk
never ends. -/
theorem walk_eq_none_of_invariant {s : Set σ}
    (hserial : ∀ x ∈ s, ∃ y ∈ s, Goes step x y) {x : σ} (hx : x ∈ s)
    (fuel : ℕ) : walk step fuel x = none := by
  induction fuel generalizing x with
  | zero => rfl
  | succ fuel ih =>
      obtain ⟨y, hy, hgoes⟩ := hserial x hx
      rw [walk_of_goes hgoes]
      exact ih hy

/-- A walk over finitely many states ends if and only if no state on its way
is on a cycle. -/
theorem walk_ends_iff {s : σ}
    (hfinite : {x | Relation.ReflTransGen (Goes step) s x}.Finite) :
    (∃ fuel, walk step fuel s ≠ none) ↔
      ∀ x, Relation.ReflTransGen (Goes step) s x →
        ¬ Relation.TransGen (Goes step) x x := by
  constructor
  · rintro ⟨fuel, hends⟩ x hreach hcycle
    refine hends (walk_eq_none_of_invariant
      (s := {y | Relation.TransGen (Goes step) y x}) ?_ ?_ fuel)
    · intro y hy
      obtain ⟨z, hgoes, hz⟩ := Relation.TransGen.head'_iff.mp hy
      exact ⟨z, Relation.TransGen.trans_right hz hcycle, hgoes⟩
    · exact Relation.TransGen.trans_right hreach hcycle
  · intro hacyclic
    by_contra hnever
    push Not at hnever
    -- every state reached can go on, since the walk would end there otherwise
    have hnone : ∀ x, Relation.ReflTransGen (Goes step) s x →
        ∀ fuel, walk step fuel x = none := by
      intro x hreach
      induction hreach with
      | refl => exact hnever
      | tail _ hgoes ih =>
          intro fuel
          rw [← walk_of_goes hgoes]
          exact ih (fuel + 1)
    obtain ⟨x, hx, hcycle⟩ := exists_cycle_of_finite (r := Goes step) hfinite
      ⟨s, Relation.ReflTransGen.refl⟩ (by
        intro x hx
        cases hstep : step x with
        | inl a =>
            have hend := hnone x hx 1
            rw [walk_of_inl hstep] at hend
            exact absurd hend (by simp)
        | inr y => exact ⟨y, Relation.ReflTransGen.tail hx hstep, hstep⟩)
    exact hacyclic x hx hcycle

end Walk

end Walks
